import ExpiringHash.Proofs.Database.Runs

/-!
# Plain keys

A key space is plain if every key holds a container of its own or nothing, as the keys of an engine
are that has only been asked about fields. Then all there is to know of a key is the fields that it
holds, if it holds any container, and applying a command comes down to a function of these: it never
fails, and it touches no other key.
-/
namespace ExpiringHash

open DatabaseM

namespace KeySpace

variable {ks ks' : KeySpace} {key other : Bytes} {f : Fields} {o : Option Fields}

/-- Every key holds a container of its own or nothing. -/
structure Plain (ks : KeySpace) : Prop where
  tidy : ks.Tidy
  isOpen : ∀ key, ks.Open key

/-- The fields under a key, if it holds a container. -/
def fields? (ks : KeySpace) (key : Bytes) : Option Fields :=
  ((ks.get? key).bind Value.container?).map (·.fields)

/-- The keys with other fields under one of them, or without it. -/
def withFields (ks : KeySpace) (key : Bytes) : Option Fields → KeySpace
  | none => SortedTable.erase ks key
  | some f => ks.putContainer key ⟨key, f⟩

theorem fieldsAt_eq (ks : KeySpace) (key : Bytes) : ks.fieldsAt key = (ks.fields? key).getD ∅ := by
  unfold fieldsAt fields?
  cases ks.get? key with
  | none => rfl
  | some v => cases v <;> rfl

theorem fields?_withFields_self (ks : KeySpace) (key : Bytes) (o : Option Fields) :
    (ks.withFields key o).fields? key = o := by
  cases o with
  | none => rw [fields?, withFields, SortedTable.get?_erase_self]; rfl
  | some f => rw [fields?, withFields, putContainer, SortedTable.get?_put_self]; rfl

theorem fields?_withFields_of_ne (h : other ≠ key) (o : Option Fields) :
    (ks.withFields key o).fields? other = ks.fields? other := by
  cases o with
  | none => rw [fields?, withFields, SortedTable.get?_erase_of_ne h, fields?]
  | some f => rw [fields?, withFields, putContainer, SortedTable.get?_put_of_ne h, fields?]

namespace Plain

theorem empty : Plain ∅ := ⟨.empty, fun _ => open_of_absent rfl⟩

theorem get?_eq (h : ks.Plain) (key : Bytes) :
    ks.get? key = (ks.fields? key).map fun f => .container ⟨key, f⟩ := by
  unfold fields?
  cases h.tidy.slot key with
  | foreign _ _ hs => exact absurd (h.isOpen key) (not_open_of_foreign hs)
  | absent hs => rw [hs]; rfl
  | present f _ hs => rw [hs]; rfl

theorem consistent (h : ks.Plain) (hf : ks.fields? key = some f) : f.Consistent := by
  have hc := h.tidy.consistent key
  rwa [fieldsAt_eq, hf] at hc

/-- Plain keys are determined by the fields that they hold. -/
theorem ext_fields? (h : ks.Plain) (h' : ks'.Plain)
    (he : ∀ key, ks.fields? key = ks'.fields? key) : ks = ks' :=
  SortedTable.ext_get? fun key => by rw [h.get?_eq, h'.get?_eq, he]

theorem withFields (h : ks.Plain) (key : Bytes) (ho : ∀ f, o = some f → f.Consistent) :
    (ks.withFields key o).Plain := by
  have hopen (other : Bytes) (hne : other ≠ key)
      (hget : (ks.withFields key o).get? other = ks.get? other) :
      (ks.withFields key o).Open other := (open_congr hget).mpr (h.isOpen other)
  cases o with
  | none =>
    refine ⟨h.tidy.erase key, fun other => ?_⟩
    by_cases hk : other = key
    · exact hk ▸ open_of_absent (SortedTable.get?_erase_self ..)
    · exact hopen other hk (SortedTable.get?_erase_of_ne hk)
  | some f =>
    refine ⟨h.tidy.put ⟨rfl, ho f rfl⟩, fun other => ?_⟩
    by_cases hk : other = key
    · exact hk ▸ open_of_present (SortedTable.get?_put_self ..)
    · exact hopen other hk (SortedTable.get?_put_of_ne hk)

/-- Putting back what is there changes nothing. -/
theorem withFields_fields? (h : ks.Plain) (key : Bytes) :
    ks.withFields key (ks.fields? key) = ks := by
  refine ext_fields? (h.withFields key fun f hf => h.consistent hf) h fun other => ?_
  by_cases hk : other = key
  · rw [hk, fields?_withFields_self]
  · rw [fields?_withFields_of_ne hk]

end Plain

end KeySpace

namespace Command

/-- What a command makes of the fields under its key. -/
def onFields (o : Option Fields) : Command → Option Fields
  | .set _ field value version expiry =>
    some ((o.getD ∅).put field { value, version, expireAt := expiry }).2
  | .delete _ field => o.map fun f => (f.remove field).2
  | .expireAt _ field expiry version =>
    o.map fun f => (f.update field fun r => { r with version, expireAt := expiry }).2
  | .persist _ field => o.map fun f => (f.update field fun r => { r with expireAt := 0 }).2
  | .setVersion _ field version => o.map fun f => (f.update field fun r => { r with version }).2
  | .deleteKey _ => none

/-- What a command makes of keys. -/
def onKeys (c : Command) (ks : KeySpace) : KeySpace :=
  ks.withFields c.key (c.onFields (ks.fields? c.key))

variable {o : Option Fields} {c : Command} {ks : KeySpace}

theorem consistent_onFields (ho : ∀ f, o = some f → f.Consistent) :
    ∀ g, c.onFields o = some g → g.Consistent := by
  have hmap {change : Fields → Fields} (h : ∀ f, f.Consistent → (change f).Consistent) :
      ∀ g, o.map change = some g → g.Consistent := by
    intro g hg
    obtain ⟨f, hf, rfl⟩ := Option.map_eq_some_iff.mp hg
    exact h f (ho f hf)
  cases c with
  | set key field value version expiry =>
    intro g hg
    cases hg
    cases o with
    | none => exact Fields.Consistent.empty.put ..
    | some f => exact (ho f rfl).put ..
  | delete key field => exact hmap fun f hf => hf.remove field
  | expireAt key field expiry version => exact hmap fun f hf => hf.update field _
  | persist key field => exact hmap fun f hf => hf.update field _
  | setVersion key field version => exact hmap fun f hf => hf.update field _
  | deleteKey key => exact nofun

theorem plain_onKeys (h : ks.Plain) (c : Command) : (c.onKeys ks).Plain :=
  h.withFields c.key (consistent_onFields fun _ hf => h.consistent hf)

variable {w : Work}

/-- What changes the fields of a container, if there is one, as a command does to plain keys. -/
theorem run_of_plain (h : w.database.keys.Plain) {key : Bytes} {x : DatabaseM Unit}
    {change : Fields → Fields}
    (habsent : w.database.keys.get? key = none → x.run w = .ok () (w.say c))
    (hpresent : ∀ f, w.database.keys.get? key = some (.container ⟨key, f⟩) →
      ∃ w', x.run w = .ok () w' ∧ w'.database.keys = w.database.keys.withFields key (some (change f))) :
    ∃ w', x.run w = .ok () w' ∧ w'.database.keys =
      w.database.keys.withFields key ((w.database.keys.fields? key).map change) := by
  have hget := h.get?_eq key
  have hsame := h.withFields_fields? key
  cases hf : w.database.keys.fields? key with
  | none =>
    rw [hf] at hget hsame
    exact ⟨_, habsent hget, hsame.symm⟩
  | some f =>
    rw [hf] at hget
    exact hpresent f hget

/-- A change of one record in place, of plain keys. -/
theorem run_updateRecord_of_plain (h : w.database.keys.Plain) (key field : Bytes)
    (change : Record → Record) (c : Command) :
    ∃ w', (do Scope.updateRecord key field change; emit c : DatabaseM Unit).run w = .ok () w' ∧
      w'.database.keys = w.database.keys.withFields key
        ((w.database.keys.fields? key).map fun f => (f.update field change).2) := by
  refine run_of_plain h (fun hs => run_updateRecord_absent hs change c) fun f hs => ?_
  cases hr : f.get? field with
  | none =>
    refine ⟨_, run_updateRecord_missing hs hr change c, ?_⟩
    rw [Fields.update_of_get?_none change hr]
    exact (SortedTable.put_of_get? hs).symm
  | some r =>
    refine ⟨_, run_updateRecord hs hr change c, ?_⟩
    rw [Fields.update_of_get? change hr]
    rfl

/-- A command is applied to plain keys without fail. -/
theorem run_apply_of_plain (h : w.database.keys.Plain) (c : Command) :
    ∃ w', (Scope.apply c).run w = .ok () w' ∧ w'.database.keys = c.onKeys w.database.keys := by
  cases c with
  | set key field value version expiry =>
    refine ⟨_, run_apply_set h.tidy (h.isOpen key) field value version expiry, ?_⟩
    rw [Work.fieldsAt, KeySpace.fieldsAt_eq]
    rfl
  | delete key field =>
    refine run_of_plain h (fun hs => run_apply_delete_absent hs field) fun f hs => ?_
    cases hr : f.get? field with
    | none =>
      refine ⟨_, run_apply_delete_missing hs hr, ?_⟩
      rw [Fields.remove_of_get?_none hr]
      exact (SortedTable.put_of_get? hs).symm
    | some r => exact ⟨_, run_apply_delete hs hr, rfl⟩
  | expireAt key field expiry version => exact run_updateRecord_of_plain h key field _ _
  | persist key field => exact run_updateRecord_of_plain h key field _ _
  | setVersion key field version => exact run_updateRecord_of_plain h key field _ _
  | deleteKey key => exact ⟨_, run_apply_deleteKey w key, Database.keys_deleteKey ..⟩

end Command
end ExpiringHash
