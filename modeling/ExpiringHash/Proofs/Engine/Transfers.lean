import ExpiringHash.Proofs.Engine.Strays

/-!
# Values are transferred whole

A rename, a move or a copy finds its value, discards what was under the target and files the value
there, with its records as they were and its entries in the index of the target. It takes the source
away or leaves it as it was, and touches nothing else. A relocation that has been announced and not
completed makes no difference.
-/
namespace ExpiringHash

/-- A value that goes from one place to another. -/
structure Transfer where
  fromDb : Nat
  source : Bytes
  toDb : Nat
  target : Bytes
  /-- Whether the source keeps its value. -/
  keeps : Bool

variable {α : Type}

namespace KeyRequest

/-- A request that takes a value elsewhere. -/
def IsTransfer : KeyRequest α → Prop
  | .rename .. | .move .. | .copy .. => True
  | _ => False

/-- The transfer that an answer says has taken place. -/
def transfer? : ∀ {α : Type}, KeyRequest α → α → Option Transfer
  | _, .rename db source target, _ =>
    if source = target then none else some ⟨db, source, db, target, false⟩
  | _, .move a key b, true => some ⟨a, key, b, key, false⟩
  | _, .copy a source b target _, true => some ⟨a, source, b, target, true⟩
  | _, _, _ => none

end KeyRequest

namespace Engine

variable {e e' : Engine} {l : Layout} {t : Transfer} {db : Nat} {d : Database} {key : Bytes}
  {v : Value}

/-- The value of a key of a database. -/
def valueAt (e : Engine) (db : Nat) (key : Bytes) : Option Value := (e.keysAt db).get? key

/-- The entries of the index of a database. -/
def entriesAt (e : Engine) (db : Nat) : List IndexEntry :=
  ((e.databases[db]?).map (·.index.entries)).getD []

/-- Whether a request finds what it needs to transfer a value. -/
def Allows (e : Engine) : KeyRequest α → Prop
  | .rename db source target => source ≠ target ∧ (e.valueAt db source).isSome
  | .move a key b =>
    a ≠ b ∧ b < e.databases.length ∧ (e.valueAt a key).isSome ∧ e.valueAt b key = none
  | .copy a source b target replace =>
    (a, source) ≠ (b, target) ∧ b < e.databases.length ∧ (e.valueAt a source).isSome ∧
      (replace = true ∨ e.valueAt b target = none)
  | _ => False

/-- A request succeeds and its answer says that it has transferred a value. -/
def Succeeds (e : Engine) (k : KeyRequest α) : Prop :=
  ∃ a e', k.perform.run e = .ok a e' ∧ (k.transfer? a).isSome

/-- The value of the source is that of the target, the source has kept its own or has none, and all
other keys have theirs. -/
structure Carried (e e' : Engine) (t : Transfer) : Prop where
  target : ∃ v, e.valueAt t.fromDb t.source = some v ∧
    e'.valueAt t.toDb t.target = some (v.relabel t.target)
  source : e'.valueAt t.fromDb t.source = if t.keeps then e.valueAt t.fromDb t.source else none
  others : ∀ db key, (db, key) ≠ (t.fromDb, t.source) → (db, key) ≠ (t.toDb, t.target) →
    e'.valueAt db key = e.valueAt db key

/-- A value has been transferred whole, with its entries in the indexes, and nothing else has
changed. -/
structure Transferred (e e' : Engine) (t : Transfer) : Prop extends Carried e e' t where
  targetEntries : ∀ due field, ⟨due, t.target, field⟩ ∈ e'.entriesAt t.toDb ↔
    ⟨due, t.source, field⟩ ∈ e.entriesAt t.fromDb
  sourceEntries : ∀ due field, ⟨due, t.source, field⟩ ∈ e'.entriesAt t.fromDb ↔
    t.keeps = true ∧ ⟨due, t.source, field⟩ ∈ e.entriesAt t.fromDb
  otherEntries : ∀ db x, (db, x.key) ≠ (t.fromDb, t.source) → (db, x.key) ≠ (t.toDb, t.target) →
    (x ∈ e'.entriesAt db ↔ x ∈ e.entriesAt db)
  tallies : e'.databases.map (·.tally) = e.databases.map (·.tally)
  /-- No command was sent, and the clock, the role and the cycle are as they were. -/
  rest : e' = { e with databases := e'.databases, pending := e'.pending }

/-- A request has transferred a value whole if its answer says so, and otherwise changed nothing. -/
def Concludes (e : Engine) (k : KeyRequest α) : EStateM.Result HashError Engine α → Prop
  | .ok a e' => match k.transfer? a with
    | some t => e.Transferred e' t
    | none => e' = e
  | .error _ e' => e' = e

end Engine

/-- A container that knows its key is labelled with it already. -/
theorem Value.Tidy.relabel_self {v : Value} {key : Bytes} (h : v.Tidy key) : v.relabel key = v := by
  cases v with
  | foreign => rfl
  | container c =>
    obtain ⟨rfl, -⟩ := h
    rfl

namespace KeySpace

variable {ks ks' : KeySpace} {l : Layout} {source target : Bytes} {v : Value} {due : UInt64}
  {field : Option Bytes} {x : IndexEntry}

/-- A value calls for like entries wherever it is. -/
theorem owes_relabel (hv : ks.get? source = some v) (hv' : ks'.get? target = some (v.relabel target)) :
    ks'.Owes l ⟨due, target, field⟩ ↔ ks.Owes l ⟨due, source, field⟩ := by
  cases v with
  | foreign => simp [Owes, hv, hv', Value.relabel]
  | container c => simp [Owes, hv, hv', Value.relabel]

theorem owes_congr (h : ks'.get? x.key = ks.get? x.key) : ks'.Owes l x ↔ ks.Owes l x := by
  simp only [Owes, h]

theorem not_owes_of_absent (h : ks.get? x.key = none) : ¬ks.Owes l x := by
  simp [Owes, h]

end KeySpace

namespace Engine

variable {e e' : Engine} {l : Layout} {t : Transfer} {db : Nat} {d : Database} {key : Bytes}
  {v : Value}

theorem mem_entriesAt_iff (h : ∀ d ∈ e.databases, d.InStep l) (db : Nat) (x : IndexEntry) :
    x ∈ e.entriesAt db ↔ (e.keysAt db).Owes l x := by
  cases hd : e.databases[db]? with
  | none =>
    rw [entriesAt, keysAt, hd]
    exact iff_of_false List.not_mem_nil (KeySpace.not_owes_of_absent rfl)
  | some d =>
    rw [entriesAt, hd]
    exact mem_entries_iff_owes_keysAt h hd x

/-- Where the indexes are in step, they follow the values. -/
theorem Carried.transferred (h : e.Carried e' t) (hstep : ∀ d ∈ e.databases, d.InStep l)
    (hstep' : ∀ d ∈ e'.databases, d.InStep l)
    (htallies : e'.databases.map (·.tally) = e.databases.map (·.tally))
    (hrest : e' = { e with databases := e'.databases, pending := e'.pending }) :
    e.Transferred e' t where
  toCarried := h
  targetEntries due field := by
    obtain ⟨v, hv, hv'⟩ := h.target
    rw [mem_entriesAt_iff hstep', mem_entriesAt_iff hstep]
    exact KeySpace.owes_relabel hv hv'
  sourceEntries due field := by
    have hsource := h.source
    rw [mem_entriesAt_iff hstep', mem_entriesAt_iff hstep]
    cases hk : t.keeps with
    | true =>
      rw [hk, if_pos rfl] at hsource
      have howes := KeySpace.owes_congr (l := l) (x := ⟨due, t.source, field⟩) hsource
      exact howes.trans (iff_and_self.mpr fun _ => rfl)
    | false =>
      rw [hk, if_neg Bool.false_ne_true] at hsource
      exact iff_of_false (KeySpace.not_owes_of_absent hsource) nofun
  otherEntries db x hs ht := by
    rw [mem_entriesAt_iff hstep', mem_entriesAt_iff hstep]
    exact KeySpace.owes_congr (h.others db x.key hs ht)
  tallies := htallies
  rest := hrest

theorem valueAt_of_getElem? (hd : e.databases[db]? = some d) (key : Bytes) :
    e.valueAt db key = d.keys.get? key := by
  rw [valueAt, keysAt_of_getElem? hd]

theorem isSome_valueAt_iff :
    (e.valueAt db key).isSome = true ↔ ∃ d v, e.databases[db]? = some d ∧ d.keys.get? key = some v := by
  cases hd : e.databases[db]? with
  | none => simp [valueAt, keysAt, hd]
  | some d => simp [valueAt_of_getElem? hd, Option.isSome_iff_exists]

theorem exists_of_valueAt (h : e.valueAt db key = some v) :
    ∃ d, e.databases[db]? = some d ∧ d.keys.get? key = some v := by
  cases hd : e.databases[db]? with
  | none =>
    rw [valueAt, keysAt, hd] at h
    cases h
  | some d => exact ⟨d, rfl, (valueAt_of_getElem? hd key).symm.trans h⟩

/-- The values once another database has taken the place of one. -/
theorem valueAt_set (hd : e.databases[db]? = some d) {d' : Database}
    (h : e'.databases = e.databases.set db d') (other : Nat) (key : Bytes) :
    e'.valueAt other key = if other = db then d'.keys.get? key else e.valueAt other key := by
  rw [valueAt, keysAt_set hd h, Function.update_apply]
  split <;> rfl

/-- The tallies stay if the databases that are put in place of others have theirs. -/
theorem map_tally_set {databases : List Database} (hd : databases[db]? = some d) {d' : Database}
    (ht : d'.tally = d.tally) : (databases.set db d').map (·.tally) = databases.map (·.tally) := by
  obtain ⟨hlt, rfl⟩ := List.getElem?_eq_some_iff.mp hd
  have hlt' : db < (databases.map (·.tally)).length := by rwa [List.length_map]
  have hself : databases[db].tally = (databases.map (·.tally))[db] := (List.getElem_map _).symm
  rw [List.map_set, ht, hself]
  exact List.set_getElem_self hlt'

/-- What becomes of the keys of a database in which a value is put in place of another. -/
theorem get?_replaced (d : Database) (source target : Bytes) (v : Value) (key : Bytes) :
    (((d.deleteKey target).2.deleteKey source).2.attach target v).keys.get? key =
      if key = target then some v else if key = source then none else d.keys.get? key := by
  change SortedTable.get? (((d.deleteKey target).2.deleteKey source).2.keys.put target v) key = _
  rw [Database.keys_deleteKey, Database.keys_deleteKey]
  by_cases ht : key = target
  · subst ht
    rw [if_pos rfl, SortedTable.get?_put_self]
  · rw [if_neg ht, SortedTable.get?_put_of_ne ht]
    by_cases hs : key = source
    · subst hs
      rw [if_pos rfl, SortedTable.get?_erase_self]
    · rw [if_neg hs, SortedTable.get?_erase_of_ne hs, SortedTable.get?_erase_of_ne ht]

theorem carried_rename {source target : Bytes} (hd : e.databases[db]? = some d)
    (hv : d.keys.get? source = some v) (hne : source ≠ target)
    (h : e'.databases = e.databases.set db
      (((d.deleteKey target).2.deleteKey source).2.attach target (v.relabel target))) :
    e.Carried e' ⟨db, source, db, target, false⟩ where
  target := by
    refine ⟨v, (valueAt_of_getElem? hd source).trans hv, ?_⟩
    rw [valueAt_set hd h, if_pos rfl, get?_replaced, if_pos rfl]
  source := by
    rw [valueAt_set hd h, if_pos rfl, get?_replaced, if_neg hne, if_pos rfl, if_neg Bool.false_ne_true]
  others other key hs ht := by
    rw [valueAt_set hd h]
    split
    · next ho =>
      subst ho
      have hkt : key ≠ target := fun hk => ht (congrArg (Prod.mk other) hk)
      have hks : key ≠ source := fun hk => hs (congrArg (Prod.mk other) hk)
      rw [get?_replaced, if_neg hkt, if_neg hks, valueAt_of_getElem? hd]
    · rfl

theorem carried_copy {a b : Nat} {d' : Database} {source target : Bytes}
    (ha : e.databases[a]? = some d) (hb : e.databases[b]? = some d') (hv : d.keys.get? source = some v)
    (hne : ¬(a = b ∧ source = target))
    (h : e'.databases = e.databases.set b ((d'.deleteKey target).2.attach target (v.relabel target))) :
    e.Carried e' ⟨a, source, b, target, true⟩ := by
  have hvalue (other : Nat) (key : Bytes) (hplace : (other, key) ≠ (b, target)) :
      e'.valueAt other key = e.valueAt other key := by
    rw [valueAt_set hb h]
    split
    · next ho =>
      subst ho
      have hk : key ≠ target := fun hk => hplace (congrArg (Prod.mk other) hk)
      change SortedTable.get? ((d'.deleteKey target).2.keys.put target _) key = _
      rw [SortedTable.get?_put_of_ne hk, Database.get?_deleteKey_of_ne hk, valueAt_of_getElem? hb]
    · rfl
  refine ⟨⟨v, (valueAt_of_getElem? ha source).trans hv, ?_⟩, ?_, fun other key _ => hvalue other key⟩
  · rw [valueAt_set hb h, if_pos rfl]
    exact SortedTable.get?_put_self _ _ _
  · refine hvalue a source fun hplace => hne ?_
    exact Prod.mk.inj hplace

theorem carried_move {a b : Nat} {d' : Database} (hab : a ≠ b) (ha : e.databases[a]? = some d)
    (hb : e.databases[b]? = some d') (hv : d.keys.get? key = some v) (htidy : v.Tidy key)
    (h : e'.databases = (e.databases.set a (d.deleteKey key).2).set b (d'.attach key v)) :
    e.Carried e' ⟨a, key, b, key, false⟩ := by
  -- the source is taken away first, from another database than that of the target
  let f : Engine := { e with databases := e.databases.set a (d.deleteKey key).2 }
  have hf : f.databases[b]? = some d' := (List.getElem?_set_ne hab).trans hb
  have hvalue (other : Nat) (k : Bytes) : e'.valueAt other k =
      if other = b then (d'.keys.put key v).get? k
      else if other = a then (d.deleteKey key).2.keys.get? k else e.valueAt other k := by
    rw [valueAt_set hf h, valueAt_set ha (show f.databases = _ from rfl)]
    rfl
  refine ⟨⟨v, (valueAt_of_getElem? ha key).trans hv, ?_⟩, ?_, fun other k hs ht => ?_⟩
  · rw [hvalue, if_pos rfl, htidy.relabel_self]
    exact SortedTable.get?_put_self _ _ _
  · rw [hvalue, if_neg hab, if_pos rfl]
    exact Database.get?_deleteKey d key
  · rw [hvalue]
    split
    · next ho =>
      subst ho
      have hk : k ≠ key := fun hk => ht (congrArg (Prod.mk other) hk)
      rw [SortedTable.get?_put_of_ne hk, valueAt_of_getElem? hb]
    · split
      · next ho =>
        subst ho
        have hk : k ≠ key := fun hk => hs (congrArg (Prod.mk other) hk)
        rw [Database.get?_deleteKey_of_ne hk, valueAt_of_getElem? ha]
      · rfl

/-- What a request transfers is carried, also in an engine that stray notices have got out of step. -/
theorem carried_of_run (htidy : ∀ d ∈ e.databases, d.keys.Tidy) {k : KeyRequest α}
    {answer : α} (hrun : k.perform.run e = .ok answer e') (ht : k.transfer? answer = some t) :
    e.Carried e' t := by
  cases k with
  | rename db source target =>
    change (if source = target then none else some _) = some t at ht
    rcases renameKey_cases db source target htidy with
      ⟨err, hcase, -⟩ | ⟨hsame, -⟩ | ⟨d, v, pending, hd, hv, hne, hcase⟩
    · cases hrun.symm.trans hcase
    · rw [if_pos hsame] at ht
      cases ht
    · rw [if_neg hne] at ht
      cases ht
      cases hrun.symm.trans hcase
      exact carried_rename hd hv hne rfl
  | move a key b =>
    rcases moveKey_cases a key b htidy with
      ⟨err, hcase, -⟩ | hcase | ⟨d, d', v, pending, hd, hd', hv, hfree, hcase⟩
    · cases hrun.symm.trans hcase
    · cases hrun.symm.trans hcase
      cases ht
    · have hab : a ≠ b := by
        rintro rfl
        cases hd.symm.trans hd'
        cases hv.symm.trans hfree
      cases hrun.symm.trans hcase
      cases ht
      exact carried_move hab hd hd' hv (htidy d (List.mem_of_getElem? hd) key v hv) rfl
  | copy a source b target replace =>
    rcases copyKey_cases a source b target replace e with
      ⟨err, hcase, -⟩ | hcase | ⟨d, v, d', hd, hv, hd', hne, -, hcase⟩
    · cases hrun.symm.trans hcase
    · cases hrun.symm.trans hcase
      cases ht
    · cases hrun.symm.trans hcase
      cases ht
      exact carried_copy hd hd' hv hne rfl
  | _ => cases ht

/-- What a request leaves of an engine in step is in step. -/
theorem inStep_key (hstep : ∀ d ∈ e.databases, d.InStep l) {k : KeyRequest α} {a : α}
    (hrun : k.perform.run e = .ok a e') : ∀ d ∈ e'.databases, d.InStep l := by
  have hkeeps := keeps_key (Database.InStep.lasting l) k e hstep
  rw [hrun] at hkeeps
  exact hkeeps.2.2

/-- A request that does nothing has found that it could not. -/
theorem concludes_unchanged {k : KeyRequest α} (hallows : e.Allows k → e.Succeeds k)
    (h : (∃ err, k.perform.run e = .error err e) ∨
      ∃ a, k.perform.run e = .ok a e ∧ k.transfer? a = none) :
    e.Concludes k (k.perform.run e) ∧ (e.Succeeds k ↔ e.Allows k) := by
  rcases h with ⟨err, hrun⟩ | ⟨a, hrun, hnone⟩
  · refine ⟨by rw [hrun]; rfl, fun ⟨a, e', hok, _⟩ => ?_, hallows⟩
    cases hrun.symm.trans hok
  · refine ⟨by rw [hrun, Concludes, hnone], fun ⟨a', e', hok, hsome⟩ => ?_, hallows⟩
    cases hrun.symm.trans hok
    rw [hnone] at hsome
    cases hsome

theorem concludes_transferred {k : KeyRequest α} {a : α} (hrun : k.perform.run e = .ok a e')
    (ht : k.transfer? a = some t) (h : e.Transferred e' t) (hallowed : e.Allows k) :
    e.Concludes k (k.perform.run e) ∧ (e.Succeeds k ↔ e.Allows k) := by
  refine ⟨by rw [hrun, Concludes, ht]; exact h, iff_of_true ⟨a, e', hrun, by rw [ht]; rfl⟩ hallowed⟩

theorem concludes_rename (hstep : ∀ d ∈ e.databases, d.InStep l) (db : Nat) (source target : Bytes) :
    let k := KeyRequest.rename db source target
    e.Concludes k (k.perform.run e) ∧ (e.Succeeds k ↔ e.Allows k) := by
  intro k
  have htidy : ∀ d ∈ e.databases, d.keys.Tidy := fun d hd => (hstep d hd).tidy
  have htransfer (hne : source ≠ target) : k.transfer? () = some ⟨db, source, db, target, false⟩ :=
    if_neg hne
  have hallows (h : e.Allows k) : e.Succeeds k := by
    obtain ⟨hne, hvalue⟩ := h
    obtain ⟨d, v, hd, hv⟩ := isSome_valueAt_iff.mp hvalue
    obtain ⟨pending, hrun⟩ := run_renameKey hd (htidy d (List.mem_of_getElem? hd)) hv hne
    exact ⟨(), _, hrun, by rw [htransfer hne]; rfl⟩
  rcases renameKey_cases db source target htidy with
    ⟨err, hrun, -⟩ | ⟨hsame, hrun⟩ | ⟨d, v, pending, hd, hv, hne, hrun⟩
  · exact concludes_unchanged hallows (.inl ⟨err, hrun⟩)
  · exact concludes_unchanged hallows (.inr ⟨(), hrun, if_pos hsame⟩)
  · refine concludes_transferred hrun (htransfer hne) ?_
      ⟨hne, isSome_valueAt_iff.mpr ⟨d, v, hd, hv⟩⟩
    refine (carried_rename hd hv hne rfl).transferred hstep (inStep_key (k := k) hstep hrun) ?_ rfl
    refine map_tally_set hd ?_
    exact (Database.tally_deleteKey _ source).trans (Database.tally_deleteKey d target)

theorem concludes_move (hstep : ∀ d ∈ e.databases, d.InStep l) (a : Nat) (key : Bytes) (b : Nat) :
    let k := KeyRequest.move a key b
    e.Concludes k (k.perform.run e) ∧ (e.Succeeds k ↔ e.Allows k) := by
  intro k
  have htidy : ∀ d ∈ e.databases, d.keys.Tidy := fun d hd => (hstep d hd).tidy
  have hallows (h : e.Allows k) : e.Succeeds k := by
    obtain ⟨hab, hlt, hvalue, hfree⟩ := h
    obtain ⟨d, v, hd, hv⟩ := isSome_valueAt_iff.mp hvalue
    have hd' := List.getElem?_eq_getElem hlt
    rw [valueAt_of_getElem? hd'] at hfree
    obtain ⟨pending, hrun⟩ := run_moveKey hab hd hd' (htidy d (List.mem_of_getElem? hd)) hv
      (by rw [SortedTable.hasKey_eq, hfree]; rfl)
    exact ⟨true, _, hrun, rfl⟩
  rcases moveKey_cases a key b htidy with
    ⟨err, hrun, -⟩ | hrun | ⟨d, d', v, pending, hd, hd', hv, hfree, hrun⟩
  · exact concludes_unchanged hallows (.inl ⟨err, hrun⟩)
  · exact concludes_unchanged hallows (.inr ⟨false, hrun, rfl⟩)
  · have hab : a ≠ b := by
      rintro rfl
      cases hd.symm.trans hd'
      cases hv.symm.trans hfree
    have hallowed : e.Allows k := ⟨hab, (List.getElem?_eq_some_iff.mp hd').1,
      isSome_valueAt_iff.mpr ⟨d, v, hd, hv⟩, (valueAt_of_getElem? hd' key).trans hfree⟩
    refine concludes_transferred hrun rfl ?_ hallowed
    refine (carried_move hab hd hd' hv (htidy d (List.mem_of_getElem? hd) key v hv) rfl).transferred
      hstep (inStep_key (k := k) hstep hrun) ?_ rfl
    have hmid : (e.databases.set a (d.deleteKey key).2)[b]? = some d' :=
      (List.getElem?_set_ne hab).trans hd'
    have hattached : (d'.attach key v).tally = d'.tally := rfl
    exact (map_tally_set hmid hattached).trans (map_tally_set hd (Database.tally_deleteKey d key))

theorem concludes_copy (hstep : ∀ d ∈ e.databases, d.InStep l) (a : Nat) (source : Bytes) (b : Nat)
    (target : Bytes) (replace : Bool) :
    let k := KeyRequest.copy a source b target replace
    e.Concludes k (k.perform.run e) ∧ (e.Succeeds k ↔ e.Allows k) := by
  intro k
  have hplaces : (a, source) ≠ (b, target) ↔ ¬(a = b ∧ source = target) := by
    rw [ne_eq, Prod.mk.injEq]
  have hallows (h : e.Allows k) : e.Succeeds k := by
    obtain ⟨hne, hlt, hvalue, hfree⟩ := h
    obtain ⟨d, v, hd, hv⟩ := isSome_valueAt_iff.mp hvalue
    have hd' := List.getElem?_eq_getElem hlt
    rw [valueAt_of_getElem? hd'] at hfree
    have hrun : k.perform.run e = _ := run_copyKey hd hd'
    rw [if_neg (hplaces.mp hne), hv] at hrun
    dsimp only at hrun
    rw [if_neg] at hrun
    · exact ⟨true, _, hrun, rfl⟩
    · rcases hfree with rfl | hfree
      · simp
      · simp [SortedTable.hasKey_eq, hfree]
  rcases copyKey_cases a source b target replace e with
    ⟨err, hrun, -⟩ | hrun | ⟨d, v, d', hd, hv, hd', hne, hfree, hrun⟩
  · exact concludes_unchanged hallows (.inl ⟨err, hrun⟩)
  · exact concludes_unchanged hallows (.inr ⟨false, hrun, rfl⟩)
  · have hallowed : e.Allows k := ⟨hplaces.mpr hne, (List.getElem?_eq_some_iff.mp hd').1,
      isSome_valueAt_iff.mpr ⟨d, v, hd, hv⟩, by rwa [valueAt_of_getElem? hd']⟩
    refine concludes_transferred hrun rfl ?_ hallowed
    refine (carried_copy hd hd' hv hne rfl).transferred hstep (inStep_key (k := k) hstep hrun) ?_ rfl
    exact map_tally_set hd' (Database.tally_deleteKey d' target)

/-- Unless a second notice has been given, a rename, a move or a copy whose answer says so transfers its
value whole and touches nothing else; it does so exactly if it finds what it needs. In all other cases
nothing changes. -/
theorem values_transferred_whole {config : Config} {now : UInt64}
    (h : (new config now).Reaches (fun _ r => ¬r.IsSecondNotice) e) {k : KeyRequest α}
    (hk : k.IsTransfer) :
    e.Concludes k (k.perform.run e) ∧ (e.Succeeds k ↔ e.Allows k) := by
  have hstep := inStep_of_reaches h
  cases k with
  | rename db source target => exact concludes_rename hstep db source target
  | move a key b => exact concludes_move hstep a key b
  | copy a source b target replace => exact concludes_copy hstep a source b target replace
  | _ => cases hk

/-- A container whose fields expire is renamed over another one, while the host's notice of another
rename waits. -/
theorem values_transferred_whole_over_target :
    let new := Engine.new {} 1000
    let written := (new.after (.write 2 (.set [1] [10] [52] { ttl := .set (.moment 5000) }))).after
      (.write 2 (.set [2] [11] [53] { ttl := .set (.moment 3000) }))
    let e := written.after (.notice (.renameFrom 2 [2]))
    let k := KeyRequest.rename 2 [1] [2]
    let f := e.after (.key k)
    e.pending = .rename 2 [2] ∧ e.entriesAt 2 = [⟨3000, [2], none⟩, ⟨5000, [1], none⟩] ∧
      e.Transferred f ⟨2, [1], 2, [2], false⟩ ∧ (e.Succeeds k ↔ e.Allows k) ∧
      f.entriesAt 2 = [⟨5000, [2], none⟩] := by
  intro new written e k f
  have h : new.Reaches (fun _ r => ¬r.IsSecondNotice) e :=
    .step _ (.step _ (.step _ .refl id) id) id
  obtain ⟨hconcludes, hwhen⟩ := values_transferred_whole h (k := k) trivial
  have hrun : k.perform.run e = .ok () f := rfl
  rw [hrun] at hconcludes
  exact ⟨by decide +kernel, by decide +kernel, hconcludes, hwhen, by decide +kernel⟩

end Engine

end ExpiringHash
