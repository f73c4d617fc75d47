import ExpiringHash.Proofs.Database.Endings
import ExpiringHash.Proofs.Replication.Replay

/-!
# Chronicles of a key space

Commands are a chronicle of what became of the keys of a database if each tells of one change: a record
was stored, or one that was there was removed. A key goes exactly when the last record under it is
removed, and the very next command says so, whatever is stored under the key after that. So no container
is left without records at any point between two changes.
-/
namespace ExpiringHash

namespace Command

variable {c : Command} {current : Option Record} {field : Bytes} {r : Record}

/-- A command that leaves a record suits the one there was. -/
theorem suits_of_outcome (h : c.outcome current = some r) (hf : c.field? = some field) :
    c.Suits current c.key field fun _ => True := by
  cases c with
  | set key name value version expiry =>
    cases hf
    exact .set version expiry trivial
  | delete => cases h
  | deleteKey => cases h
  | expireAt key name expiry version =>
    cases hf
    obtain ⟨old, hold, -⟩ := Option.map_eq_some_iff.mp h
    exact .expireAt expiry version hold
  | persist key name =>
    cases hf
    obtain ⟨old, hold, -⟩ := Option.map_eq_some_iff.mp h
    exact .persist hold
  | setVersion key name version =>
    cases hf
    obtain ⟨old, hold, -⟩ := Option.map_eq_some_iff.mp h
    exact .setVersion version hold

theorem isDelete_of_outcome (h : c.outcome current = some r) : c.isDelete = false := by
  cases c with
  | delete => cases h
  | _ => rfl

theorem event_of_outcome (h : c.outcome current = some r) : c.event = .stored c := by
  cases c with
  | delete => cases h
  | _ => rfl

end Command

/-- A container holds a record, if the value is one. -/
def Value.Populated : Value → Prop
  | .container c => ∃ field r, c.fields.get? field = some r
  | .foreign .. => True

theorem Value.Populated.relabel {v : Value} (h : v.Populated) (key : Bytes) :
    (v.relabel key).Populated := by
  cases v with
  | container => exact h
  | foreign => trivial

namespace KeySpace

variable {ks : KeySpace} {key : Bytes} {v : Value}

/-- Whether every container of a key space holds a record. -/
def Populated (ks : KeySpace) : Prop := ∀ key v, ks.get? key = some v → v.Populated

theorem populated_iff : ks.Populated ↔ ∀ key, ks.holdsEmpty key = false := by
  simp only [Bool.eq_false_iff, ne_eq, holdsEmpty_iff, Fields.isEmpty_iff_get?]
  constructor
  · rintro h key ⟨c, hc, hnone⟩
    obtain ⟨field, r, hr⟩ := h key _ hc
    cases (hnone field).symm.trans hr
  · intro h key v hv
    cases v with
    | foreign => trivial
    | container c =>
      refine Classical.byContradiction fun hno => h key ⟨c, hv, fun field => ?_⟩
      exact Option.eq_none_iff_forall_ne_some.mpr fun r hr => hno ⟨field, r, hr⟩

theorem Populated.empty : (∅ : KeySpace).Populated := by
  intro key v hv
  cases (SortedTable.get?_empty key).symm.trans hv

theorem Populated.put (h : ks.Populated) (hv : v.Populated) : KeySpace.Populated (ks.put key v) :=
  SortedTable.forall_get?_put h hv

theorem Populated.erase (h : ks.Populated) (key : Bytes) : KeySpace.Populated (ks.erase key) :=
  SortedTable.forall_get?_erase h key

end KeySpace

/-- Commands that tell, one change after the other, how some keys became others. -/
inductive Chronicle : KeySpace → List Command → KeySpace → Prop
  | nil (ks : KeySpace) : Chronicle ks [] ks
  | stored {ks ks₁ ks' : KeySpace} {c : Command} {cs : List Command} {field : Bytes}
      (hfield : c.field? = some field) (hstore : c.isDelete = false) (htakes : c.Takes ks ks₁)
      (hrest : Chronicle ks₁ cs ks') : Chronicle ks (c :: cs) ks'
  | removed {ks ks₁ ks' : KeySpace} {key field other : Bytes} {r r' : Record} {cs : List Command}
      (hr : (ks.fieldsAt key).get? field = some r) (hne : other ≠ field)
      (hmore : (ks.fieldsAt key).get? other = some r')
      (htakes : (Command.delete key field).Takes ks ks₁) (hrest : Chronicle ks₁ cs ks') :
      Chronicle ks (.delete key field :: cs) ks'
  /-- The last record under a key was removed, and the key with it. -/
  | emptied {ks ks₁ ks₂ ks' : KeySpace} {key field : Bytes} {r : Record} {cs : List Command}
      (hr : (ks.fieldsAt key).get? field = some r)
      (hlast : ∀ other, other ≠ field → (ks.fieldsAt key).get? other = none)
      (htakes : (Command.delete key field).Takes ks ks₁) (hdrop : (Command.deleteKey key).Takes ks₁ ks₂)
      (hrest : Chronicle ks₂ cs ks') :
      Chronicle ks (.delete key field :: .deleteKey key :: cs) ks'

namespace Database

variable {d d' : Database} {key field other : Bytes} {r : Record} {now : UInt64} {ev : Event}
  {evs : List Event} {ks' : KeySpace} {cs : List Command}

theorem takes_withoutField (ht : d.keys.Tidy) (hr : d.record? key field = some r) :
    (Command.delete key field).Takes d.keys (d.withoutField key field).keys :=
  ⟨⟨d, []⟩, _, rfl, run_apply_delete_of_get? (w := ⟨d, []⟩) ht hr, rfl⟩

theorem takes_deleteKey (d : Database) (key : Bytes) :
    (Command.deleteKey key).Takes d.keys (d.deleteKey key).2.keys :=
  ⟨⟨d, []⟩, _, rfl, run_apply_deleteKey ⟨d, []⟩ key, rfl⟩

/-- What is stored is decided by the command and the live record of its field. -/
theorem Happens.stored_unique {c : Command} {d'' : Database} (h : Happens now d (.stored c) d')
    (h' : Happens now d (.stored c) d'') : d' = d'' := by
  cases h with
  | stored _ hf hr =>
    cases h' with
    | stored _ hf' hr' =>
      cases hf.symm.trans hf'
      cases hr.symm.trans hr'
      rfl

/-- A record that is stored is what applying its command stores. -/
theorem Happens.takes {c : Command} (h : Happens now d (.stored c) d') (ht : d.keys.Tidy) :
    c.Takes d.keys d'.keys := by
  have ⟨w, hrun, hlogs⟩ : ∃ w : Work, (Scope.apply c).run ⟨d, []⟩ = .ok () w ∧
      Work.Logs now ⟨d, []⟩ [.stored c] w := by
    cases h with
    | stored ho hf hr =>
      rw [← Command.event_of_outcome hr]
      exact logs_apply ht ho (Command.suits_of_outcome hr hf)
  exact ⟨⟨d, []⟩, w, rfl, hrun, congrArg keys (hlogs.happens.stored_unique h)⟩

/-- The records left under a key are those of its other fields. -/
theorem holdsEmpty_withoutField_iff :
    (d.withoutField key field).keys.holdsEmpty key = true ↔
      ∀ other, other ≠ field → (d.keys.fieldsAt key).get? other = none := by
  rw [withoutField, holdsEmpty_rewrite_self, Fields.isEmpty_iff_get?]
  constructor
  · intro h other hne
    rw [← Fields.get?_remove_of_ne hne]
    exact h other
  · intro h other
    by_cases hne : other = field
    · subst hne
      exact Fields.get?_remove_self _ _
    · exact (Fields.get?_remove_of_ne hne).trans (h other hne)

/-- A record that is removed while there are others is told of by one command. -/
theorem chronicle_removed (ht : d.keys.Tidy) (hr : d.record? key field = some r)
    (hmore : (d.withoutField key field).keys.holdsEmpty key = false)
    (hrest : Chronicle (d.withoutField key field).keys cs ks') :
    Chronicle d.keys (.delete key field :: cs) ks' := by
  have hother : ∃ other r', other ≠ field ∧ (d.keys.fieldsAt key).get? other = some r' := by
    refine Classical.byContradiction fun hno => ?_
    refine Bool.eq_false_iff.mp hmore (holdsEmpty_withoutField_iff.mpr fun other hne => ?_)
    exact Option.eq_none_iff_forall_ne_some.mpr fun r' hr' => hno ⟨other, r', hne, hr'⟩
  obtain ⟨other, r', hne, hr'⟩ := hother
  exact .removed hr hne hr' (takes_withoutField ht hr) hrest

/-- When the last one is removed, a second command tells of the key. -/
theorem chronicle_emptied (ht : d.keys.Tidy) (hr : d.record? key field = some r)
    (hlast : (d.withoutField key field).keys.holdsEmpty key = true)
    (hrest : Chronicle ((d.withoutField key field).deleteKey key).2.keys cs ks') :
    Chronicle d.keys (.delete key field :: .deleteKey key :: cs) ks' :=
  .emptied hr (holdsEmpty_withoutField_iff.mp hlast) (takes_withoutField ht hr)
    (takes_deleteKey _ key) hrest

/-- An event that leaves no container without fields and is no drop is told of as it happens. -/
theorem Happens.chronicle (h : Happens now d ev d') (ht : d.keys.Tidy) (hdrop : ev.isDrop = false)
    (hempty : d'.keys.holdsEmpty ev.key = false) (hrest : Chronicle d'.keys cs ks') :
    Chronicle d.keys (ev.commands ++ cs) ks' := by
  cases h with
  | reclaimed t hr _ hmore => exact chronicle_removed ht hr hmore hrest
  | @emptied key field r t hr _ hlast =>
    refine chronicle_emptied ht hr hlast ?_
    rwa [keys_deleteKey] at hrest ⊢
  | deleted hr => exact chronicle_removed ht hr hempty hrest
  | dropped => cases hdrop
  | @stored c field r ho hf hr =>
    exact .stored hf (Command.isDelete_of_outcome hr) (takes (.stored ho hf hr) ht) hrest

namespace Course

theorem populated (h : Course now d evs d') (hevs : ∀ ev ∈ evs, ev.isDeletion = false)
    (hd : d.keys.Populated) : d'.keys.Populated := by
  rw [KeySpace.populated_iff] at hd ⊢
  exact fun key => (h.settled hevs).1 key (hd key)

/-- Where nothing is deleted on request, the commands of the events are a chronicle. -/
theorem chronicle (h : Course now d evs d') (ht : d.keys.Tidy)
    (hevs : ∀ ev ∈ evs, ev.isDeletion = false ∧ ev.isDrop = false) :
    Chronicle d.keys (evs.flatMap Event.commands) d'.keys := by
  induction h with
  | nil => exact .nil _
  | cons hev hrest ih =>
    obtain ⟨⟨hdeletion, hdrop⟩, hevs⟩ := List.forall_mem_cons.mp hevs
    exact hev.chronicle ht hdrop (hev.settled hdeletion) (ih (hev.tidy ht) hevs)

theorem get?_of_ne (h : Course now d evs d') (hevs : ∀ ev ∈ evs, ev.key = key) (hne : other ≠ key) :
    d'.keys.get? other = d.keys.get? other := by
  induction h with
  | nil => rfl
  | cons hev hrest ih =>
    obtain ⟨hkey, hevs⟩ := List.forall_mem_cons.mp hevs
    exact (ih hevs).trans (hev.get?_of_ne (hkey ▸ hne))

end Course

/-- Nothing but a drop happens to a container without fields, if nothing is stored. -/
theorem Happens.eq_dropped (h : Happens now d ev d') (hempty : d.keys.holdsEmpty ev.key = true)
    (hstore : ev.isStore = false) : ev = .dropped ev.key ∧ d' = (d.deleteKey ev.key).2 := by
  have hnone (field : Bytes) : d.record? ev.key field = none := by
    obtain ⟨c, hc, he⟩ := holdsEmpty_iff.mp hempty
    rw [record?, KeySpace.fieldsAt_of_get? hc]
    exact Fields.isEmpty_iff_get?.mp he field
  cases h with
  | reclaimed t hr => cases (hnone _).symm.trans hr
  | emptied t hr => cases (hnone _).symm.trans hr
  | deleted hr => cases (hnone _).symm.trans hr
  | dropped => exact ⟨rfl, rfl⟩
  | stored => cases hstore

/-- A container that a deletion leaves without fields is dropped next, if it is not to stay so. -/
theorem Course.chronicle_of_deletes (h : Course now d evs d') (ht : d.keys.Tidy)
    (hevs : ∀ ev ∈ evs, ev.key = key ∧ ev.isStore = false) (hend : d'.keys.holdsEmpty key = false) :
    (d.keys.holdsEmpty key = false → Chronicle d.keys (evs.flatMap Event.commands) d'.keys) ∧
      (d.keys.holdsEmpty key = true → ∃ cs, evs.flatMap Event.commands = .deleteKey key :: cs ∧
        Chronicle (d.deleteKey key).2.keys cs d'.keys) := by
  induction h with
  | nil d => exact ⟨fun _ => .nil _, fun hempty => absurd (hempty.symm.trans hend) nofun⟩
  | @cons d d₁ d' ev evs hev hrest ih =>
    obtain ⟨⟨rfl, hstore⟩, hevs⟩ := List.forall_mem_cons.mp hevs
    obtain ⟨hkept, hemptied⟩ := ih (hev.tidy ht) hevs hend
    refine ⟨fun hstart => ?_, fun hempty => ?_⟩
    · cases hmid : d₁.keys.holdsEmpty ev.key with
      | false =>
        refine hev.chronicle ht ?_ hmid (hkept hmid)
        cases hev with
        | dropped he => cases hstart.symm.trans he
        | _ => rfl
      | true =>
        obtain ⟨cs, hcs, hchronicle⟩ := hemptied hmid
        rw [List.flatMap_cons, hcs]
        have hdeletion : ev.isDeletion = true := by
          refine eq_true_of_ne_false fun hno => ?_
          cases (hev.settled hno).symm.trans hmid
        cases hev with
        | deleted hr => exact chronicle_emptied ht hr hmid hchronicle
        | _ => cases hdeletion
    · obtain ⟨hdropped, rfl⟩ := hev.eq_dropped hempty hstore
      refine ⟨evs.flatMap Event.commands, ?_, hkept (holdsEmpty_of_absent (get?_deleteKey d _))⟩
      rw [hdropped]
      rfl

end Database

/-- An action has sent a chronicle of what it did, and no container is left without records. -/
structure Work.Recounts (w w' : Work) : Prop where
  told : ∃ cs, w'.emitted = cs.reverse ++ w.emitted ∧ Chronicle w.database.keys cs w'.database.keys
  populated : w'.database.keys.Populated

namespace Work

variable {w w' : Work} {key : Bytes} {now : UInt64} {evs : List Event}

theorem Logs.recounts (h : w.Logs now evs w') (ht : w.database.keys.Tidy)
    (hp : w.database.keys.Populated) (hevs : ∀ ev ∈ evs, ev.isDeletion = false ∧ ev.isDrop = false) :
    w.Recounts w' where
  told := ⟨_, h.emitted, h.course.chronicle ht hevs⟩
  populated := h.course.populated (fun ev hm => (hevs ev hm).1) hp

theorem Logs.recounts_of_deletes (h : w.Logs now evs w') (ht : w.database.keys.Tidy)
    (hp : w.database.keys.Populated) (hevs : ∀ ev ∈ evs, ev.key = key ∧ ev.isStore = false)
    (hend : w'.database.keys.holdsEmpty key = false) : w.Recounts w' where
  told :=
    have hstart := KeySpace.populated_iff.mp hp key
    ⟨_, h.emitted, (h.course.chronicle_of_deletes ht hevs hend).1 hstart⟩
  populated := by
    rw [KeySpace.populated_iff] at hp ⊢
    intro other
    by_cases ho : other = key
    · exact ho ▸ hend
    · rw [Database.holdsEmpty_congr (h.course.get?_of_ne (fun ev hm => (hevs ev hm).1) ho)]
      exact hp other

end Work

/-- However an action on a key of a primary ends, it recounts what it did, if it deletes nothing or
stores nothing. -/
theorem Ends.recounts {α : Type} {s : Scope} {key : Bytes} {may : Event → Bool} {reported : α → Nat}
    {w : Work} {res : EStateM.Result HashError Work α} (h : Ends s key may reported w res)
    (hprimary : s.isPrimary = true) (ht : w.database.keys.Tidy) (hp : w.database.keys.Populated)
    (hmay : (∀ ev, may ev = true → ev.isDeletion = false ∧ ev.isDrop = false) ∨
      ∀ ev, may ev = true → ev.isStore = false) : w.Recounts (stateOf res) := by
  have hreclaim {ev : Event} (h : ev.isReclaim .passive = true) :
      ev.isDeletion = false ∧ ev.isDrop = false :=
    ⟨Event.isDeletion_of_isReclaim h, Event.isDrop_of_isReclaim h⟩
  cases h with
  | @ok a w' evs hlogs hevs hn hsettled =>
    rcases hmay with hmay | hmay
    · refine hlogs.recounts ht hp fun ev hm => ?_
      rcases Bool.or_eq_true_iff.mp (hevs ev hm).2 with h | h
      · exact hreclaim h
      · exact hmay ev h
    · have hstore : ∀ ev ∈ evs, ev.key = key ∧ ev.isStore = false := by
        intro ev hm
        obtain ⟨hkey, h⟩ := hevs ev hm
        exact ⟨hkey, (Bool.or_eq_true_iff.mp h).elim Event.isStore_of_isReclaim (hmay ev)⟩
      by_cases hne : evs = []
      · subst hne
        exact hlogs.recounts ht hp nofun
      · exact hlogs.recounts_of_deletes ht hp hstore (hsettled hprimary hne)
  | refused hswept =>
    obtain ⟨evs, hlogs, hevs⟩ := hswept
    exact hlogs.recounts ht hp fun ev hm => hreclaim (hevs ev hm).2
  | mistyped => exact (Work.Logs.nil s.now w).recounts ht hp nofun

end ExpiringHash
