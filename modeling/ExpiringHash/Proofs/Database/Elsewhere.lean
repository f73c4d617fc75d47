import ExpiringHash.Proofs.Database.Endings
import ExpiringHash.Proofs.Database.Sparing

/-!
# What leaves a field alone

A field shows its live record, if it has one. It is left alone by all events that are not about it, and
by the reclaim of a record that has expired. So a write or a delete leaves alone the fields that it is
not about, whether it succeeds or not, and so does a command that is applied.
-/
namespace ExpiringHash

open DatabaseM

variable {α : Type} {now : UInt64} {key field k : Bytes} {s : Scope} {w : Work}

namespace Database

variable {d d' d'' : Database} {ev : Event} {evs : List Event}

/-- A field shows what it showed, and its key holds a value of another type if it did so before. -/
structure Leaves (now : UInt64) (key field : Bytes) (d d' : Database) : Prop where
  live : (d'.keys.fieldsAt key).live? field now = (d.keys.fieldsAt key).live? field now
  isOpen : d'.keys.Open key ↔ d.keys.Open key

namespace Leaves

theorem refl (d : Database) : d.Leaves now key field d := ⟨rfl, Iff.rfl⟩

theorem trans (h : d.Leaves now key field d') (h' : d'.Leaves now key field d'') :
    d.Leaves now key field d'' :=
  ⟨h'.live.trans h.live, h'.isOpen.trans h.isOpen⟩

theorem of_get? (h : d'.keys.get? key = d.keys.get? key) : d.Leaves now key field d' :=
  ⟨congrArg (·.live? field now) (KeySpace.fieldsAt_congr h), KeySpace.open_congr h⟩

end Leaves

theorem Happens.leaves (h : d.Happens now ev d')
    (hev : (∃ t, ev.isReclaim t = true) ∨ ¬(ev.key = key ∧ ev.field? = some field)) :
    d.Leaves now key field d' := by
  refine ⟨?_, h.open_iff key⟩
  rcases hev with ⟨t, ht⟩ | hne
  · rcases (h.spares ht).record key field with he | ⟨hnone, r, hr, hx⟩
    · exact Fields.live?_congr he
    · exact (Fields.live?_of_get?_none hnone).trans (Fields.live?_of_isExpired hr hx).symm
  · exact Fields.live?_congr (h.record?_of_ne
      ((not_and_or.mp hne).imp (fun h he => h he.symm) fun h he => h he.symm))

theorem Course.leaves (h : d.Course now evs d')
    (hevs : ∀ ev ∈ evs, (∃ t, ev.isReclaim t = true) ∨ ¬(ev.key = key ∧ ev.field? = some field)) :
    d.Leaves now key field d' := by
  induction h with
  | nil d => exact .refl d
  | cons hev _ ih =>
    exact (hev.leaves (hevs _ List.mem_cons_self)).trans
      (ih fun ev hm => hevs ev (List.mem_cons_of_mem _ hm))

end Database

/-! ## Reads, writes and deletes -/

/-- However an action ends, it leaves a field alone if nothing that it may do is about that field. -/
theorem Ends.leaves {may : Event → Bool} {reported : α → Nat}
    {res : EStateM.Result HashError Work α} (h : Ends s k may reported w res)
    (hmay : k = key → ∀ ev, may ev = true → ev.field? ≠ some field) :
    w.database.Leaves s.now key field (stateOf res).database := by
  cases h with
  | ok hlogs hevs =>
    refine hlogs.course.leaves fun ev hm => ?_
    obtain ⟨hkey, hev⟩ := hevs ev hm
    rcases Bool.or_eq_true_iff.mp hev with hreclaim | hdone
    · exact .inl ⟨_, hreclaim⟩
    · exact .inr fun ⟨hk, hf⟩ => hmay (hkey.symm.trans hk) ev hdone hf
  | refused hswept =>
    obtain ⟨evs, hlogs, hevs⟩ := hswept
    exact hlogs.course.leaves fun ev hm => .inl ⟨_, (hevs ev hm).2⟩
  | mistyped => exact .refl _

theorem leaves_write (s : Scope) {wr : FieldWrite α} (hv : wr.validate = .ok ())
    (hne : wr.key = key → field ∉ wr.fields) (ht : w.database.keys.Tidy) :
    w.database.Leaves s.now key field (stateOf ((wr.action s).run w)).database := by
  refine (ends_write_about s hv ht).leaves fun hk ev hmay hf => hne hk ?_
  rw [mayStore, hf] at hmay
  exact of_decide_eq_true (Bool.and_eq_true_iff.mp hmay).2

theorem leaves_delete (s : Scope) {d : FieldDelete α} (hv : d.validate = .ok ())
    (hne : d.key = key → field ∉ d.fields) (ht : w.database.keys.Tidy) :
    w.database.Leaves s.now key field (stateOf ((d.action s).run w)).database := by
  refine (ends_delete_about s hv ht).leaves fun hk ev hmay hf => ?_
  rw [mayDeleteAmong, hf] at hmay
  rcases Bool.or_eq_true_iff.mp hmay with hdeleted | hdropped
  · exact hne hk (of_decide_eq_true (Bool.and_eq_true_iff.mp hdeleted).2)
  · cases ev with
    | dropped => cases hf
    | _ => cases hdropped

theorem leaves_read (s : Scope) (r : FieldRead α) (ht : w.database.keys.Tidy) :
    w.database.Leaves s.now key field (stateOf ((r.action s).run w)).database :=
  (ends_read s r ht).leaves fun _ _ h => nomatch h

/-! ## Commands that are applied -/

/-- The fields of a key may change as long as the one field stays as it is. -/
theorem Work.leaves_rewrite {change : ExpiryShift × Fields} {c : Command}
    (ho : w.database.keys.Open k)
    (hget : k = key → change.2.get? field = (w.fieldsAt key).get? field) :
    w.database.Leaves now key field (w.rewrite k change c).database := by
  by_cases hk : k = key
  · subst hk
    constructor
    · rw [show (w.rewrite k change c).database = w.database.rewrite k change from rfl,
        Database.fieldsAt_rewrite_self]
      exact Fields.live?_congr (hget rfl)
    · exact iff_of_true (KeySpace.open_of_present (Database.get?_rewrite_self ..)) ho
  · exact .of_get? (Database.get?_rewrite_of_ne (Ne.symm hk))

section Apply

variable {f : Bytes}

theorem leaves_updateRecord (ht : w.database.keys.Tidy) (change : Record → Record) (c : Command)
    (hne : k = key → f ≠ field) :
    let x : DatabaseM Unit := do Scope.updateRecord k f change; emit c
    w.database.Leaves now key field (stateOf (x.run w)).database := by
  intro x
  cases ht.slot k with
  | foreign _ _ hs =>
    rw [run_updateRecord_foreign hs]
    exact .refl _
  | absent hs =>
    rw [run_updateRecord_absent hs]
    exact .refl _
  | present g _ hs =>
    cases hr : g.get? f with
    | none =>
      rw [run_updateRecord_missing hs hr]
      exact .refl _
    | some r =>
      rw [run_updateRecord hs hr]
      refine Work.leaves_rewrite (KeySpace.open_of_present hs) fun hk => ?_
      subst hk
      rw [Work.fieldsAt, KeySpace.fieldsAt_of_get? hs]
      exact Fields.get?_put_of_ne fun he => hne rfl he.symm

/-- A command about another field is applied without regard to this one. -/
theorem leaves_apply (ht : w.database.keys.Tidy) {c : Command}
    (hc : c.key = key → ∃ other, c.field? = some other ∧ other ≠ field) :
    w.database.Leaves now key field (stateOf ((Scope.apply c).run w)).database := by
  -- all commands but one name the field that they are about
  have hname {f : Bytes} (hf : c.field? = some f) (hk : c.key = key) : f ≠ field := by
    obtain ⟨other, hother, hne⟩ := hc hk
    cases hf.symm.trans hother
    exact hne
  cases c with
  | set k f value version expiry =>
    by_cases ho : w.database.keys.Open k
    · rw [run_apply_set ht ho]
      refine Work.leaves_rewrite ho fun hk => ?_
      subst hk
      exact Fields.get?_put_of_ne fun he => hname rfl rfl he.symm
    · obtain ⟨type, payload, hs⟩ := Scope.foreign_of_not_open ht ho
      rw [Scope.apply, EStateM.run_bind, Scope.perform, EStateM.run_bind, run_write_foreign hs]
      exact .refl _
  | delete k f =>
    cases ht.slot k with
    | foreign _ _ hs =>
      rw [Scope.apply, EStateM.run_bind, Scope.perform, EStateM.run_bind, run_revise_foreign hs]
      exact .refl _
    | absent hs =>
      rw [run_apply_delete_absent hs]
      exact .refl _
    | present g _ hs =>
      cases hr : g.get? f with
      | none =>
        rw [run_apply_delete_missing hs hr]
        exact .refl _
      | some r =>
        rw [run_apply_delete hs hr]
        refine Work.leaves_rewrite (KeySpace.open_of_present hs) fun hk => ?_
        subst hk
        rw [Work.fieldsAt, KeySpace.fieldsAt_of_get? hs]
        exact Fields.get?_remove_of_ne fun he => hname rfl rfl he.symm
  | expireAt => exact leaves_updateRecord ht _ _ (hname rfl)
  | persist => exact leaves_updateRecord ht _ _ (hname rfl)
  | setVersion => exact leaves_updateRecord ht _ _ (hname rfl)
  | deleteKey k =>
    have hk : key ≠ k := by
      rintro rfl
      obtain ⟨other, hother, -⟩ := hc rfl
      cases hother
    rw [run_apply_deleteKey]
    exact .of_get? (Database.get?_deleteKey_of_ne hk)

end Apply

end ExpiringHash
