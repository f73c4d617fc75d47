import ExpiringHash.Database.Expiry
import ExpiringHash.Proofs.Database.Runs

/-!
# Runs of reclaims

What the deletion of an expired field and of a container without fields does to tidy keys: both are
what applying a delete command does, and an expired field is counted besides.
-/
namespace ExpiringHash

open DatabaseM

namespace Work

/-- The work with the record of a field deleted and a command sent that says so. -/
def withoutField (w : Work) (key field : Bytes) : Work :=
  w.rewrite key
    ((w.fieldsAt key).shiftTo ((w.fieldsAt key).remove field).2 field ((w.fieldsAt key).expiryOf field)
      0, ((w.fieldsAt key).remove field).2)
    (.delete key field)

end Work

section Runs

variable {w : Work} {key field : Bytes} {f : Fields} {r : Record}

theorem run_apply_delete_of_get? (ht : w.database.keys.Tidy)
    (hr : (w.fieldsAt key).get? field = some r) :
    (Scope.apply (.delete key field)).run w = .ok () (w.withoutField key field) := by
  cases ht.slot key with
  | foreign _ _ hs =>
    rw [Work.fieldsAt, KeySpace.fieldsAt_of_foreign hs] at hr
    cases hr
  | absent hs =>
    rw [Work.fieldsAt, KeySpace.fieldsAt_of_get?_none hs] at hr
    cases hr
  | present f _ hs =>
    have hf : w.fieldsAt key = f := KeySpace.fieldsAt_of_get? hs
    rw [hf] at hr
    rw [run_apply_delete hs hr, Work.withoutField, hf, Fields.expiryOf_of_get? hr]

theorem holdsEmpty_iff {ks : KeySpace} :
    ks.holdsEmpty key = true ↔ ∃ c, ks.get? key = some (.container c) ∧ c.fields.isEmpty = true := by
  unfold KeySpace.holdsEmpty
  cases hv : ks.get? key with
  | none => simp
  | some v => cases v <;> simp [Value.container?]

/-- A container without fields has no index entries, so only its key goes. -/
theorem deleteKey_of_holdsEmpty {d : Database} (ht : d.keys.Tidy)
    (h : d.keys.holdsEmpty key = true) :
    (d.deleteKey key).2 = { d with keys := d.keys.erase key } := by
  obtain ⟨c, hc, he⟩ := holdsEmpty_iff.mp h
  have hexp : c.fields.expiring = ∅ := (ht key _ hc).2.expiring_eq_empty he
  simp only [Database.deleteKey, hc, ExpiryIndex.detachValue, hexp]
  cases d.index <;> rfl

theorem run_dropEmpty (s : Scope) (ht : w.database.keys.Tidy) (key : Bytes) :
    (s.dropEmpty key).run w =
      .ok () (if s.isPrimary && w.database.keys.holdsEmpty key then w.withoutKey key else w) := by
  change EStateM.run (if (s.isPrimary && (w.database.keys.dropEmpty key).1) = true then _ else _) w
    = _
  cases hh : w.database.keys.holdsEmpty key with
  | false =>
    have hd : w.database.keys.dropEmpty key = (false, w.database.keys) := by
      simp [KeySpace.dropEmpty, hh]
    rw [hd]
    cases s.isPrimary <;> rfl
  | true =>
    have hd : w.database.keys.dropEmpty key = (true, SortedTable.erase w.database.keys key) := by
      simp [KeySpace.dropEmpty, hh]
    rw [hd]
    cases s.isPrimary with
    | false => rfl
    | true =>
      simp only [Work.withoutKey, deleteKey_of_holdsEmpty ht hh]
      rfl

/-- A field that is there is reclaimed, and so is a container that is left without fields. -/
theorem run_reclaim (s : Scope) (ht : w.database.keys.Tidy)
    (hr : (w.fieldsAt key).get? field = some r) (t : Trigger) :
    (s.reclaim key field t).run w = (s.dropEmpty key).run ((w.withoutField key field).counted t) := by
  cases ht.slot key with
  | foreign _ _ hs =>
    rw [Work.fieldsAt, KeySpace.fieldsAt_of_foreign hs] at hr
    cases hr
  | absent hs =>
    rw [Work.fieldsAt, KeySpace.fieldsAt_of_get?_none hs] at hr
    cases hr
  | present f _ hs =>
    have hf : w.fieldsAt key = f := KeySpace.fieldsAt_of_get? hs
    rw [hf] at hr
    have hrem : f.remove field = (some (r, f.shiftTo (f.remove field).2 field r.expireAt 0),
        (f.remove field).2) := by
      simp only [Fields.remove, hr]
    rw [Work.withoutField, hf, Fields.expiryOf_of_get? hr, Scope.reclaim, EStateM.run_bind,
      run_database]
    dsimp only
    rw [hs, Option.bind_some, Value.container?]
    dsimp only
    rw [hrem]
    rfl

/-- A field that is not there cannot be reclaimed, and nothing changes. -/
theorem run_reclaim_missing (s : Scope) (ht : w.database.keys.Tidy)
    (hr : (w.fieldsAt key).get? field = none) (t : Trigger) :
    ∃ b, (s.reclaim key field t).run w = .error (.broken b) w := by
  rw [Scope.reclaim, EStateM.run_bind, run_database]
  dsimp only
  cases ht.slot key with
  | foreign _ _ hs =>
    refine ⟨.noContainer s.db key, ?_⟩
    rw [hs]
    rfl
  | absent hs =>
    refine ⟨.noContainer s.db key, ?_⟩
    rw [hs]
    rfl
  | present f _ hs =>
    have hf : w.fieldsAt key = f := KeySpace.fieldsAt_of_get? hs
    rw [hf] at hr
    refine ⟨.noField s.db key, ?_⟩
    rw [hs, Option.bind_some, Value.container?]
    dsimp only
    rw [Fields.remove_of_get?_none hr]
    rfl

end Runs

end ExpiringHash
