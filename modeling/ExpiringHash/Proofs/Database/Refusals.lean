import ExpiringHash.Engine.Request
import ExpiringHash.Proofs.Database.Events

/-!
# What a write is refused for

The options of a write are checked before anything else is done. A write whose options are
well-formed is refused for what it meets only: a stale version, a value that is no number, or a sum
that does not fit.
-/
namespace ExpiringHash

/-- Whether a request was refused for what it met rather than for what it is. -/
def HashError.isRefusal : HashError → Bool
  | .versionConflict | .overflow | .notFound | .notInteger | .notFloat | .noRoom => true
  | _ => false

theorem error_of_bind {ε α β : Type} {x : Except ε α} {k : α → Except ε β} {err : ε}
    (h : x >>= k = .error err) : x = .error err ∨ ∃ a, x = .ok a ∧ k a = .error err := by
  cases x with
  | error e => exact .inl (congrArg Except.error (Except.error.inj h))
  | ok a => exact .inr ⟨a, rfl, h⟩

theorem error_of_map {ε α β : Type} {x : Except ε α} {f : α → β} {err : ε}
    (h : x.map f = .error err) : x = .error err := by
  cases x with
  | error e => exact congrArg Except.error (Except.error.inj h)
  | ok a => cases h

variable {err : HashError} {now : UInt64} {current : Option Record} {version : VersionPolicy}

namespace VersionPolicy

theorem error_of_validate (h : discard version.validate = .error err) : err = .badOption := by
  unfold validate at h
  cases hm : version.isMalformed <;> rw [hm] at h <;> cases h
  rfl

theorem validate_of_wellFormed (hv : version.isMalformed = false) :
    version.validate = .ok version := by
  rw [validate, hv]
  rfl

/-- A well-formed policy is not what an error comes from. -/
theorem error_after_validate {α : Type} {k : VersionPolicy → Except HashError α}
    (hv : version.isMalformed = false) (h : version.validate >>= k = .error err) :
    k version = .error err := by
  rw [validate_of_wellFormed hv] at h
  exact h

theorem error_of_check {current : Option UInt64} (h : version.check current = .error err) :
    err = .versionConflict := by
  unfold check at h
  split at h
  · cases h
  · exact (Except.error.inj h).symm

/-- An error that a check and nothing after it can give. -/
theorem error_of_check_bind {α : Type} {current : Option UInt64} {a : α}
    (h : (version.check current >>= fun _ => pure a) = .error err) : err = .versionConflict := by
  rcases error_of_bind h with h | ⟨_, -, h⟩
  · exact error_of_check h
  · cases h

end VersionPolicy

theorem Bounds.error_of_validate {α : Type} [LT α] [DecidableLT α] {b : Bounds α}
    (h : b.validate = .error err) : err = .badOption := by
  unfold validate at h
  split at h
  · split at h
    · exact (Except.error.inj h).symm
    · cases h
  · cases h

namespace Fields

theorem error_of_setPlan {value : Bytes} {rule : WriteRule}
    (hv : rule.version.isMalformed = false)
    (h : setPlan value rule now current = .error err) : err = .versionConflict := by
  have h := VersionPolicy.error_after_validate hv h
  split at h
  · exact VersionPolicy.error_of_check_bind h
  · cases h

section Sum

variable {α : Type} [Add α] {read : Bytes → Except HashError α} {zero delta : α}
  {fits : α → Bool} {text : α → Bytes} {policy : VersionPolicy} {ttl : TtlUpdate}

/-- A sum is refused for its summand, its version or its size. -/
theorem error_of_sumPlan (hread : ∀ value e, read value = .error e → e.isRefusal = true)
    (h : sumPlan read zero delta fits text policy ttl now current = .error err) :
    err.isRefusal = true := by
  rcases error_of_bind h with h | ⟨base, -, h⟩
  · cases current with
    | none => cases h
    | some r => exact hread _ _ h
  · rcases error_of_bind h with h | ⟨_, -, h⟩
    · rw [VersionPolicy.error_of_check h]
      rfl
    · split at h
      · cases h
      · cases h
        rfl

end Sum

theorem error_of_readInt {value : Bytes} (h : readInt value = .error err) :
    err.isRefusal = true := by
  unfold readInt at h
  split at h <;> cases h
  rfl

theorem error_of_readFloat {value : Bytes} (h : readFloat value = .error err) :
    err.isRefusal = true := by
  unfold readFloat at h
  split at h
  · split at h <;> cases h
    rfl
  · cases h
    rfl

theorem error_of_setExpiryPlan {time : ExpireTime} (hv : version.isMalformed = false)
    (h : setExpiryPlan time version now current = .error err) : err = .versionConflict := by
  have h := VersionPolicy.error_after_validate hv h
  cases current with
  | none => cases h
  | some old => exact VersionPolicy.error_of_check_bind h

theorem error_of_deletePlan (hv : version.isMalformed = false)
    (h : deletePlan version current = .error err) : err = .versionConflict := by
  have h := VersionPolicy.error_after_validate hv h
  cases current with
  | none => cases h
  | some old => exact VersionPolicy.error_of_check_bind h

end Fields

/-- A plan that is refused for what it meets, and that stores what it tells of. -/
structure Stores {β : Type} (plan : Option Record → Except HashError (β × Option Command)) :
    Prop where
  error : ∀ {current err}, plan current = .error err → err.isRefusal = true
  keeps : ∀ {current b c}, plan current = .ok (b, some c) → c.isDelete = false

namespace Scope

variable {key field value : Bytes} {ttl : TtlUpdate}

theorem error_of_storePlan {rule : WriteRule} (hv : rule.version.isMalformed = false)
    (h : storePlan key field value rule now current = .error err) : err = .versionConflict :=
  Fields.error_of_setPlan hv (error_of_map h)

theorem storePlan_stores {rule : WriteRule} (hv : rule.version.isMalformed = false) :
    Stores (storePlan key field value rule now) where
  error h := by
    rw [error_of_storePlan hv h]
    rfl
  keeps h := by
    obtain ⟨r?, -, h⟩ := ok_of_map h
    cases r? <;> cases h
    rfl

/-- Nothing is asked of the version, so nothing is refused. -/
theorem storePlan_ne_error (ttl : TtlUpdate) :
    storePlan key field value { ttl } now current ≠ .error err := by
  cases current <;> nofun

theorem addIntPlan_stores {delta : Int} {bounds : Bounds Int}
    (hv : version.isMalformed = false) (hb : bounds.validate = .ok ()) :
    Stores (addIntPlan key field delta bounds version ttl now) where
  error h := by
    have h := VersionPolicy.error_after_validate hv (error_of_map h)
    rcases error_of_bind h with h | ⟨_, -, h⟩
    · cases hb.symm.trans h
    · exact Fields.error_of_sumPlan (fun _ _ => Fields.error_of_readInt) h
  keeps h := by
    obtain ⟨out, -, h⟩ := ok_of_map h
    cases h
    rfl

theorem addFloatPlan_stores {delta : Float} {bounds : Bounds Float}
    (hv : version.isMalformed = false) (hb : bounds.validate = .ok ()) :
    Stores (addFloatPlan key field delta bounds version ttl now) where
  error h := by
    have h := VersionPolicy.error_after_validate hv (error_of_map h)
    dsimp only at h
    split at h
    · cases h
      rfl
    · rcases error_of_bind h with h | ⟨_, -, h⟩
      · cases hb.symm.trans h
      · exact Fields.error_of_sumPlan (fun _ _ => Fields.error_of_readFloat) h
  keeps h := by
    obtain ⟨out, -, h⟩ := ok_of_map h
    cases h
    rfl

theorem amendExpiryPlan_stores {time : ExpireTime} (hv : version.isMalformed = false) :
    Stores (amendExpiryPlan key field time version now) where
  error h := by
    rw [Fields.error_of_setExpiryPlan hv (error_of_map h)]
    rfl
  keeps h := by
    obtain ⟨r?, -, h⟩ := ok_of_map h
    cases r? <;> cases h
    rfl

theorem dropExpiryPlan_stores : Stores (dropExpiryPlan key field) where
  error := nofun
  keeps {current b c} h := by
    unfold dropExpiryPlan at h
    cases hc : current.filter (·.hasTtl) <;> rw [hc] at h <;> cases h
    rfl

theorem amendVersionPlan_stores {version : UInt64} : Stores (amendVersionPlan key field version) where
  error := nofun
  keeps {current b c} h := by
    cases current <;> cases h
    rfl

theorem error_of_deleteLivePlan (hv : version.isMalformed = false)
    (h : deleteLivePlan key field version current = .error err) : err = .versionConflict :=
  Fields.error_of_deletePlan hv (error_of_map h)

end Scope

end ExpiringHash
