import ExpiringHash.Error

/-!
# The version gate

Every record carries a version. A write or delete names a policy that says which versions it
accepts and which version it leaves behind; a field that is absent starts from version 0 and passes
every check.
-/
namespace ExpiringHash

/-- What a write demands of the current version and makes of it. -/
inductive VersionPolicy where
  /-- Accept any version and count one up. -/
  | next
  /-- Accept this version only, or any if it is 0, and count one up. -/
  | matching (version : UInt64)
  /-- Accept any version and set this one. -/
  | absolute (version : UInt64)
  /-- Accept smaller versions only and set this one. -/
  | greater (version : UInt64)
deriving DecidableEq, Repr, Inhabited

namespace VersionPolicy

/-- Whether the policy sets version 0, which no record that was written may have. -/
def isMalformed : VersionPolicy → Bool
  | .absolute v | .greater v => v == 0
  | .next | .matching _ => false

def validate (p : VersionPolicy) : Except HashError VersionPolicy :=
  if p.isMalformed then .error .badOption else .ok p

/-- Whether the policy accepts the version of a field that is present. -/
def accepts (current : UInt64) : VersionPolicy → Bool
  | .next | .absolute _ => true
  | .matching v => v == 0 || v == current
  | .greater v => current < v

/-- Checks the version of a field, `none` if the field is absent. -/
def check (p : VersionPolicy) (current : Option UInt64) : Except HashError Unit :=
  if current.all fun v => p.accepts v then .ok () else .error .versionConflict

/-- The version that a write leaves; counting up wraps at 64 bits. -/
def successor (current : UInt64) : VersionPolicy → UInt64
  | .next | .matching _ => current + 1
  | .absolute v | .greater v => v

/-- The version that a write leaves, if the policy is well-formed and accepts the current one. -/
def apply (p : VersionPolicy) (current : Option UInt64) : Except HashError UInt64 := do
  let p ← p.validate
  p.check current
  return p.successor (current.getD 0)

theorem check_none (p : VersionPolicy) : p.check none = .ok () := rfl

theorem check_some (p : VersionPolicy) (v : UInt64) :
    p.check (some v) = if p.accepts v then .ok () else .error .versionConflict := rfl

/-- A well-formed policy that accepts the current version is applied, any other is refused. -/
theorem apply_eq_ok_iff {p : VersionPolicy} {current : Option UInt64} {v : UInt64} :
    p.apply current = .ok v ↔
      p.isMalformed = false ∧ (current.all fun c => p.accepts c) = true ∧
        p.successor (current.getD 0) = v := by
  cases hm : p.isMalformed <;> cases ha : (current.all fun c => p.accepts c) <;>
    simp [apply, validate, hm, check, ha, bind, Except.bind, pure, Except.pure]

end VersionPolicy
end ExpiringHash
