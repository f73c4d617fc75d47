import ExpiringHash.Bytes
import ExpiringHash.Ttl

/-!
# Records

What a field holds, and what a reader sees of it.
-/
namespace ExpiringHash

/-- The content of a field. -/
structure Record where
  value : Bytes
  version : UInt64
  /-- The time of expiry in milliseconds, 0 for none. -/
  expireAt : UInt64
deriving DecidableEq, Repr, Inhabited

namespace Record

/-- A record before its first write. -/
def fresh (value : Bytes) : Record := ⟨value, 0, 0⟩

def hasTtl (r : Record) : Bool := 0 < r.expireAt

def isExpired (r : Record) (now : UInt64) : Bool := 0 < r.expireAt && r.expireAt ≤ now

theorem isExpired_iff (r : Record) (now : UInt64) :
    r.isExpired now = true ↔ 0 < r.expireAt ∧ r.expireAt ≤ now := by
  simp [isExpired]

/-- What has expired stays so as time goes on. -/
theorem isExpired_mono {r : Record} {now later : UInt64} (h : r.isExpired now = true)
    (hle : now ≤ later) : r.isExpired later = true := by
  rw [isExpired_iff] at h ⊢
  exact ⟨h.1, UInt64.le_trans h.2 hle⟩

/-- The milliseconds left, if the record expires at all. -/
def remaining? (r : Record) (now : UInt64) : Option UInt64 :=
  if r.hasTtl then some (subFloored r.expireAt now) else none

end Record

/-- What a reader sees of a field. -/
structure FieldView where
  value : Bytes
  version : UInt64
deriving DecidableEq, Repr

def Record.view (r : Record) : FieldView := ⟨r.value, r.version⟩

/-- On which fields a write takes effect. -/
inductive WriteCondition where
  | always
  | ifAbsent
  | ifPresent
deriving DecidableEq, Repr, Inhabited

/-- Whether a write takes effect on a field that is present or not. -/
def WriteCondition.allows (present : Bool) : WriteCondition → Bool
  | .always => true
  | .ifAbsent => !present
  | .ifPresent => present

end ExpiringHash
