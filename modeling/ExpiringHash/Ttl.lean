/-!
# Time to live

An expiry is a point in time in milliseconds, 0 standing for none. A request names it relative to
now or absolutely, in seconds or milliseconds; the record keeps the absolute form.
-/
namespace ExpiringHash

/-- The sum of two words, or the largest word. -/
def addCapped (a b : UInt64) : UInt64 :=
  if a.toNat + b.toNat < UInt64.size then a + b else ~~~0

/-- The difference of two words, or 0. -/
def subFloored (a b : UInt64) : UInt64 := if b ≤ a then a - b else 0

theorem toNat_addCapped (a b : UInt64) :
    (addCapped a b).toNat = min (a.toNat + b.toNat) (UInt64.size - 1) := by
  unfold addCapped
  split
  · next h =>
    rw [UInt64.toNat_add, Nat.mod_eq_of_lt h]
    omega
  · next h =>
    have hm : (~~~(0 : UInt64)).toNat = UInt64.size - 1 := by decide
    rw [hm]
    omega

theorem toNat_subFloored (a b : UInt64) : (subFloored a b).toNat = a.toNat - b.toNat := by
  unfold subFloored
  split
  · next h => exact UInt64.toNat_sub_of_le a b h
  · next h =>
    have hlt : a.toNat < b.toNat := UInt64.lt_iff_toNat_lt.mp (UInt64.not_le.mp h)
    rw [UInt64.toNat_zero]
    omega

/-- The time that an expiry stands for, 0 standing for none. -/
def deadline? (expiry : UInt64) : Option UInt64 := if expiry = 0 then none else some expiry

inductive TimeUnit where
  | seconds
  | milliseconds
deriving DecidableEq, Repr

namespace TimeUnit

/-- An amount in milliseconds, unless that exceeds a word. -/
def toMillis? (amount : UInt64) : TimeUnit → Option UInt64
  | .seconds => if amount.toNat * 1000 < UInt64.size then some (amount * 1000) else none
  | .milliseconds => some amount

/-- Milliseconds in this unit; half a second counts as one. -/
def ofMillis (ms : UInt64) : TimeUnit → UInt64
  | .seconds => addCapped ms 500 / 1000
  | .milliseconds => ms

end TimeUnit

/-- When a field is to expire. -/
inductive ExpireTime where
  | after (ms : UInt64)
  /-- A point in time in milliseconds. -/
  | moment (ms : UInt64)
deriving DecidableEq, Repr

namespace ExpireTime

def relative? (amount : UInt64) (unit : TimeUnit) : Option ExpireTime :=
  (unit.toMillis? amount).map .after

def absolute? (amount : UInt64) (unit : TimeUnit) : Option ExpireTime :=
  (unit.toMillis? amount).map .moment

/-- The expiry to keep. Zero stands for a time long past, not for no expiry. -/
def resolve (now : UInt64) : ExpireTime → UInt64
  | .after ms => if ms = 0 then 1 else addCapped now ms
  | .moment ms => if ms = 0 then 1 else ms

/-- A field that is given an expiry does expire. -/
theorem resolve_ne_zero (t : ExpireTime) (now : UInt64) : t.resolve now ≠ 0 := by
  cases t with
  | after ms =>
    by_cases h : ms = 0
    · simp [resolve, h]
    · have hpos : ms.toNat ≠ 0 := fun e => h (UInt64.toNat_inj.mp e)
      intro e
      simp only [resolve, h, if_false] at e
      have hn := toNat_addCapped now ms
      rw [e, UInt64.toNat_zero, UInt64.size] at hn
      omega
  | moment ms =>
    by_cases h : ms = 0 <;> simp [resolve, h]

end ExpireTime

/-- What a write does to the expiry of its field. -/
inductive TtlUpdate where
  | clear
  | keep
  | set (time : ExpireTime)
deriving DecidableEq, Repr, Inhabited

/-- The expiry that a write leaves. -/
def TtlUpdate.resolve (current now : UInt64) : TtlUpdate → UInt64
  | .clear => 0
  | .keep => current
  | .set time => time.resolve now

/-- The answer to a question for the time a field has left. -/
inductive TtlStatus where
  | keyMissing
  | fieldMissing
  | noExpiry
  | remaining (amount : UInt64)
deriving DecidableEq, Repr

def TtlStatus.replyCode : TtlStatus → Int
  | .keyMissing => -2
  | .fieldMissing => -3
  | .noExpiry => -1
  | .remaining n => min n.toNat Int64.maxValue.toInt

end ExpiringHash
