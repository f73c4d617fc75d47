/-!
# 64-bit floating-point numbers

A finite number is `m · 2^q` with `m < 2^53` and `q ≥ -1074`. `nearest` gives the bits of the number
nearest to a quotient of two naturals, a tie going to the even neighbour and anything from the
middle between the largest number and the next power on going to infinity.
-/
namespace ExpiringHash.Binary64

def minExponent : Int := -1074

def infinityBits : Nat := 2047 <<< 52

def signBit : Nat := 1 <<< 63

/-- The bits of a number that is none. -/
def nanBits : Nat := infinityBits + (1 <<< 51)

/-- The integer nearest to `num / den`, a tie going to the even one. -/
def roundHalfEven (num den : Nat) : Nat :=
  let k := num / den
  let r := num % den
  if 2 * r < den then k else if den < 2 * r then k + 1 else k + k % 2

/-- Scales a quotient by `2^(-q)`. -/
def scaled (num den : Nat) (q : Int) : Nat × Nat :=
  (num <<< (-q).toNat, den <<< q.toNat)

/-- The exponent at which a positive quotient is rounded: its significand has 53 bits there, or the
exponent is the smallest. -/
def roundingExponent (num den : Nat) : Int :=
  let q := max ((num.log2 : Int) - den.log2 - 53) minExponent
  let (n, d) := scaled num den q
  if n / d < 1 <<< 53 then q else q + 1

/-- The bits of `m · 2^q`, where `m ≤ 2^53`, and `2^52 ≤ m` unless `q` is the smallest exponent. -/
def pack (m : Nat) (q : Int) : Nat :=
  if m < 1 <<< 52 then m else min infinityBits (((q + 1074).toNat <<< 52) + m)

def nearest (num den : Nat) : Nat :=
  if num = 0 then 0
  else
    let q := roundingExponent num den
    let (n, d) := scaled num den q
    pack (roundHalfEven n d) q

/-- Significand and exponent of a finite number, its sign left out. -/
def unpack (bits : Nat) : Nat × Int :=
  let fraction := bits % (1 <<< 52)
  let exponent : Nat := (bits >>> 52) % (1 <<< 11)
  if exponent = 0 then (fraction, minExponent)
  else (fraction + (1 <<< 52), Int.ofNat exponent - 1075)

/-- Whether the bits are those of a number below zero, or of negative zero. -/
def isNegative (bits : Nat) : Bool := signBit ≤ bits

end ExpiringHash.Binary64
