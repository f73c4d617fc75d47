import ExpiringHash.Decimal.Binary64

/-!
# Shortest decimals

The shortest decimal of a number is the one with the fewest digits among those that round to it,
and of these the nearest. It is found on the decimal grids from coarse to fine: a grid has a point
that rounds to the number exactly if one of the number's two neighbours on that grid does.
-/
namespace ExpiringHash

/-- A positive decimal `digits · 10^exponent`. -/
structure Decimal where
  digits : Nat
  exponent : Int
deriving DecidableEq, Repr

namespace Decimal

/-- The reals that round to a number, over a common denominator. -/
structure Interval where
  low : Nat
  value : Nat
  high : Nat
  den : Nat
  /-- Whether the ends round to the number too. -/
  closed : Bool

/-- The reals that round to `m · 2^q`. Below a power of two the numbers lie twice as dense; an end
is a tie, which goes to the even significand. -/
def Interval.of (m : Nat) (q : Int) : Interval :=
  let scale : Nat := 1 <<< (q - 2).toNat
  let below := if m = 1 <<< 52 ∧ Binary64.minExponent < q then 1 else 2
  { low := (4 * m - below) * scale
    value := 4 * m * scale
    high := (4 * m + 2) * scale
    den := 1 <<< (2 - q).toNat
    closed := m % 2 == 0 }

/-- Whether a number lies in the interval, given over the interval's denominator times `factor`. -/
def Interval.holds (i : Interval) (factor num : Nat) : Bool :=
  if i.closed then i.low * factor ≤ num && num ≤ i.high * factor
  else i.low * factor < num && num < i.high * factor

/-- The better of the two neighbours of the value on the grid of multiples of `10^p`. A tie goes to
the larger one. -/
def Interval.onGrid (i : Interval) (p : Int) : Option Nat :=
  let factor := Nat.pow 10 (-p).toNat
  let unit := i.den * Nat.pow 10 p.toNat
  let v := i.value * factor
  let k := v / unit
  match i.holds factor (k * unit), i.holds factor ((k + 1) * unit) with
  | true, true => some (if v - k * unit < (k + 1) * unit - v then k else k + 1)
  | true, false => some k
  | false, true => some (k + 1)
  | false, false => none

/-- The first grid from `10^p` down with a point in the interval. -/
def Interval.search (i : Interval) (p : Int) : Nat → Decimal
  | 0 => ⟨i.value / i.den, 0⟩
  | fuel + 1 =>
    match i.onGrid p with
    | some k => ⟨k, p⟩
    | none => i.search (p - 1) fuel

/-- An exponent `p` with `10^p` above `m · 2^q` and at most a hundred times as large: the quotient
30103/100000 stands for the decimal logarithm of two. -/
def exponentAbove (m : Nat) (q : Int) : Int :=
  ((m.log2 : Int) + q + 1) * 30103 / 100000 + 1

/-- The shortest decimal that rounds to `m · 2^q`. Seventeen digits always suffice, and the search
starts at most three places above the first of them. -/
def shortest (m : Nat) (q : Int) : Decimal :=
  (Interval.of m q).search (exponentAbove m q) 20

end Decimal
end ExpiringHash
