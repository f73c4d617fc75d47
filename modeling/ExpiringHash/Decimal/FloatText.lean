import ExpiringHash.Decimal.Shortest
import ExpiringHash.Text.Numeral

/-!
# Text of floating-point numbers

A number is written with its shortest decimal, in positional notation at every size: no exponent,
no point after a whole number, zero without sign. It is read from a decimal with optional sign,
point and exponent, correctly rounded, or from one of the names of infinity and of not-a-number. An
exponent is read up to the digit with which it reaches 65536.
-/
namespace ExpiringHash.FloatText

/-- Puts a decimal into positional notation. -/
def positional (d : Decimal) : Bytes :=
  let ds := Numeral.ofNat d.digits
  let places := (-d.exponent).toNat
  if 0 ≤ d.exponent then ds ++ List.replicate d.exponent.toNat Ascii.zero
  else if places < ds.length then
    ds.take (ds.length - places) ++ Ascii.point :: ds.drop (ds.length - places)
  else Ascii.zero :: Ascii.point :: List.replicate (places - ds.length) Ascii.zero ++ ds

/-- The text of a finite number. -/
def ofFloat (x : Float) : Bytes :=
  let bits := x.toBits.toNat
  let (m, q) := Binary64.unpack bits
  if m = 0 then [Ascii.zero]
  else
    let text := positional (Decimal.shortest m q)
    if Binary64.isNegative bits then Ascii.minus :: text else text

def digit? (c : Char) : Option Nat :=
  if c.isDigit then some (c.toNat - 48) else none

def natOf (ds : List Char) : Nat := ds.foldl (fun n c => n * 10 + (c.toNat - 48)) 0

/-- How many digits of a number are looked at one by one. A point halfway between two numbers has
fewer, so of the digits after them it matters only whether one is not zero. -/
def maxDigits : Nat := 800

/-- A decimal that rounds like the whole number with the digits given. -/
def significand (ds : List Char) : Decimal :=
  let ds := ds.dropWhile (· == '0')
  let rest := ds.drop maxDigits
  if rest.isEmpty then ⟨natOf ds, 0⟩
  else ⟨natOf (ds.take maxDigits) * 10 + (if rest.all (· == '0') then 0 else 1), rest.length - 1⟩

/-- From here on an exponent takes no more digits. -/
def exponentCap : Nat := 65536

/-- The exponent that digits denote; the digits that follow once it has reached the cap are
ignored. -/
def exponentOf (ds : List Char) : Nat :=
  ds.foldl (fun n c => if n < exponentCap then n * 10 + (c.toNat - 48) else n) 0

/-- The power of ten at the end of a decimal: nothing, or `e`, an optional sign and digits. -/
def readExponent? : List Char → Option Int
  | [] => some 0
  | c :: cs =>
    if c.toLower ≠ 'e' then none
    else
      let (negative, ds) := match cs with
        | '-' :: ds => (true, ds)
        | '+' :: ds => (false, ds)
        | ds => (false, ds)
      if ds.isEmpty || !ds.all Char.isDigit then none
      else some (if negative then -(exponentOf ds : Int) else exponentOf ds)

/-- A decimal of at least one digit before or after an optional point. -/
def readDecimal? (cs : List Char) : Option Decimal :=
  let whole := cs.takeWhile Char.isDigit
  let (places, rest) := match cs.dropWhile Char.isDigit with
    | '.' :: r => (r.takeWhile Char.isDigit, r.dropWhile Char.isDigit)
    | r => ([], r)
  if whole.isEmpty && places.isEmpty then none
  else (readExponent? rest).map fun e =>
    let d := significand (whole ++ places)
    { d with exponent := d.exponent + e - places.length }

/-- The bits of the number nearest to a decimal. A decimal from `10^400` on is infinite and one
below `10^(-400)` is zero, whatever its digits. -/
def decimalBits (d : Decimal) : Nat :=
  let size : Int := (Numeral.ofNat d.digits).length + d.exponent
  if d.digits = 0 || size < -400 then 0
  else if 400 < size then Binary64.infinityBits
  else
    Binary64.nearest (d.digits * Nat.pow 10 d.exponent.toNat) (Nat.pow 10 (-d.exponent).toNat)

/-- The bits of an unsigned number or of one of the names, in any case. -/
def readMagnitude? (cs : List Char) : Option Nat :=
  let name := String.ofList (cs.map Char.toLower)
  if name = "inf" || name = "infinity" then some Binary64.infinityBits
  else if name = "nan" then some Binary64.nanBits
  else (readDecimal? cs).map decimalBits

def read? (cs : List Char) : Option Float :=
  let bits? := match cs with
    | '-' :: r => (readMagnitude? r).map (· + Binary64.signBit)
    | '+' :: r => readMagnitude? r
    | r => readMagnitude? r
  bits?.map fun n => Float.ofBits n.toUInt64

end ExpiringHash.FloatText
