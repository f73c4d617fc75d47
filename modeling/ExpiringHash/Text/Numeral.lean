import ExpiringHash.Ascii

/-!
# Decimal numerals

A numeral is an optional sign and at least one ASCII digit; leading zeros are allowed and the value
must fit the word it is read into, so reading stops at the digit that makes it too large for any
word. Numbers are written without sign or leading zeros, a negative number after a minus.
-/
namespace ExpiringHash.Numeral

/-- The byte of a digit below ten. -/
def digitByte (d : Nat) : UInt8 := Ascii.zero + d.toUInt8

def digit? (b : UInt8) : Option Nat :=
  if Ascii.zero ≤ b ∧ b ≤ Ascii.nine then some (b.toNat - Ascii.zero.toNat) else none

def ofNat (n : Nat) : Bytes :=
  if n < 10 then [digitByte n] else ofNat (n / 10) ++ [digitByte (n % 10)]
termination_by n
decreasing_by omega

def ofInt : Int → Bytes
  | .ofNat n => ofNat n
  | .negSucc n => Ascii.minus :: ofNat (n + 1)

/-- One more than the largest number that a word holds. -/
def wordBound : Nat := UInt64.size

/-- Reads digits after a number already read; a number that no word holds is refused. -/
def readDigits (n : Nat) : Bytes → Option Nat
  | [] => some n
  | b :: bs =>
    match digit? b with
    | none => none
    | some d => if n * 10 + d < wordBound then readDigits (n * 10 + d) bs else none

/-- A number without sign that some word holds, of at least one digit. -/
def readNat? : Bytes → Option Nat
  | [] => none
  | b :: bs => readDigits 0 (b :: bs)

/-- A numeral with an optional plus. -/
def readUnsigned? : Bytes → Option Nat
  | Ascii.plus :: bs => readNat? bs
  | bs => readNat? bs

/-- A numeral with an optional plus or minus. -/
def readSigned? : Bytes → Option Int
  | Ascii.minus :: bs => (readNat? bs).map fun n => -(n : Int)
  | bs => (readUnsigned? bs).map Int.ofNat

def readUInt64? (bs : Bytes) : Option UInt64 :=
  (readUnsigned? bs).map Nat.toUInt64

/-- Whether an integer fits a signed 64-bit word. -/
def fitsInt64 (n : Int) : Bool := Int64.minValue.toInt ≤ n && n ≤ Int64.maxValue.toInt

def readInt64? (bs : Bytes) : Option Int :=
  (readSigned? bs).bind fun n => if fitsInt64 n then some n else none

theorem digit?_digitByte {d : Nat} (h : d < 10) : digit? (digitByte d) = some d := by
  match d, h with
  | 0, _ | 1, _ | 2, _ | 3, _ | 4, _ | 5, _ | 6, _ | 7, _ | 8, _ | 9, _ => rfl

theorem readDigits_append (n : Nat) (as bs : Bytes) :
    readDigits n (as ++ bs) = (readDigits n as).bind fun m => readDigits m bs := by
  fun_induction readDigits n as with
  | case1 => rfl
  | case2 n b as hb => simp [readDigits, hb]
  | case3 n b as d hb hn ih => simp [readDigits, hb, hn, ih]
  | case4 n b as d hb hn => simp [readDigits, hb, hn]

theorem readDigits_lt {n m : Nat} {bs : Bytes} (hn : n < wordBound)
    (h : readDigits n bs = some m) : m < wordBound := by
  fun_induction readDigits n bs with
  | case1 =>
    cases h
    exact hn
  | case2 | case4 => cases h
  | case3 n b bs d hb hlt ih => exact ih hlt h

theorem readDigits_ofNat {n : Nat} (hn : n < wordBound) : readDigits 0 (ofNat n) = some n := by
  fun_induction ofNat n with
  | case1 n h => simp [readDigits, digit?_digitByte h, hn]
  | case2 n h ih =>
    have hd : n % 10 < 10 := Nat.mod_lt _ (by decide)
    have hm : n / 10 * 10 + n % 10 = n := by omega
    simp [readDigits_append, ih (by omega), readDigits, digit?_digitByte hd, hm, hn]

theorem ofNat_ne_nil (n : Nat) : ofNat n ≠ [] := by
  unfold ofNat
  split <;> simp

theorem readNat?_ofNat {n : Nat} (hn : n < wordBound) : readNat? (ofNat n) = some n := by
  have h := readDigits_ofNat hn
  cases hc : ofNat n with
  | nil => exact absurd hc (ofNat_ne_nil n)
  | cons b bs => rw [hc] at h; exact h

end ExpiringHash.Numeral
