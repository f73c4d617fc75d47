/-!
# Byte strings

Keys, field names, values and wire data are arbitrary bytes. They are ordered by unsigned byte,
a shorter prefix first, which is the order core gives to lists of bytes.
-/
namespace ExpiringHash

abbrev Bytes := List UInt8

namespace Bytes

def ofString (text : String) : Bytes := text.toUTF8.toList

def ofChars (cs : List Char) : Bytes := cs.map fun c => c.toNat.toUInt8

def isUpper (b : UInt8) : Bool := 65 ≤ b && b ≤ 90

/-- The lower-case form of an ASCII letter; every other byte is kept. -/
def foldByte (b : UInt8) : UInt8 := if isUpper b then b + 32 else b

def fold (bs : Bytes) : Bytes := bs.map foldByte

/-- Equality up to the case of ASCII letters. -/
def sameFolded (a b : Bytes) : Bool := fold a == fold b

theorem foldByte_foldByte (b : UInt8) : foldByte (foldByte b) = foldByte b := by
  unfold foldByte isUpper
  grind

theorem fold_fold (bs : Bytes) : fold (fold bs) = fold bs := by
  simp [fold, foldByte_foldByte]

end Bytes
end ExpiringHash
