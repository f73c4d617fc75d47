import ExpiringHash.Bytes

/-!
# UTF-8

Bytes are cut into well-formed characters and broken parts: a broken part is the longest start of
a character that cannot be completed, or a single byte that starts none. Overlong forms,
surrogates and values beyond U+10FFFF are not well-formed. Text is read strictly (`decode?`) or with
a replacement character for each broken part (`lossy`).
-/
namespace ExpiringHash.Utf8

/-- What the first byte of a longer character promises. -/
structure Lead where
  /-- Number of bytes that follow. -/
  more : Nat
  /-- Bounds of the first of them; the others lie in 0x80–0xBF. -/
  low : UInt8
  high : UInt8
  /-- The bits of the character carried by the first byte. -/
  payload : UInt8

/-- The first bytes of well-formed characters of two to four bytes. -/
def lead? (b : UInt8) : Option Lead :=
  if b < 0xC2 then none
  else if b < 0xE0 then some ⟨1, 0x80, 0xBF, b - 0xC0⟩
  else if b = 0xE0 then some ⟨2, 0xA0, 0xBF, 0⟩
  else if b = 0xED then some ⟨2, 0x80, 0x9F, 0xD⟩
  else if b < 0xF0 then some ⟨2, 0x80, 0xBF, b - 0xE0⟩
  else if b = 0xF0 then some ⟨3, 0x90, 0xBF, 0⟩
  else if b < 0xF4 then some ⟨3, 0x80, 0xBF, b - 0xF0⟩
  else if b = 0xF4 then some ⟨3, 0x80, 0x8F, 4⟩
  else none

/-- Reads the bytes that complete a character; on a byte out of bounds the rest starts there. -/
def readTail (more : Nat) (low high : UInt8) (code : Nat) (bs : Bytes) : Option Nat × Bytes :=
  match more, bs with
  | 0, bs => (some code, bs)
  | _ + 1, [] => (none, [])
  | n + 1, b :: bs =>
    if low ≤ b ∧ b ≤ high then readTail n 0x80 0xBF (code * 64 + (b - 0x80).toNat) bs
    else (none, b :: bs)

/-- The character or broken part that starts with `b`, and the bytes after it. -/
def readPiece (b : UInt8) (bs : Bytes) : Option Char × Bytes :=
  if b < 0x80 then (some (Char.ofNat b.toNat), bs)
  else match lead? b with
    | none => (none, bs)
    | some l =>
      let (code, rest) := readTail l.more l.low l.high l.payload.toNat bs
      (code.map Char.ofNat, rest)

theorem length_readTail_le (more : Nat) (low high : UInt8) (code : Nat) (bs : Bytes) :
    (readTail more low high code bs).2.length ≤ bs.length := by
  fun_induction readTail more low high code bs with
  | case1 => simp
  | case2 => simp
  | case3 _ _ _ _ _ _ _ ih => exact Nat.le_succ_of_le ih
  | case4 => simp

theorem length_readPiece_le (b : UInt8) (bs : Bytes) :
    (readPiece b bs).2.length ≤ bs.length := by
  unfold readPiece
  split
  · simp
  · split
    · simp
    · exact length_readTail_le ..

/-- The characters of a byte string in order, `none` for each broken part. -/
def pieces : Bytes → List (Option Char)
  | [] => []
  | b :: bs => (readPiece b bs).1 :: pieces (readPiece b bs).2
termination_by bs => bs.length
decreasing_by
  have := length_readPiece_le b bs
  simp only [List.length_cons]
  omega

/-- The characters of a well-formed byte string. -/
def decode? (bs : Bytes) : Option (List Char) := (pieces bs).mapM id

/-- The text of a byte string, with U+FFFD for each broken part. -/
def lossy (bs : Bytes) : String := String.ofList ((pieces bs).map (·.getD '\uFFFD'))

end ExpiringHash.Utf8
