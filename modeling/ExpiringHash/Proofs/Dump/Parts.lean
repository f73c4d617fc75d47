import ExpiringHash.Dump
import ExpiringHash.Proofs.Fields.Outcomes
import Mathlib.Algebra.GroupWithZero.Nat
import Mathlib.Data.List.Induction

/-!
# The parts of a dump

A number, a string and a field stand in a dump in one form each. Reading one succeeds on nothing but
that form, with any bytes after it, and gives back what was written and the bytes after it; short of
that the dump is truncated.
-/
namespace ExpiringHash

namespace Word

theorem ofBigEndian_concat (bs : Bytes) (b : UInt8) :
    ofBigEndian (bs ++ [b]) = ofBigEndian bs * 256 + b.toNat := by
  rw [ofBigEndian, List.foldl_append]
  rfl

theorem ofBigEndian_lt (bs : Bytes) : ofBigEndian bs < 256 ^ bs.length := by
  induction bs using List.reverseRecOn with
  | nil => exact Nat.one_pos
  | append_singleton bs b ih =>
    have hb : b.toNat < 256 := b.toNat_lt
    rw [ofBigEndian_concat, List.length_append, List.length_singleton, Nat.pow_succ]
    omega

/-- Bytes are the digits of the number that they write. -/
theorem bigEndian_ofBigEndian (bs : Bytes) : bigEndian bs.length (ofBigEndian bs) = bs := by
  induction bs using List.reverseRecOn with
  | nil => rfl
  | append_singleton bs b ih =>
    have hb : b.toNat < 256 := b.toNat_lt
    have hlast : (ofBigEndian bs * 256 + b.toNat) % 256 = b.toNat := by omega
    have hrest : (ofBigEndian bs * 256 + b.toNat) / 256 = ofBigEndian bs := by omega
    rw [ofBigEndian_concat, List.length_append, List.length_singleton, bigEndian, hlast, hrest, ih]
    simp

theorem ofBigEndian_of_lt {width n : Nat} (h : n < 256 ^ width) :
    ofBigEndian (bigEndian width n) = n := by
  rw [ofBigEndian_bigEndian]
  exact Nat.mod_eq_of_lt h

end Word

namespace Container

variable {part : DumpPart} {bs rest more text : Bytes}

/-- A string that is short enough for its length to be written. -/
def FitsLength (text : Bytes) : Prop := text.length < 2 ^ 32

/-- A field whose name and value are short enough. -/
structure FitsRow (row : Bytes × Record) : Prop where
  name : FitsLength row.1
  value : FitsLength row.2.value

theorem takeBytes_eq_ok_iff {n : Nat} {piece : Bytes} :
    takeBytes part n bs = .ok (piece, rest) ↔ bs = piece ++ rest ∧ piece.length = n := by
  unfold takeBytes
  constructor
  · intro h
    split at h
    · next hcut =>
      cases h
      exact append_of_cut? hcut
    · cases h
  · rintro ⟨rfl, rfl⟩
    rw [cut?_append]

theorem takeWord_eq_ok_iff {w : UInt64} :
    takeWord part bs = .ok (w, rest) ↔ bs = Word.bigEndian 8 w.toNat ++ rest := by
  unfold takeWord
  constructor
  · intro h
    obtain ⟨⟨word, after⟩, htake, hword⟩ := ok_of_bind h
    cases hword
    obtain ⟨rfl, hlength⟩ := takeBytes_eq_ok_iff.mp htake
    have hlt : Word.ofBigEndian word < UInt64.size := by
      have hlt := Word.ofBigEndian_lt word
      rw [hlength] at hlt
      exact hlt
    rw [Nat.toUInt64_eq, UInt64.toNat_ofNat_of_lt' hlt, ← hlength, Word.bigEndian_ofBigEndian]
  · rintro rfl
    rw [takeBytes_eq_ok_iff.mpr ⟨rfl, Word.length_bigEndian 8 w.toNat⟩]
    change Except.ok ((Word.ofBigEndian (Word.bigEndian 8 w.toNat)).toUInt64, rest) = _
    rw [Word.ofBigEndian_of_lt w.toNat_lt, Nat.toUInt64_eq, UInt64.ofNat_toNat]

theorem takeText_eq_ok_iff :
    takeText part bs = .ok (text, rest) ↔ bs = dumpText text ++ rest ∧ FitsLength text := by
  unfold takeText
  constructor
  · intro h
    obtain ⟨⟨word, after⟩, htake, hafter⟩ := ok_of_bind h
    obtain ⟨rfl, htext⟩ := takeBytes_eq_ok_iff.mp hafter
    obtain ⟨rfl, hword⟩ := takeBytes_eq_ok_iff.mp htake
    refine ⟨?_, ?_⟩
    · rw [dumpText, htext, ← hword, Word.bigEndian_ofBigEndian, List.append_assoc]
    · have hlt := Word.ofBigEndian_lt word
      rw [hword, ← htext] at hlt
      exact hlt
  · rintro ⟨rfl, hfits⟩
    rw [dumpText, List.append_assoc,
      takeBytes_eq_ok_iff.mpr ⟨rfl, Word.length_bigEndian 4 text.length⟩]
    change takeBytes part (Word.ofBigEndian (Word.bigEndian 4 text.length)) (text ++ rest) = _
    rw [Word.ofBigEndian_of_lt hfits]
    exact takeBytes_eq_ok_iff.mpr ⟨rfl, rfl⟩

theorem takeField_eq_ok_iff {row : Bytes × Record} :
    takeField bs = .ok (row, rest) ↔ bs = dumpField row.1 row.2 ++ rest ∧ FitsRow row := by
  unfold takeField
  constructor
  · intro h
    obtain ⟨⟨name, bs₁⟩, hname, h⟩ := ok_of_bind h
    obtain ⟨⟨version, bs₂⟩, hversion, h⟩ := ok_of_bind h
    obtain ⟨⟨expireAt, bs₃⟩, hexpire, h⟩ := ok_of_bind h
    obtain ⟨⟨value, bs₄⟩, hvalue, h⟩ := ok_of_bind h
    cases h
    obtain ⟨rfl, hfits⟩ := takeText_eq_ok_iff.mp hname
    obtain rfl := takeWord_eq_ok_iff.mp hversion
    obtain rfl := takeWord_eq_ok_iff.mp hexpire
    obtain ⟨rfl, hfits'⟩ := takeText_eq_ok_iff.mp hvalue
    refine ⟨?_, hfits, hfits'⟩
    simp only [dumpField, List.append_assoc]
  · rintro ⟨rfl, hname, hvalue⟩
    simp only [dumpField, List.append_assoc]
    simp only [takeText_eq_ok_iff.mpr ⟨rfl, hname⟩, takeWord_eq_ok_iff.mpr rfl,
      takeText_eq_ok_iff.mpr ⟨rfl, hvalue⟩, bind, Except.bind, pure, Except.pure]

/-! ### Parts that are cut off -/

/-- An outcome that is a success or the report of a part that is cut off. -/
def OnlyTruncates {α : Type} (outcome : Except DumpFault α) : Prop :=
  ∀ fault, outcome = .error fault → ∃ part, fault = .truncated part

theorem OnlyTruncates.bind {α β : Type} {x : Except DumpFault α} {k : α → Except DumpFault β}
    (hx : OnlyTruncates x) (hk : ∀ a, OnlyTruncates (k a)) : OnlyTruncates (x >>= k) := by
  cases x with
  | error fault =>
    intro other h
    cases h
    exact hx fault rfl
  | ok a => exact hk a

theorem OnlyTruncates.pure {α : Type} (a : α) :
    OnlyTruncates (Pure.pure a : Except DumpFault α) := nofun

theorem onlyTruncates_takeBytes (part : DumpPart) (n : Nat) (bs : Bytes) :
    OnlyTruncates (takeBytes part n bs) := by
  intro fault h
  unfold takeBytes at h
  split at h
  · cases h
  · cases h
    exact ⟨part, rfl⟩

theorem onlyTruncates_takeWord (part : DumpPart) (bs : Bytes) :
    OnlyTruncates (takeWord part bs) :=
  (onlyTruncates_takeBytes part 8 bs).bind fun _ => .pure _

theorem onlyTruncates_takeText (part : DumpPart) (bs : Bytes) :
    OnlyTruncates (takeText part bs) :=
  (onlyTruncates_takeBytes part 4 bs).bind fun _ => onlyTruncates_takeBytes part _ _

theorem onlyTruncates_takeField (bs : Bytes) : OnlyTruncates (takeField bs) :=
  (onlyTruncates_takeText .fieldName bs).bind fun _ =>
    (onlyTruncates_takeWord .version _).bind fun _ =>
      (onlyTruncates_takeWord .expireTime _).bind fun _ =>
        (onlyTruncates_takeText .value _).bind fun _ => .pure _

end Container
end ExpiringHash
