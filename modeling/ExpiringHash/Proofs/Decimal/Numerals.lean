import ExpiringHash.Text.Numeral
import Mathlib.Data.List.Induction

/-!
# What numerals spell

The grammar of numerals: digits spell a number in base ten, and a sign may stand in front of them. The
readers of numerals accept exactly what spells a number that the word can hold, so a number that is
written is read as it is.
-/
namespace ExpiringHash.Numeral

/-- Digits, at least one, and the number that they spell in base ten. -/
inductive SpellsNat : Bytes → Nat → Prop
  | digit {d : Nat} (hd : d < 10) : SpellsNat [digitByte d] d
  | snoc {bs : Bytes} {n d : Nat} (h : SpellsNat bs n) (hd : d < 10) :
      SpellsNat (bs ++ [digitByte d]) (n * 10 + d)

/-- Digits that may have a sign in front. -/
inductive SpellsInt : Bytes → Int → Prop
  | unsigned {bs : Bytes} {n : Nat} (h : SpellsNat bs n) : SpellsInt bs n
  | plus {bs : Bytes} {n : Nat} (h : SpellsNat bs n) : SpellsInt (Ascii.plus :: bs) n
  | minus {bs : Bytes} {n : Nat} (h : SpellsNat bs n) : SpellsInt (Ascii.minus :: bs) (-n)

variable {bs : Bytes} {b : UInt8} {n : Nat} {i : Int}

theorem digitByte_facts : ∀ d < 10, digitByte d ≠ Ascii.plus ∧ digitByte d ≠ Ascii.minus ∧
    digitByte d ≠ Ascii.carriageReturn ∧ digitByte d ≠ Ascii.lineFeed := by
  decide

theorem digit?_eq_some_iff {d : Nat} : digit? b = some d ↔ d < 10 ∧ b = digitByte d := by
  constructor
  · intro h
    unfold digit? at h
    split at h
    · next hb =>
      obtain ⟨hlow, hhigh⟩ := hb
      rw [UInt8.le_iff_toNat_le] at hlow hhigh
      have hzero : Ascii.zero.toNat = 48 := rfl
      have hnine : Ascii.nine.toNat = 57 := rfl
      cases h
      refine ⟨by omega, UInt8.toNat_inj.mp ?_⟩
      rw [digitByte, UInt8.toNat_add, Nat.toUInt8, UInt8.toNat_ofNat']
      omega
    · cases h
  · rintro ⟨hd, rfl⟩
    exact digit?_digitByte hd

/-! ## Numbers without a sign -/

theorem SpellsNat.ne_nil (h : SpellsNat bs n) : bs ≠ [] := by
  cases h with
  | digit => exact List.cons_ne_nil _ _
  | snoc => exact List.append_ne_nil_of_right_ne_nil _ (List.cons_ne_nil _ _)

theorem SpellsNat.exists_of_mem (h : SpellsNat bs n) (hb : b ∈ bs) : ∃ d < 10, b = digitByte d := by
  induction h with
  | digit hd => exact ⟨_, hd, List.mem_singleton.mp hb⟩
  | snoc _ hd ih =>
    rcases List.mem_append.mp hb with hb | hb
    · exact ih hb
    · exact ⟨_, hd, List.mem_singleton.mp hb⟩

theorem spellsNat_ofNat (n : Nat) : SpellsNat (ofNat n) n := by
  fun_induction ofNat n with
  | case1 n hn => exact .digit hn
  | case2 n hn ih =>
    have hsnoc := ih.snoc (Nat.mod_lt n (by decide : 0 < 10))
    rwa [Nat.div_add_mod'] at hsnoc

theorem readDigits_of_spellsNat (h : SpellsNat bs n) (hn : n < wordBound) :
    readDigits 0 bs = some n := by
  induction h with
  | digit hd => simp [readDigits, digit?_digitByte hd, hn]
  | snoc _ hd ih =>
    rw [readDigits_append, ih (by omega)]
    simp [readDigits, digit?_digitByte hd, hn]

theorem spellsNat_of_readDigits (hne : bs ≠ []) (h : readDigits 0 bs = some n) :
    SpellsNat bs n := by
  -- numbers are read from the left and spelled from the right
  induction bs using List.reverseRecOn generalizing n with
  | nil => exact absurd rfl hne
  | append_singleton bs b ih =>
    rw [readDigits_append] at h
    obtain ⟨m, hm, hlast⟩ := Option.bind_eq_some_iff.mp h
    cases hb : digit? b with
    | none => simp [readDigits, hb] at hlast
    | some d =>
      obtain ⟨hd, rfl⟩ := digit?_eq_some_iff.mp hb
      obtain ⟨-, rfl⟩ : m * 10 + d < wordBound ∧ m * 10 + d = n := by
        simpa [readDigits, hb] using hlast
      by_cases hbs : bs = []
      · subst hbs
        cases hm
        rw [List.nil_append, Nat.zero_mul, Nat.zero_add]
        exact .digit hd
      · exact (ih hbs hm).snoc hd

theorem readNat?_eq_some_iff : readNat? bs = some n ↔ SpellsNat bs n ∧ n < wordBound := by
  cases bs with
  | nil => exact ⟨nofun, fun h => absurd rfl h.1.ne_nil⟩
  | cons b bs =>
    constructor
    · intro h
      exact ⟨spellsNat_of_readDigits (List.cons_ne_nil b bs) h, readDigits_lt (by decide) h⟩
    · rintro ⟨h, hn⟩
      exact readDigits_of_spellsNat h hn

/-- What spells a number does not start with a sign. -/
theorem SpellsNat.no_sign (h : SpellsNat (b :: bs) n) : b ≠ Ascii.plus ∧ b ≠ Ascii.minus := by
  obtain ⟨d, hd, rfl⟩ := h.exists_of_mem List.mem_cons_self
  exact ⟨(digitByte_facts d hd).1, (digitByte_facts d hd).2.1⟩

theorem readUnsigned?_of_spellsNat (h : SpellsNat bs n) (hn : n < wordBound) :
    readUnsigned? bs = some n := by
  have hread := readNat?_eq_some_iff.mpr ⟨h, hn⟩
  unfold readUnsigned?
  split
  · exact absurd rfl h.no_sign.1
  · exact hread

/-- A number that is written is read as it is, for there is no sign. -/
theorem readUnsigned?_ofNat {n : Nat} (hn : n < wordBound) : readUnsigned? (ofNat n) = some n :=
  readUnsigned?_of_spellsNat (spellsNat_ofNat n) hn

theorem readUInt64?_ofNat (n : UInt64) : readUInt64? (ofNat n.toNat) = some n := by
  rw [readUInt64?, readUnsigned?_ofNat n.toNat_lt]
  exact congrArg some (UInt64.ofNat_toNat)

/-! ## Numbers that may have a sign -/

theorem SpellsInt.ne_nil (h : SpellsInt bs i) : bs ≠ [] := by
  cases h with
  | unsigned h => exact h.ne_nil
  | plus | minus => exact List.cons_ne_nil _ _

theorem spellsInt_ofInt (i : Int) : SpellsInt (ofInt i) i := by
  cases i with
  | ofNat n => exact .unsigned (spellsNat_ofNat n)
  | negSucc n => exact .minus (spellsNat_ofNat (n + 1))

theorem SpellsInt.no_lineEnd (h : SpellsInt bs i) :
    Ascii.carriageReturn ∉ bs ∧ Ascii.lineFeed ∉ bs := by
  have hdigits {bs : Bytes} {n : Nat} (h : SpellsNat bs n) :
      Ascii.carriageReturn ∉ bs ∧ Ascii.lineFeed ∉ bs := by
    refine ⟨fun hm => ?_, fun hm => ?_⟩
    all_goals obtain ⟨d, hd, he⟩ := h.exists_of_mem hm
    · exact (digitByte_facts d hd).2.2.1 he.symm
    · exact (digitByte_facts d hd).2.2.2 he.symm
  cases h with
  | unsigned h => exact hdigits h
  | plus h | minus h =>
    exact ⟨List.not_mem_cons_of_ne_of_not_mem (by decide) (hdigits h).1,
      List.not_mem_cons_of_ne_of_not_mem (by decide) (hdigits h).2⟩

theorem natAbs_lt_of_fitsInt64 (h : fitsInt64 i = true) : i.natAbs < wordBound := by
  have hmin : Int64.minValue.toInt = -9223372036854775808 := by decide
  have hmax : Int64.maxValue.toInt = 9223372036854775807 := by decide
  have hbound : wordBound = 18446744073709551616 := rfl
  simp only [fitsInt64, Bool.and_eq_true, decide_eq_true_eq, hmin, hmax] at h
  omega

theorem fitsInt64_of_le {n m : Nat} (hn : n ≤ m) (hm : (m : Int) ≤ Int64.maxValue.toInt) :
    fitsInt64 n = true := by
  have hmin : Int64.minValue.toInt ≤ 0 := by decide
  refine Bool.and_eq_true_iff.mpr ⟨decide_eq_true ?_, decide_eq_true ?_⟩
  · exact Int.le_trans hmin (Int.natCast_nonneg n)
  · exact Int.le_trans (Int.ofNat_le.mpr hn) hm

theorem readSigned?_of_spellsInt (h : SpellsInt bs i) (hi : i.natAbs < wordBound) :
    readSigned? bs = some i := by
  cases h with
  | unsigned h =>
    have hread := readUnsigned?_of_spellsNat h hi
    unfold readSigned?
    split
    · exact absurd rfl h.no_sign.2
    · rw [hread]
      rfl
  | @plus bs n h =>
    change (readNat? bs).map Int.ofNat = _
    rw [readNat?_eq_some_iff.mpr ⟨h, hi⟩]
    rfl
  | @minus bs n h =>
    rw [Int.natAbs_neg] at hi
    change ((readNat? bs).map fun n => -(n : Int)) = _
    rw [readNat?_eq_some_iff.mpr ⟨h, hi⟩]
    rfl

theorem spellsInt_of_readSigned? (h : readSigned? bs = some i) : SpellsInt bs i := by
  unfold readSigned? at h
  split at h
  · obtain ⟨_, hj, rfl⟩ := Option.map_eq_some_iff.mp h
    obtain ⟨n, hn, hj⟩ := Option.bind_eq_some_iff.mp hj
    cases hj
    exact .minus (readNat?_eq_some_iff.mp hn).1
  · obtain ⟨n, hn, rfl⟩ := Option.map_eq_some_iff.mp h
    unfold readUnsigned? at hn
    split at hn
    · exact .plus (readNat?_eq_some_iff.mp hn).1
    · exact .unsigned (readNat?_eq_some_iff.mp hn).1

/-- Exactly the numerals of numbers that fit a signed word are read. -/
theorem readInt64?_eq_some_iff : readInt64? bs = some i ↔ SpellsInt bs i ∧ fitsInt64 i = true := by
  rw [readInt64?, Option.bind_eq_some_iff]
  constructor
  · rintro ⟨j, hj, h⟩
    split at h
    · next hfits =>
      cases h
      exact ⟨spellsInt_of_readSigned? hj, hfits⟩
    · cases h
  · rintro ⟨h, hfits⟩
    exact ⟨i, readSigned?_of_spellsInt h (natAbs_lt_of_fitsInt64 hfits), if_pos hfits⟩

end ExpiringHash.Numeral
