import ExpiringHash.Decimal.FloatText

/-!
# Lengths of numerals

Numbers that an engine writes by itself are short: an integer that fits a word takes twenty bytes at
most, and the positional text of a floating-point number two thousand.
-/
namespace ExpiringHash

namespace Numeral

theorem length_ofNat_le {n k : Nat} (hk : 0 < k) (hn : n < Nat.pow 10 k) :
    (ofNat n).length ≤ k := by
  fun_induction ofNat n generalizing k with
  | case1 n h => exact hk
  | case2 n h ih =>
    obtain ⟨k, rfl⟩ : ∃ j, k = j + 1 := ⟨k - 1, by omega⟩
    have hpos : 0 < k := by
      refine Nat.pos_of_ne_zero fun h0 => h ?_
      rwa [h0] at hn
    have hn : n < Nat.pow 10 k * 10 := hn
    have hdiv : n / 10 < Nat.pow 10 k := Nat.div_lt_of_lt_mul (Nat.mul_comm .. ▸ hn)
    rw [List.length_append]
    exact Nat.succ_le_succ (ih hpos hdiv)

theorem length_ofInt_le {n : Int} (h : fitsInt64 n = true) : (ofInt n).length ≤ 20 := by
  have hmin : Int64.minValue.toInt = -9223372036854775808 := by decide
  have hmax : Int64.maxValue.toInt = 9223372036854775807 := by decide
  have hbound : Nat.pow 10 19 = 10000000000000000000 := by decide
  simp only [fitsInt64, Bool.and_eq_true, decide_eq_true_eq, hmin, hmax] at h
  cases n with
  | ofNat n =>
    rw [Int.ofNat_eq_natCast] at h
    have hn : n < Nat.pow 10 19 := by omega
    exact Nat.le_succ_of_le (length_ofNat_le (by decide) hn)
  | negSucc n =>
    have hn : n + 1 < Nat.pow 10 19 := by omega
    exact Nat.succ_le_succ (length_ofNat_le (by decide) hn)

theorem length_ofUInt64_le (n : UInt64) : (ofNat n.toNat).length ≤ 20 :=
  length_ofNat_le (by decide) (Nat.lt_trans n.toNat_lt (by decide))

end Numeral

namespace Binary64

theorem unpack_bounds (bits : Nat) :
    (unpack bits).1 < 1 <<< 53 ∧ -1074 ≤ (unpack bits).2 ∧ (unpack bits).2 ≤ 972 := by
  have hfraction : bits % (1 <<< 52) < 1 <<< 52 := Nat.mod_lt _ (by decide)
  have hexponent : (bits >>> 52) % (1 <<< 11) < 1 <<< 11 := Nat.mod_lt _ (by decide)
  unfold unpack
  dsimp only
  split
  · simp only [minExponent]
    omega
  · simp only [Int.ofNat_eq_natCast]
    omega

end Binary64

namespace Decimal

/-- A neighbour on a grid is at most one step above the value. -/
theorem Interval.le_of_onGrid {i : Interval} {p : Int} {k : Nat} (h : i.onGrid p = some k) :
    k ≤ i.value * Nat.pow 10 (-p).toNat + 1 := by
  have hdiv := Nat.div_le_self (i.value * Nat.pow 10 (-p).toNat) (i.den * Nat.pow 10 p.toNat)
  unfold onGrid at h
  dsimp only at h
  split at h <;> (try split at h) <;> cases h <;> omega

theorem Interval.search_bounds (i : Interval) (p : Int) (fuel : Nat) :
    (i.search p fuel).exponent ≤ max p 0 ∧ min (p - fuel) 0 ≤ (i.search p fuel).exponent ∧
      (i.search p fuel).digits ≤
        i.value * Nat.pow 10 (-(i.search p fuel).exponent).toNat + 1 := by
  induction fuel generalizing p with
  | zero =>
    refine ⟨Int.le_max_right p 0, Int.min_le_right _ 0, ?_⟩
    exact Nat.le_succ_of_le (Nat.le_trans (Nat.div_le_self _ _)
      (Nat.le_mul_of_pos_right _ (Nat.pow_pos (by decide))))
  | succ fuel ih =>
    unfold search
    cases hk : i.onGrid p with
    | none =>
      obtain ⟨hle, hge, hdigits⟩ := ih (p - 1)
      exact ⟨by dsimp only; omega, by dsimp only; omega, hdigits⟩
    | some k => exact ⟨by dsimp only; omega, by dsimp only; omega, i.le_of_onGrid hk⟩

theorem shortest_bounds (m : Nat) (q : Int) :
    (shortest m q).exponent ≤ max (exponentAbove m q) 0 ∧
      min (exponentAbove m q - 20) 0 ≤ (shortest m q).exponent ∧
      (shortest m q).digits ≤
        (Interval.of m q).value * Nat.pow 10 (-(shortest m q).exponent).toNat + 1 :=
  (Interval.of m q).search_bounds (exponentAbove m q) 20

theorem exponentAbove_bounds {m : Nat} {q : Int} (hm : m < 1 <<< 53) (hq : -1074 ≤ q)
    (hq' : q ≤ 972) :
    -330 ≤ exponentAbove m q ∧ exponentAbove m q ≤ 330 := by
  have hlog : m.log2 < 53 := by
    by_cases h0 : m = 0
    · subst h0
      decide
    · exact (Nat.log2_lt h0).mpr hm
  unfold exponentAbove
  omega

end Decimal

namespace FloatText

theorem length_positional_le {d : Decimal} {k : Nat} (hk : 0 < k) (hd : d.digits < Nat.pow 10 k) :
    (positional d).length ≤ k + d.exponent.natAbs + 2 := by
  have hlen := Numeral.length_ofNat_le hk hd
  unfold positional
  dsimp only
  split
  · rw [List.length_append, List.length_replicate]
    omega
  · split
    · simp only [List.length_append, List.length_cons, List.length_take, List.length_drop]
      omega
    · simp only [List.length_append, List.length_cons, List.length_replicate]
      omega

theorem length_ofFloat_le (x : Float) : (ofFloat x).length ≤ 2000 := by
  have hbits := Binary64.unpack_bounds x.toBits.toNat
  unfold ofFloat
  dsimp only
  generalize Binary64.unpack x.toBits.toNat = mq at hbits ⊢
  obtain ⟨m, q⟩ := mq
  obtain ⟨hm, hq, hq'⟩ := hbits
  dsimp only at hm hq hq' ⊢
  split
  · decide
  · have hp := Decimal.exponentAbove_bounds hm hq hq'
    have hd := Decimal.shortest_bounds m q
    generalize Decimal.shortest m q = d at hd ⊢
    obtain ⟨hle, hge, hdigits⟩ := hd
    have hvalue : (Decimal.Interval.of m q).value ≤ 10 ^ (56 + (q - 2).toNat) := by
      have hscale : 1 <<< (q - 2).toNat = 2 ^ (q - 2).toNat := Nat.one_shiftLeft _
      change 4 * m * (1 <<< (q - 2).toNat) ≤ _
      rw [hscale, Nat.pow_add]
      exact Nat.mul_le_mul (by omega) (Nat.pow_le_pow_left (by decide) _)
    have hsmall : d.digits < 10 ^ (57 + (q - 2).toNat + (-d.exponent).toNat) := by
      have hdigits : d.digits ≤
          (Decimal.Interval.of m q).value * 10 ^ (-d.exponent).toNat + 1 := hdigits
      have hmul := Nat.mul_le_mul_right (10 ^ (-d.exponent).toNat) hvalue
      have hpos : 0 < 10 ^ (56 + (q - 2).toNat + (-d.exponent).toNat) := Nat.pow_pos (by decide)
      rw [← Nat.pow_add] at hmul
      have hsucc : 57 + (q - 2).toNat + (-d.exponent).toNat =
          56 + (q - 2).toNat + (-d.exponent).toNat + 1 := by omega
      rw [hsucc, Nat.pow_succ]
      omega
    have hlen := length_positional_le (by omega) hsmall
    split
    · rw [List.length_cons]
      omega
    · omega

end FloatText

end ExpiringHash
