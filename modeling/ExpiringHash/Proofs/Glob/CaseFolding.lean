import ExpiringHash.Proofs.Glob.Cuts

/-!
# Matching in either case

A pattern that ignores case matches a text exactly if the pattern in lower case matches the text in
lower case. No byte that has a meaning in patterns is a letter, so a pattern in lower case spells the
same tokens, their bytes in lower case, and a token admits the same bytes whether these are folded when
they are compared or before.
-/
namespace ExpiringHash

namespace Bytes

def isLower (b : UInt8) : Bool := 97 ≤ b && b ≤ 122

/-- The other case of an ASCII letter; every other byte is kept. -/
def otherCase (b : UInt8) : UInt8 := if isUpper b then b + 32 else if isLower b then b - 32 else b

/-- The second byte string is the first with any of its letters in the other case. -/
def Recased : Bytes → Bytes → Prop := List.Forall₂ fun a b => b = a ∨ b = otherCase a

instance : DecidableRel Recased := inferInstanceAs (DecidableRel (List.Forall₂ _))

theorem foldByte_otherCase (b : UInt8) : foldByte (otherCase b) = foldByte b := by
  unfold foldByte otherCase isUpper isLower
  grind

theorem Recased.fold_eq {as bs : Bytes} (h : Recased as bs) : fold bs = fold as := by
  induction h with
  | nil => rfl
  | cons hab _ ih =>
    refine congrArg₂ List.cons ?_ ih
    rcases hab with rfl | rfl
    · rfl
    · exact foldByte_otherCase _

/-- Only a byte that is no letter is folded to one that is none. -/
theorem foldByte_eq_iff {b s : UInt8} (hupper : isUpper s = false) (hlower : isLower s = false) :
    foldByte b = s ↔ b = s := by
  simp only [isUpper, isLower, Bool.and_eq_false_iff, decide_eq_false_iff_not] at hupper hlower
  unfold foldByte isUpper
  grind

end Bytes

namespace Glob

open Bytes

/-- An item with its bytes in lower case. -/
def Item.lower : Item → Item
  | .byte b => .byte (foldByte b)
  | .range a b => .range (foldByte a) (foldByte b)

def Single.lower : Single → Single
  | .any => .any
  | .literal b => .literal (foldByte b)
  | .oneOf negated is => .oneOf negated (is.map Item.lower)
  | .unclosed => .unclosed

def Token.lower : Token → Token
  | .star => .star
  | .single s => .single s.lower

variable {bs inner body : Bytes} {ts : List Token} {negated : Bool}

/-! ## The tokens of a pattern in lower case -/

theorem items?.add_lower (i : Item) (found : Option (List Item × Bytes)) :
    items?.add i.lower (found.map (Prod.map (List.map Item.lower) fold)) =
      (items?.add i found).map (Prod.map (List.map Item.lower) fold) := by
  cases found <;> rfl

theorem items?_fold (bs : Bytes) :
    items? (fold bs) = (items? bs).map (Prod.map (List.map Item.lower) fold) := by
  have hclose {b : UInt8} : foldByte b = Ascii.closeBracket ↔ b = Ascii.closeBracket :=
    foldByte_eq_iff rfl rfl
  have hescape {b : UInt8} : foldByte b = Ascii.backslash ↔ b = Ascii.backslash :=
    foldByte_eq_iff rfl rfl
  have hminus {b : UInt8} : foldByte b = Ascii.minus ↔ b = Ascii.minus := foldByte_eq_iff rfl rfl
  fun_induction items? bs with
  | case1 => rfl
  | case2 rest => exact items?.eq_2 (fold rest)
  | case3 b rest ih =>
    rw [← items?.add_lower, ← ih]
    exact items?.eq_3 (foldByte b) (fold rest)
  | case4 a rest ha ha' ih =>
    rw [← items?.add_lower]
    refine ((items?_minus (mt hclose.mp ha) (mt hescape.mp ha')).trans (if_pos rfl)).trans ?_
    exact congrArg _ ih
  | case5 a b rest ha ha' hb ih =>
    rw [← items?.add_lower, ← ih]
    exact (items?_minus (mt hclose.mp ha) (mt hescape.mp ha')).trans (if_neg (mt hclose.mp hb))
  | case6 b rest hb hb' hrange ih =>
    rw [← items?.add_lower, ← ih]
    refine items?.eq_5 (foldByte b) (fold rest) (mt hclose.mp hb) (fun c cs h hrest => ?_)
      fun c cs hrest => ?_
    · obtain ⟨c', cs', rfl, -⟩ := List.map_eq_cons_iff.mp hrest
      exact hb' c' cs' (hescape.mp h) rfl
    · obtain ⟨m, _, rfl, hm, htail⟩ := List.map_eq_cons_iff.mp hrest
      obtain ⟨c', cs', rfl, -⟩ := List.map_eq_cons_iff.mp htail
      exact hrange c' cs' (congrArg (· :: c' :: cs') (hminus.mp hm))

/-- A byte that has a meaning in patterns starts a pattern in lower case only if it starts the
pattern. -/
theorem head?_fold {s : UInt8} (hupper : isUpper s = false) (hlower : isLower s = false) :
    (fold bs).head? = some s ↔ bs.head? = some s := by
  rw [fold, List.head?_map, Option.map_eq_some_iff]
  constructor
  · rintro ⟨b, hb, hs⟩
    exact (foldByte_eq_iff hupper hlower).mp hs ▸ hb
  · intro h
    exact ⟨s, h, (foldByte_eq_iff hupper hlower).mpr rfl⟩

theorem OpensClass.fold (h : OpensClass inner negated body) :
    OpensClass (fold inner) negated (fold body) := by
  cases h with
  | negated => exact .negated (Bytes.fold body)
  | plain h => exact .plain (mt (head?_fold rfl rfl).mp h)

theorem Spells.fold (h : Spells bs ts) : Spells (fold bs) (ts.map Token.lower) := by
  induction h with
  | nil => exact .nil
  | @stars count bs ts hrun _ ih =>
    rw [Bytes.fold, List.map_append, List.map_replicate]
    exact .stars (mt (head?_fold rfl rfl).mp hrun) ih
  | any _ ih => exact .any ih
  | escaped _ ih => exact .escaped ih
  | oneOf hopen hitems _ ih =>
    refine .oneOf hopen.fold (items?_eq_some.mp ?_) ih
    rw [items?_fold, items?_eq_some.mpr hitems]
    rfl
  | unclosed hopen hitems =>
    refine .unclosed hopen.fold (items?_eq_none.mp ?_)
    rw [items?_fold, items?_eq_none.mpr hitems]
    rfl
  | literal hstar hany hclass hescape _ ih =>
    refine .literal (mt (foldByte_eq_iff rfl rfl).mp hstar) (mt (foldByte_eq_iff rfl rfl).mp hany)
      (mt (foldByte_eq_iff rfl rfl).mp hclass) (fun h => ?_) ih
    rw [hescape ((foldByte_eq_iff rfl rfl).mp h)]
    rfl

theorem readTokens_fold (p : Bytes) : readTokens (fold p) = (readTokens p).map Token.lower :=
  (spells_readTokens p).fold.eq_readTokens.symm

/-! ## Folding before or while bytes are compared -/

theorem Item.holds_lower (i : Item) (t : UInt8) :
    i.lower.holds id (foldByte t) = i.holds foldByte t := by
  cases i <;> rfl

theorem Single.admits_lower (s : Single) (t : UInt8) :
    s.lower.admits id (foldByte t) = s.admits foldByte t := by
  cases s with
  | oneOf negated is =>
    simp only [lower, admits, List.any_map, Function.comp_def, Item.holds_lower]
  | any | literal | unclosed => rfl

theorem cuts_lower (ts : List Token) (text : Bytes) :
    Cuts id (ts.map Token.lower) (fold text) ↔ Cuts foldByte ts text := by
  induction ts generalizing text with
  | nil => rw [List.map_nil, cuts_nil, cuts_nil, fold, List.map_eq_nil_iff]
  | cons token ts ih =>
    rw [List.map_cons]
    cases token with
    | star =>
      rw [Token.lower, cuts_star, cuts_star]
      constructor
      · rintro ⟨_, hfolded, hts⟩
        obtain ⟨rest, hsuffix, rfl⟩ := List.suffix_map_iff.mp hfolded
        exact ⟨rest, hsuffix, (ih rest).mp hts⟩
      · rintro ⟨rest, hsuffix, hts⟩
        exact ⟨fold rest, hsuffix.map foldByte, (ih rest).mpr hts⟩
    | single s =>
      have hadmits (t : UInt8) : s.lower.Admits id (foldByte t) ↔ s.Admits foldByte t := by
        rw [← Single.admits_iff, ← Single.admits_iff, Single.admits_lower]
      rw [Token.lower, cuts_single, cuts_single]
      constructor
      · rintro ⟨_, _, htext, hs, hts⟩
        obtain ⟨t, rest, rfl, rfl, rfl⟩ := List.map_eq_cons_iff.mp htext.symm
        exact ⟨t, rest, rfl, (hadmits t).mp hs, (ih rest).mp hts⟩
      · rintro ⟨t, rest, rfl, hs, hts⟩
        exact ⟨foldByte t, fold rest, rfl, (hadmits t).mpr hs, (ih rest).mpr hts⟩

theorem isMatch_fold (pattern text : Bytes) :
    (ofBytes (fold pattern) false).isMatch (fold text) = (ofBytes pattern true).isMatch text := by
  refine Bool.eq_iff_iff.mpr (matchTokens_iff.trans (.trans ?_ matchTokens_iff.symm))
  change Cuts id (readTokens (fold pattern)) (fold text) ↔ Cuts foldByte (readTokens pattern) text
  rw [readTokens_fold, cuts_lower]

/-- Matching in either case is matching in lower case. So it makes no difference in which case the
letters of a text or a pattern are written, be it in a class, at the end of a range or after a
backslash. -/
theorem isMatch_in_either_case (pattern text : Bytes) :
    (ofBytes pattern true).isMatch text =
        (ofBytes (fold pattern) false).isMatch (fold text) ∧
      ∀ pattern' text', Recased pattern pattern' → Recased text text' →
        (ofBytes pattern' true).isMatch text' = (ofBytes pattern true).isMatch text := by
  refine ⟨(isMatch_fold pattern text).symm, fun pattern' text' hpattern htext => ?_⟩
  rw [← isMatch_fold pattern', ← isMatch_fold pattern, hpattern.fold_eq, htext.fold_eq]

/-- The pattern `[^\Bd-F]*z` and the text `CxZ`, some letters of each in the other case. -/
theorem isMatch_in_either_case_class :
    let pattern := ofString "[^\\Bd-F]*z"
    let pattern' := ofString "[^\\bD-F]*Z"
    Recased pattern pattern' ∧ Recased (ofString "CxZ") (ofString "cXZ") ∧
      (ofBytes pattern true).isMatch (ofString "CxZ") = true ∧
      (ofBytes pattern' true).isMatch (ofString "cXZ") = true ∧
      (ofBytes pattern false).isMatch (ofString "CxZ") = false := by
  intro pattern pattern'
  have hpattern : Recased pattern pattern' := by decide +kernel
  have htext : Recased (ofString "CxZ") (ofString "cXZ") := by decide +kernel
  have hmatch : (ofBytes pattern true).isMatch (ofString "CxZ") = true := by decide +kernel
  refine ⟨hpattern, htext, hmatch, ?_, by decide +kernel⟩
  exact ((isMatch_in_either_case pattern (ofString "CxZ")).2 _ _ hpattern htext).trans hmatch

end Glob
end ExpiringHash
