import ExpiringHash.Proofs.Glob.Spelling
import Mathlib.Data.List.Forall2

/-!
# Matching and cutting

A text matches a pattern exactly if it can be cut into one piece for each token of the pattern: any
piece for a star, one admitted byte for every other token. The matcher tries one place only for what
stands between two stars, the first one. This loses nothing, as the next star takes up whatever a later
place would have skipped.
-/
namespace ExpiringHash.Glob

/-- The items that hold a byte; a range may be given from either end. -/
inductive Item.Holds (fold : UInt8 → UInt8) (t : UInt8) : Item → Prop
  | byte {b : UInt8} (h : fold b = fold t) : Holds fold t (.byte b)
  | upwards {a b : UInt8} (hlow : fold a ≤ fold t) (hhigh : fold t ≤ fold b) :
      Holds fold t (.range a b)
  | downwards {a b : UInt8} (hlow : fold b ≤ fold t) (hhigh : fold t ≤ fold a) :
      Holds fold t (.range a b)

def Single.Admits (fold : UInt8 → UInt8) (t : UInt8) : Single → Prop
  | .any => True
  | .literal b => fold b = fold t
  | .oneOf negated is => (∃ i ∈ is, i.Holds fold t) ↔ negated = false
  | .unclosed => False

/-- Whether a token takes a piece of text. -/
def Token.Takes (fold : UInt8 → UInt8) : Token → Bytes → Prop
  | .star, _ => True
  | .single s, piece => ∃ t, piece = [t] ∧ s.Admits fold t

/-- Whether a text can be cut into consecutive pieces, one for each token. -/
def Cuts (fold : UInt8 → UInt8) (ts : List Token) (text : Bytes) : Prop :=
  ∃ pieces : List Bytes, pieces.flatten = text ∧ List.Forall₂ (Token.Takes fold) ts pieces

variable {fold : UInt8 → UInt8} {t : UInt8} {ss : List Single} {ts : List Token}
  {text rest : Bytes} {parts : List (List Single)}

theorem between_iff {a b c : UInt8} :
    min a b ≤ c ∧ c ≤ max a b ↔ (a ≤ c ∧ c ≤ b) ∨ (b ≤ c ∧ c ≤ a) := by
  rw [show min a b = if a ≤ b then a else b from rfl, show max a b = if a ≤ b then b else a from rfl]
  simp only [UInt8.le_iff_toNat_le]
  split <;> omega

theorem Item.holds_iff {i : Item} : i.holds fold t = true ↔ i.Holds fold t := by
  cases i with
  | byte b =>
    rw [holds, beq_iff_eq]
    exact ⟨.byte, fun | .byte h => h⟩
  | range a b =>
    rw [holds, Bool.and_eq_true, decide_eq_true_eq, decide_eq_true_eq, between_iff]
    constructor
    · rintro (⟨hlow, hhigh⟩ | ⟨hlow, hhigh⟩)
      · exact .upwards hlow hhigh
      · exact .downwards hlow hhigh
    · rintro (_ | ⟨hlow, hhigh⟩ | ⟨hlow, hhigh⟩)
      · exact .inl ⟨hlow, hhigh⟩
      · exact .inr ⟨hlow, hhigh⟩

theorem Single.admits_iff {s : Single} : s.admits fold t = true ↔ s.Admits fold t := by
  cases s with
  | any => simp [admits, Admits]
  | literal b => simp [admits, Admits]
  | oneOf negated is =>
    simp only [admits, Admits, ← Item.holds_iff, ← List.any_eq_true, bne_iff_ne]
    cases is.any fun i => i.holds fold t <;> cases negated <;> simp
  | unclosed => simp [admits, Admits]

theorem cuts_nil : Cuts fold [] text ↔ text = [] := by
  simp [Cuts, eq_comm]

theorem cuts_cons {token : Token} :
    Cuts fold (token :: ts) text ↔
      ∃ piece rest, piece ++ rest = text ∧ token.Takes fold piece ∧ Cuts fold ts rest := by
  simp only [Cuts, List.forall₂_cons_left_iff]
  constructor
  · rintro ⟨_, rfl, piece, pieces, htakes, hts, rfl⟩
    exact ⟨piece, pieces.flatten, rfl, htakes, pieces, rfl, hts⟩
  · rintro ⟨piece, _, rfl, htakes, pieces, rfl, hts⟩
    exact ⟨piece :: pieces, rfl, piece, pieces, htakes, hts, rfl⟩

theorem cuts_single {s : Single} :
    Cuts fold (.single s :: ts) text ↔
      ∃ t rest, t :: rest = text ∧ s.Admits fold t ∧ Cuts fold ts rest := by
  rw [cuts_cons]
  constructor
  · rintro ⟨_, rest, rfl, ⟨t, rfl, hadmits⟩, hts⟩
    exact ⟨t, rest, rfl, hadmits, hts⟩
  · rintro ⟨t, rest, rfl, hadmits, hts⟩
    exact ⟨[t], rest, rfl, ⟨t, rfl, hadmits⟩, hts⟩

theorem cuts_star : Cuts fold (.star :: ts) text ↔ ∃ rest, rest <:+ text ∧ Cuts fold ts rest := by
  rw [cuts_cons]
  constructor
  · rintro ⟨piece, rest, rfl, -, hts⟩
    exact ⟨rest, List.suffix_append piece rest, hts⟩
  · rintro ⟨rest, ⟨piece, rfl⟩, hts⟩
    exact ⟨piece, rest, rfl, trivial, hts⟩

/-- A star takes up what stands in front of a text that can be cut. -/
theorem Cuts.of_suffix (h : Cuts fold (.star :: ts) rest) (hsuffix : rest <:+ text) :
    Cuts fold (.star :: ts) text := by
  obtain ⟨last, hlast, hts⟩ := cuts_star.mp h
  exact cuts_star.mpr ⟨last, hlast.trans hsuffix, hts⟩

theorem cuts_star_iff_or :
    Cuts fold (.star :: ts) text ↔ Cuts fold ts text ∨ Cuts fold (.star :: ts) text.tail := by
  constructor
  · intro h
    obtain ⟨rest, hsuffix, hts⟩ := cuts_star.mp h
    cases text with
    | nil =>
      cases List.suffix_nil.mp hsuffix
      exact .inl hts
    | cons t text =>
      obtain rfl | hsuffix := List.suffix_cons_iff.mp hsuffix
      · exact .inl hts
      · exact .inr (cuts_star.mpr ⟨rest, hsuffix, hts⟩)
  · rintro (hts | h)
    · exact cuts_star.mpr ⟨text, List.suffix_refl text, hts⟩
    · exact h.of_suffix (List.tail_suffix text)

/-! ## The pieces between the stars -/

/-- Stars, each followed by tokens for single bytes. -/
def starred (parts : List (List Single)) : List Token :=
  parts.flatMap fun ss => .star :: ss.map .single

theorem starred_cons : starred (ss :: parts) = .star :: (ss.map .single ++ starred parts) := rfl

theorem cutAtStars_append (ts : List Token) :
    (cutAtStars ts).1.map .single ++ starred (cutAtStars ts).2 = ts := by
  induction ts with
  | nil => rfl
  | cons token ts ih =>
    cases token with
    | star => exact congrArg (Token.star :: ·) ih
    | single s => exact congrArg (Token.single s :: ·) ih

theorem cuts_singles_append :
    Cuts fold (ss.map .single ++ ts) text ↔
      ∃ rest, after? fold ss text = some rest ∧ Cuts fold ts rest := by
  fun_induction after? fold ss text with
  | case1 text => simp
  | case2 s ss => simp [cuts_single]
  | case3 s ss t text hadmits ih =>
    simp [cuts_single, ← Single.admits_iff, hadmits, ih]
  | case4 s ss t text hadmits =>
    simp [cuts_single, ← Single.admits_iff, hadmits]

theorem after?_eq_some_drop (h : after? fold ss text = some rest) : rest = text.drop ss.length := by
  fun_induction after? fold ss text with
  | case1 text => simpa using h.symm
  | case2 s ss => cases h
  | case3 s ss t text hadmits ih => exact ih h
  | case4 s ss t text hadmits => cases h

theorem length_le_of_after? (h : after? fold ss text = some rest) : ss.length ≤ text.length := by
  fun_induction after? fold ss text with
  | case1 text => simp
  | case2 s ss => cases h
  | case3 s ss t text hadmits ih => exact Nat.succ_le_succ (ih h)
  | case4 s ss t text hadmits => cases h

/-- Later places leave less of the text. -/
theorem after?_suffix {later last : Bytes} (hsuffix : later <:+ text)
    (h : after? fold ss text = some rest) (hlater : after? fold ss later = some last) :
    last <:+ rest := by
  obtain ⟨skipped, rfl⟩ : ∃ skipped, later = text.drop skipped :=
    ⟨_, List.suffix_iff_eq_drop.mp hsuffix⟩
  rw [after?_eq_some_drop h, after?_eq_some_drop hlater, List.drop_drop, Nat.add_comm,
    ← List.drop_drop]
  exact List.drop_suffix skipped _

theorem cuts_star_singles_star :
    Cuts fold (.star :: (ss.map .single ++ .star :: ts)) text ↔
      ∃ rest, find? fold ss text = some rest ∧ Cuts fold (.star :: ts) rest := by
  fun_induction find? fold ss text with
  | case1 text first hfirst =>
    constructor
    · intro h
      obtain ⟨later, hsuffix, h⟩ := cuts_star.mp h
      obtain ⟨last, hlast, hts⟩ := cuts_singles_append.mp h
      exact ⟨first, rfl, hts.of_suffix (after?_suffix hsuffix hfirst hlast)⟩
    · rintro ⟨_, ⟨⟩, hts⟩
      exact cuts_star.mpr ⟨text, List.suffix_refl text, cuts_singles_append.mpr ⟨first, hfirst, hts⟩⟩
  | case2 hnone =>
    rw [cuts_star]
    simp [cuts_singles_append, hnone]
  | case3 t text hnone ih =>
    rw [cuts_star_iff_or, List.tail_cons, ih]
    simp [cuts_singles_append, hnone]

theorem cuts_star_singles :
    Cuts fold (.star :: ss.map .single) text ↔ endsWith fold ss text = true := by
  have hcuts : ∀ later, Cuts fold (ss.map .single) later ↔ after? fold ss later = some [] := by
    intro later
    rw [← List.append_nil (ss.map Token.single), cuts_singles_append]
    simp [cuts_nil]
  rw [cuts_star, endsWith, Option.isSome_iff_exists]
  constructor
  · rintro ⟨later, hsuffix, h⟩
    have hafter := (hcuts later).mp h
    have hlength : later.length = ss.length := by
      have hle := length_le_of_after? hafter
      have hdrop := congrArg List.length (after?_eq_some_drop hafter)
      rw [List.length_nil, List.length_drop] at hdrop
      omega
    rw [← hlength, ← List.suffix_iff_eq_drop.mp hsuffix]
    exact ⟨[], hafter⟩
  · rintro ⟨rest, h⟩
    have hrest : rest = [] := by
      have hdrop := congrArg List.length (after?_eq_some_drop h)
      simp only [List.length_drop] at hdrop
      exact List.eq_nil_of_length_eq_zero (by omega)
    rw [hrest] at h
    exact ⟨_, List.drop_suffix (text.length - ss.length) text, (hcuts _).mpr h⟩

theorem matchParts_iff : matchParts fold parts text = true ↔ Cuts fold (starred parts) text := by
  fun_induction matchParts fold parts text with
  | case1 text => simp [starred, cuts_nil]
  | case2 last text => simp [starred, cuts_star_singles]
  | case3 ss next parts text rest hfind ih =>
    rw [ih, starred_cons, starred_cons, starred_cons, cuts_star_singles_star]
    simp [hfind]
  | case4 ss next parts text hfind =>
    rw [starred_cons, starred_cons, cuts_star_singles_star]
    simp [hfind]

theorem matchTokens_iff : matchTokens fold ts text = true ↔ Cuts fold ts text := by
  rw [← congrArg (Cuts fold · text) (cutAtStars_append ts), cuts_singles_append, matchTokens]
  cases hafter : after? fold (cutAtStars ts).1 text with
  | none => simp [hafter]
  | some rest => simp [hafter, matchParts_iff]

/-! ## Patterns that match everything -/

/-- A pattern that can be cut out of nothing is a run of stars, or nothing itself. -/
theorem eq_star_of_cuts_nil {p : Bytes} (hspells : Spells p ts) (h : Cuts fold ts []) :
    ts = [] ∨ ts = [.star] := by
  cases hspells with
  | nil => exact .inl rfl
  | @stars count bs ts hrun hts =>
    obtain ⟨rest, hsuffix, h⟩ := cuts_star.mp h
    cases List.suffix_nil.mp hsuffix
    cases ts with
    | nil => exact .inr rfl
    | cons token ts =>
      cases token with
      | star => exact absurd (hts.eq_readTokens ▸ rfl) (head?_readTokens hrun)
      | single s => simp [cuts_single] at h
  | any | escaped | oneOf | unclosed | literal => simp [cuts_single] at h

theorem eq_star_iff_cuts {p : Bytes} (hspells : Spells p ts) :
    ts = [.star] ↔ ∀ text, Cuts fold ts text := by
  constructor
  · rintro rfl text
    exact cuts_star.mpr ⟨[], List.nil_suffix, cuts_nil.mpr rfl⟩
  · intro h
    refine (eq_star_of_cuts_nil hspells (h [])).resolve_left ?_
    rintro rfl
    cases cuts_nil.mp (h [0])

/-- How bytes are compared in a case mode: as they are, or in lower case. -/
def caseFold (ignoreCase : Bool) : UInt8 → UInt8 := if ignoreCase then Bytes.foldByte else id

/-- A pattern has one reading as tokens. A text matches exactly if it can be cut into one piece for
each of them, and the pattern is recognized as one for everything exactly if every text matches. -/
theorem isMatch_iff_cuts (pattern : Bytes) (ignoreCase : Bool) :
    ∃ tokens, (∀ ts, Spells pattern ts ↔ ts = tokens) ∧
      (∀ text, (ofBytes pattern ignoreCase).isMatch text = true ↔
        Cuts (caseFold ignoreCase) tokens text) ∧
      ((ofBytes pattern ignoreCase).isMatchAll = true ↔
        ∀ text, (ofBytes pattern ignoreCase).isMatch text = true) := by
  have hmatch : ∀ text, (ofBytes pattern ignoreCase).isMatch text = true ↔
      Cuts (caseFold ignoreCase) (readTokens pattern) text := fun text => matchTokens_iff
  refine ⟨readTokens pattern, fun ts => spells_iff pattern, hmatch, ?_⟩
  simp only [hmatch, ← eq_star_iff_cuts (spells_readTokens pattern)]
  exact beq_iff_eq

end ExpiringHash.Glob
