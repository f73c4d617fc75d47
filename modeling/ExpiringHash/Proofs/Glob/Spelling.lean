import ExpiringHash.Glob

/-!
# How tokens are spelled

The grammar of patterns: which bytes spell which tokens. A bracket opens a class, the class goes on to
the first bracket that stands where an item could start, and a class that has none takes the rest of
the pattern. Every pattern spells the tokens that are read from it, and no others.
-/
namespace ExpiringHash.Glob

/-- Bytes that spell the items of a class, and those that follow its closing bracket. -/
inductive SpellsItems : Bytes → List Item → Bytes → Prop
  | close (rest : Bytes) : SpellsItems (Ascii.closeBracket :: rest) [] rest
  | escaped {b : UInt8} {bs rest : Bytes} {is : List Item} (h : SpellsItems bs is rest) :
      SpellsItems (Ascii.backslash :: b :: bs) (.byte b :: is) rest
  | range {a b : UInt8} {bs rest : Bytes} {is : List Item} (hclose : a ≠ Ascii.closeBracket)
      (hescape : a ≠ Ascii.backslash) (hend : b ≠ Ascii.closeBracket) (h : SpellsItems bs is rest) :
      SpellsItems (a :: Ascii.minus :: b :: bs) (.range a b :: is) rest
  | byte {b : UInt8} {bs rest : Bytes} {is : List Item} (hclose : b ≠ Ascii.closeBracket)
      (hescape : b ≠ Ascii.backslash)
      (hrange : ∀ c cs, bs = Ascii.minus :: c :: cs → c = Ascii.closeBracket)
      (h : SpellsItems bs is rest) : SpellsItems (b :: bs) (.byte b :: is) rest

/-- What follows the opening bracket of a class: whether it is negated, and its items. -/
inductive OpensClass : Bytes → Bool → Bytes → Prop
  | negated (body : Bytes) : OpensClass (Ascii.caret :: body) true body
  | plain {body : Bytes} (h : body.head? ≠ some Ascii.caret) : OpensClass body false body

/-- Bytes that spell tokens. -/
inductive Spells : Bytes → List Token → Prop
  | nil : Spells [] []
  | stars {count : Nat} {bs : Bytes} {ts : List Token} (hrun : bs.head? ≠ some Ascii.star)
      (h : Spells bs ts) : Spells (List.replicate (count + 1) Ascii.star ++ bs) (.star :: ts)
  | any {bs : Bytes} {ts : List Token} (h : Spells bs ts) :
      Spells (Ascii.question :: bs) (.single .any :: ts)
  | escaped {b : UInt8} {bs : Bytes} {ts : List Token} (h : Spells bs ts) :
      Spells (Ascii.backslash :: b :: bs) (.single (.literal b) :: ts)
  | oneOf {inner body bs : Bytes} {negated : Bool} {is : List Item} {ts : List Token}
      (hopen : OpensClass inner negated body) (hitems : SpellsItems body is bs) (h : Spells bs ts) :
      Spells (Ascii.openBracket :: inner) (.single (.oneOf negated is) :: ts)
  | unclosed {inner body : Bytes} {negated : Bool} (hopen : OpensClass inner negated body)
      (hitems : ∀ is bs, ¬SpellsItems body is bs) :
      Spells (Ascii.openBracket :: inner) [.single .unclosed]
  | literal {b : UInt8} {bs : Bytes} {ts : List Token} (hstar : b ≠ Ascii.star)
      (hany : b ≠ Ascii.question) (hclass : b ≠ Ascii.openBracket)
      (hescape : b = Ascii.backslash → bs = []) (h : Spells bs ts) :
      Spells (b :: bs) (.single (.literal b) :: ts)

variable {bs inner body rest : Bytes} {is : List Item} {ts : List Token} {negated : Bool}

theorem items?.add_eq_some {i : Item} {found : Option (List Item × Bytes)} :
    items?.add i found = some (is, rest) ↔ ∃ js, found = some (js, rest) ∧ is = i :: js := by
  simp only [items?.add, Option.map_eq_some_iff, Prod.exists, Prod.mk.injEq]
  constructor
  · rintro ⟨js, _, hfound, rfl, rfl⟩
    exact ⟨js, hfound, rfl⟩
  · rintro ⟨js, hfound, rfl⟩
    exact ⟨js, rest, hfound, rfl, rfl⟩

theorem spellsItems_of_items? (h : items? bs = some (is, rest)) : SpellsItems bs is rest := by
  fun_induction items? bs generalizing is with
  | case1 => cases h
  | case2 =>
    cases h
    exact .close _
  | case3 b bs ih =>
    obtain ⟨js, hfound, rfl⟩ := items?.add_eq_some.mp h
    exact .escaped (ih hfound)
  | case4 a bs hclose hescape ih =>
    obtain ⟨js, hfound, rfl⟩ := items?.add_eq_some.mp h
    refine .byte hclose hescape ?_ (ih hfound)
    rintro c cs ⟨rfl, rfl⟩
    rfl
  | case5 a b bs hclose hescape hend ih =>
    obtain ⟨js, hfound, rfl⟩ := items?.add_eq_some.mp h
    exact .range hclose hescape hend (ih hfound)
  | case6 b bs hclose hescape hrange ih =>
    obtain ⟨js, hfound, rfl⟩ := items?.add_eq_some.mp h
    -- an escape that ends the pattern leaves no room for the closing bracket
    refine .byte hclose ?_ (fun c cs hbs => (hrange c cs hbs).elim) (ih hfound)
    rintro rfl
    cases bs with
    | nil => cases hfound
    | cons c cs => exact hescape c cs rfl rfl

theorem items?_minus {a b : UInt8} (hclose : a ≠ Ascii.closeBracket) (hescape : a ≠ Ascii.backslash) :
    items? (a :: Ascii.minus :: b :: bs) =
      if b = Ascii.closeBracket then items?.add (.byte a) (items? (Ascii.minus :: b :: bs))
      else items?.add (.range a b) (items? bs) :=
  items?.eq_4 a b bs hclose hescape

theorem items?_of_spellsItems (h : SpellsItems bs is rest) : items? bs = some (is, rest) := by
  induction h with
  | close => exact items?.eq_2 _
  | escaped _ ih => exact (items?.eq_3 _ _).trans (items?.add_eq_some.mpr ⟨_, ih, rfl⟩)
  | range hclose hescape hend _ ih =>
    rw [items?_minus hclose hescape, if_neg hend]
    exact items?.add_eq_some.mpr ⟨_, ih, rfl⟩
  | @byte b bs rest is hclose hescape hrange _ ih =>
    by_cases hbs : ∃ c cs, bs = Ascii.minus :: c :: cs
    · obtain ⟨c, cs, rfl⟩ := hbs
      rw [items?_minus hclose hescape, if_pos (hrange c cs rfl)]
      exact items?.add_eq_some.mpr ⟨_, ih, rfl⟩
    · rw [items?.eq_5 _ _ hclose (fun _ _ h _ => hescape h) fun c cs h => hbs ⟨c, cs, h⟩]
      exact items?.add_eq_some.mpr ⟨_, ih, rfl⟩

theorem items?_eq_some : items? bs = some (is, rest) ↔ SpellsItems bs is rest :=
  ⟨spellsItems_of_items?, items?_of_spellsItems⟩

theorem items?_eq_none : items? bs = none ↔ ∀ is rest, ¬SpellsItems bs is rest := by
  simp only [← items?_eq_some, Option.eq_none_iff_forall_ne_some, Prod.forall, ne_eq]

/-- What stands in a class, once it is known whether the class is negated. -/
theorem readClass_eq (h : OpensClass inner negated body) :
    readClass inner = match items? body with
      | some (is, rest) => (.oneOf negated is, rest)
      | none => (.unclosed, []) := by
  cases h with
  | negated => rfl
  | plain h =>
    unfold readClass
    split
    next hinner =>
    split at hinner
    · exact absurd rfl h
    · cases hinner
      rfl

theorem exists_opensClass (inner : Bytes) : ∃ negated body, OpensClass inner negated body := by
  by_cases h : inner.head? = some Ascii.caret
  · obtain ⟨body, rfl⟩ := List.head?_eq_some_iff.mp h
    exact ⟨true, body, .negated body⟩
  · exact ⟨false, inner, .plain h⟩

theorem readTokens_star (bs : Bytes) : readTokens (Ascii.star :: bs) = consStar (readTokens bs) :=
  readTokens.eq_2 bs

theorem readTokens_openBracket (bs : Bytes) :
    readTokens (Ascii.openBracket :: bs) = .single (readClass bs).1 :: readTokens (readClass bs).2 :=
  readTokens.eq_4 bs

theorem consStar_of_head? (h : ts.head? ≠ some .star) : consStar ts = .star :: ts := by
  unfold consStar
  split
  · exact absurd rfl h
  · rfl

theorem head?_readTokens (h : bs.head? ≠ some Ascii.star) : (readTokens bs).head? ≠ some .star := by
  fun_cases readTokens bs with
  | case2 => exact absurd rfl h
  | case1 | case3 | case4 | case5 | case6 => simp

theorem readTokens_stars (count : Nat) (h : bs.head? ≠ some Ascii.star) :
    readTokens (List.replicate (count + 1) Ascii.star ++ bs) = .star :: readTokens bs := by
  induction count with
  | zero => exact (readTokens_star bs).trans (consStar_of_head? (head?_readTokens h))
  | succ count ih =>
    rw [List.replicate_succ, List.cons_append, readTokens_star, ih, consStar]

/-- Tokens that start with a star are spelled by bytes that do. -/
theorem Spells.head_star (h : Spells (Ascii.star :: bs) ts) : ts.head? = some .star := by
  generalize hbs : Ascii.star :: bs = p at h
  cases h with
  | nil => cases hbs
  | stars => rfl
  | any => simp [Ascii.star, Ascii.question] at hbs
  | escaped => simp [Ascii.star, Ascii.backslash] at hbs
  | oneOf => simp [Ascii.star, Ascii.openBracket] at hbs
  | unclosed => simp [Ascii.star, Ascii.openBracket] at hbs
  | literal hstar =>
    cases hbs
    exact absurd rfl hstar

/-- One more star in front of a run of stars is part of the run. -/
theorem Spells.star_cons (h : Spells bs ts) : Spells (Ascii.star :: bs) (consStar ts) := by
  by_cases hts : ts.head? = some .star
  · obtain ⟨us, rfl⟩ := List.head?_eq_some_iff.mp hts
    cases h with
    | @stars count bs _ hrun h =>
      change Spells (List.replicate (count + 1 + 1) Ascii.star ++ bs) _
      exact .stars hrun h
  · rw [consStar_of_head? hts]
    change Spells (List.replicate (0 + 1) Ascii.star ++ bs) _
    refine .stars (fun hbs => ?_) h
    obtain ⟨cs, rfl⟩ := List.head?_eq_some_iff.mp hbs
    exact hts h.head_star

theorem spells_readTokens (p : Bytes) : Spells p (readTokens p) := by
  fun_induction readTokens p with
  | case1 => exact .nil
  | case2 bs ih => exact ih.star_cons
  | case3 bs ih => exact .any ih
  | case4 inner ih =>
    obtain ⟨negated, body, hopen⟩ := exists_opensClass inner
    rw [readClass_eq hopen] at ih ⊢
    match hitems : items? body with
    | some (is, bs) =>
      simp only [hitems] at ih ⊢
      exact .oneOf hopen (items?_eq_some.mp hitems) ih
    | none =>
      simp only [hitems] at ih ⊢
      rw [readTokens]
      exact .unclosed hopen (items?_eq_none.mp hitems)
  | case5 b bs ih => exact .escaped ih
  | case6 b bs hstar hany hclass hescape ih =>
    refine .literal hstar hany hclass (fun hb => ?_) ih
    cases bs with
    | nil => rfl
    | cons c cs => exact (hescape c cs hb rfl).elim

theorem Spells.eq_readTokens (h : Spells bs ts) : ts = readTokens bs := by
  induction h with
  | nil => rw [readTokens]
  | stars hrun _ ih => rw [readTokens_stars _ hrun, ← ih]
  | any _ ih => exact (congrArg _ ih).trans (readTokens.eq_3 _).symm
  | escaped _ ih => exact (congrArg _ ih).trans (readTokens.eq_5 _ _).symm
  | oneOf hopen hitems _ ih =>
    rw [readTokens_openBracket, readClass_eq hopen, items?_eq_some.mpr hitems, ih]
  | unclosed hopen hitems =>
    rw [readTokens_openBracket, readClass_eq hopen, items?_eq_none.mpr hitems, readTokens]
  | literal hstar hany hclass hescape _ ih =>
    rw [readTokens.eq_6 _ _ hstar hany hclass, ih]
    rintro c cs hb rfl
    cases hescape hb

/-- Every pattern spells exactly the tokens that are read from it. -/
theorem spells_iff (p : Bytes) : Spells p ts ↔ ts = readTokens p :=
  ⟨Spells.eq_readTokens, fun h => h ▸ spells_readTokens p⟩

end ExpiringHash.Glob
