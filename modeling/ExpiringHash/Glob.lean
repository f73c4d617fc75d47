import ExpiringHash.Ascii

/-!
# Glob patterns

A pattern is read into tokens, left to right: a run of stars admits any piece of text, every other
token admits single bytes. The text matches if it can be cut into one admitted piece per token.
What stands between two stars is looked for from the left: its first place leaves the most text for
the rest, so no other place has to be tried. What stands after the last star has to end the text.
-/
namespace ExpiringHash.Glob

/-- An item of a class. -/
inductive Item where
  | byte (b : UInt8)
  /-- A range given by its two ends, in either order. -/
  | range (a b : UInt8)
deriving DecidableEq, Repr

/-- A part of a pattern that stands for one byte. -/
inductive Single where
  | any
  | literal (b : UInt8)
  | oneOf (negated : Bool) (items : List Item)
  /-- A class that is not closed; it admits no byte. -/
  | unclosed
deriving DecidableEq, Repr

inductive Token where
  | star
  | single (s : Single)
deriving DecidableEq, Repr

/-- The items of a class up to its closing bracket, and the pattern after it. A bracket closes the
class only where an item could start. -/
def items? : Bytes → Option (List Item × Bytes)
  | [] => none
  | Ascii.closeBracket :: rest => some ([], rest)
  | Ascii.backslash :: b :: rest => add (.byte b) (items? rest)
  | a :: Ascii.minus :: b :: rest =>
    if b = Ascii.closeBracket then add (.byte a) (items? (Ascii.minus :: b :: rest))
    else add (.range a b) (items? rest)
  | b :: rest => add (.byte b) (items? rest)
where
  add (i : Item) : Option (List Item × Bytes) → Option (List Item × Bytes) :=
    Option.map fun (is, rest) => (i :: is, rest)

theorem items?.of_add {i : Item} {found : Option (List Item × Bytes)} {is : List Item}
    {rest : Bytes} (h : items?.add i found = some (is, rest)) :
    ∃ js, found = some (js, rest) := by
  simp only [items?.add, Option.map_eq_some_iff, Prod.exists, Prod.mk.injEq] at h
  obtain ⟨js, r, hr, _, rfl⟩ := h
  exact ⟨js, hr⟩

theorem length_items? {bs rest : Bytes} {is : List Item} (h : items? bs = some (is, rest)) :
    rest.length < bs.length := by
  fun_induction items? bs generalizing is with
  | case1 => cases h
  | case2 =>
    cases h
    simp
  | case3 | case4 | case5 | case6 =>
    rename_i ih
    obtain ⟨_, h⟩ := items?.of_add h
    have := ih h
    simp only [List.length_cons] at this ⊢
    omega

/-- The class after an opening bracket, and the pattern after it. -/
def readClass (bs : Bytes) : Single × Bytes :=
  let (negated, body) := match bs with
    | Ascii.caret :: body => (true, body)
    | body => (false, body)
  match items? body with
  | some (is, rest) => (.oneOf negated is, rest)
  | none => (.unclosed, [])

theorem length_readClass_le (bs : Bytes) : (readClass bs).2.length ≤ bs.length := by
  unfold readClass
  split
  next negated body hb =>
    have hlen : body.length ≤ bs.length := by
      split at hb
      · cases hb
        simp
      · cases hb
        exact Nat.le_refl _
    split
    · next h => exact Nat.le_trans (Nat.le_of_lt (length_items? h)) hlen
    · simp

/-- A star in front of tokens; stars that follow each other are one token. -/
def consStar : List Token → List Token
  | .star :: ts => .star :: ts
  | ts => .star :: ts

/-- The tokens of a pattern. A backslash at the end of the pattern stands for itself. -/
def readTokens : Bytes → List Token
  | [] => []
  | Ascii.star :: rest => consStar (readTokens rest)
  | Ascii.question :: rest => .single .any :: readTokens rest
  | Ascii.openBracket :: rest => .single (readClass rest).1 :: readTokens (readClass rest).2
  | Ascii.backslash :: b :: rest => .single (.literal b) :: readTokens rest
  | b :: rest => .single (.literal b) :: readTokens rest
termination_by bs => bs.length
decreasing_by
  · simp
  · simp
  · exact Nat.lt_succ_of_le (length_readClass_le rest)
  · simp only [List.length_cons]
    omega
  · simp

/-- Whether an item holds a byte, both taken through `fold`. -/
def Item.holds (fold : UInt8 → UInt8) (t : UInt8) : Item → Bool
  | .byte b => fold b == fold t
  | .range a b => min (fold a) (fold b) ≤ fold t && fold t ≤ max (fold a) (fold b)

/-- Whether a token for one byte admits that byte. -/
def Single.admits (fold : UInt8 → UInt8) (t : UInt8) : Single → Bool
  | .any => true
  | .literal b => fold b == fold t
  | .oneOf negated is => (is.any fun i => i.holds fold t) != negated
  | .unclosed => false

/-- Cuts tokens at their stars: those before the first star, and those after each star. -/
def cutAtStars : List Token → List Single × List (List Single)
  | [] => ([], [])
  | .star :: ts =>
    let (first, parts) := cutAtStars ts
    ([], first :: parts)
  | .single s :: ts =>
    let (first, parts) := cutAtStars ts
    (s :: first, parts)

/-- The text after its first bytes, one for each token, if the tokens admit them. -/
def after? (fold : UInt8 → UInt8) : List Single → Bytes → Option Bytes
  | [], text => some text
  | _ :: _, [] => none
  | s :: ss, b :: text => if s.admits fold b then after? fold ss text else none

/-- The text after the first place at which the tokens admit the bytes. -/
def find? (fold : UInt8 → UInt8) (ss : List Single) (text : Bytes) : Option Bytes :=
  match after? fold ss text with
  | some rest => some rest
  | none =>
    match text with
    | [] => none
    | _ :: text => find? fold ss text

/-- Whether a text ends with bytes that the tokens admit. -/
def endsWith (fold : UInt8 → UInt8) (ss : List Single) (text : Bytes) : Bool :=
  (after? fold ss (text.drop (text.length - ss.length))).isSome

/-- Whether a text matches a star and the tokens after it, for each of the parts in turn. -/
def matchParts (fold : UInt8 → UInt8) : List (List Single) → Bytes → Bool
  | [], text => text.isEmpty
  | [last], text => endsWith fold last text
  | ss :: next :: parts, text =>
    match find? fold ss text with
    | some rest => matchParts fold (next :: parts) rest
    | none => false

/-- Whether tokens match a whole text. -/
def matchTokens (fold : UInt8 → UInt8) (ts : List Token) (text : Bytes) : Bool :=
  let (first, parts) := cutAtStars ts
  match after? fold first text with
  | some rest => matchParts fold parts rest
  | none => false

end Glob

/-- A pattern for names of fields. -/
structure Glob where
  tokens : List Glob.Token
  /-- Whether ASCII letters match in either case. -/
  ignoreCase : Bool
deriving DecidableEq, Repr

namespace Glob

def ofBytes (pattern : Bytes) (ignoreCase : Bool) : Glob := ⟨readTokens pattern, ignoreCase⟩

/-- How bytes are taken before they are compared. -/
def byteFold (g : Glob) : UInt8 → UInt8 := if g.ignoreCase then Bytes.foldByte else id

def isMatch (g : Glob) (text : Bytes) : Bool :=
  matchTokens g.byteFold g.tokens text

/-- Whether the pattern is nothing but stars. -/
def isMatchAll (g : Glob) : Bool := g.tokens == [.star]

end ExpiringHash.Glob
