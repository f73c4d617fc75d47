import ExpiringHash.Proofs.Wire.Grammar
import ExpiringHash.Wire.Stream

/-!
# Reading what spells a frame

A reader reads an encoding if it takes the encoding off the front of any buffer, and asks for more
as long as the buffer holds a part of it only. Readers that follow each other read encodings that
follow each other, and so the reader of frames reads whatever spells a frame, the wire form of every
command that is not too large among it.
-/
namespace ExpiringHash

/-- What begins two lists after each other ends within the first, or goes on into the second. -/
theorem prefix_append_cases {α : Type} {l as bs : List α} (h : l <+: as ++ bs) :
    (l <+: as ∧ l ≠ as) ∨ ∃ rest, l = as ++ rest ∧ rest <+: bs := by
  rcases Nat.le_total as.length l.length with hle | hle
  · obtain ⟨rest, rfl⟩ := List.prefix_of_prefix_length_le (List.prefix_append as bs) h hle
    exact .inr ⟨rest, rfl, (List.prefix_append_right_inj as).mp h⟩
  · have hl := List.prefix_of_prefix_length_le h (List.prefix_append as bs) hle
    by_cases he : l = as
    · exact .inr ⟨[], he.trans (List.append_nil as).symm, List.nil_prefix⟩
    · exact .inl ⟨hl, he⟩

namespace Frame

variable {α β : Type} {a : α} {b : β} {encoding encoding' : Bytes}

/-- The reader takes an encoding off the front of a buffer, and asks for more until it is whole. -/
structure Reads (read : Bytes → Reading α) (encoding : Bytes) (a : α) : Prop where
  whole : ∀ rest, read (encoding ++ rest) = .ok (some (a, rest))
  cut : ∀ bs, bs <+: encoding → bs ≠ encoding → read bs = .ok none

namespace Reads

variable {read : Bytes → Reading α} {read' : Bytes → Reading β}

/-- Readers that follow each other. -/
theorem seq {next : Bytes → Reading β} (h : Reads read encoding a) (h' : Reads next encoding' b)
    (hsome : ∀ bs rest, read bs = .ok (some (a, rest)) → read' bs = next rest)
    (hnone : ∀ bs, read bs = .ok none → read' bs = .ok none) :
    Reads read' (encoding ++ encoding') b where
  whole rest := by
    rw [List.append_assoc, hsome _ _ (h.whole _)]
    exact h'.whole rest
  cut bs hbs hne := by
    rcases prefix_append_cases hbs with ⟨hbs, hne⟩ | ⟨rest, rfl, hrest⟩
    · exact hnone bs (h.cut bs hbs hne)
    · -- the first encoding is whole, so the second is cut
      rw [hsome _ _ (h.whole rest)]
      exact h'.cut rest hrest fun he => hne (congrArg (encoding ++ ·) he)

/-- A reader that makes something of what another reads. -/
theorem map (h : Reads read encoding a)
    (hsome : ∀ bs rest, read bs = .ok (some (a, rest)) → read' bs = .ok (some (b, rest)))
    (hnone : ∀ bs, read bs = .ok none → read' bs = .ok none) : Reads read' encoding b :=
  ⟨fun rest => hsome _ _ (h.whole rest), fun bs hbs hne => hnone bs (h.cut bs hbs hne)⟩

/-- A byte in front tells how to read what follows. -/
theorem cons {first : UInt8} (h : Reads (fun bs => read (first :: bs)) encoding a)
    (hnil : read [] = .ok none) : Reads read (first :: encoding) a where
  whole := h.whole
  cut bs hbs hne := by
    cases bs with
    | nil => exact hnil
    | cons c bs =>
      obtain ⟨rfl, hrest⟩ := List.cons_prefix_cons.mp hbs
      exact h.cut bs hrest fun he => hne (congrArg (c :: ·) he)

end Reads

theorem line?_append {l : Bytes} (hl : Ascii.carriageReturn ∉ l) (rest : Bytes) :
    line? (l ++ lineEnd ++ rest) = some (l, rest) := by
  induction l with
  | nil => rfl
  | cons c l ih =>
    have hc : c ≠ Ascii.carriageReturn := fun he => hl (he ▸ List.mem_cons_self)
    have hrest := ih fun hm => hl (List.mem_cons_of_mem c hm)
    rw [List.cons_append, List.cons_append, line?]
    · rw [hrest]
      rfl
    · exact fun _ he => absurd he hc

theorem line?_eq_none {bs : Bytes} (h : Ascii.lineFeed ∉ bs) : line? bs = none := by
  fun_induction line? bs with
  | case1 => rfl
  | case2 rest => exact absurd (List.mem_cons_of_mem _ List.mem_cons_self) h
  | case3 b rest hb ih =>
    rw [ih fun hm => h (List.mem_cons_of_mem b hm)]
    rfl

/-- The number on a line. -/
theorem reads_length {digits : Bytes} {n : Int} (h : Numeral.SpellsInt digits n)
    (hn : Numeral.fitsInt64 n = true) : Reads readLength (digits ++ lineEnd) n where
  whole rest := by
    rw [readLength, line?_append h.no_lineEnd.1]
    dsimp only
    rw [Numeral.readInt64?_eq_some_iff.mpr ⟨h, hn⟩]
  cut bs hbs hne := by
    have hlf : Ascii.lineFeed ∉ bs := fun hm => by
      have hall : digits ++ lineEnd = digits ++ [Ascii.carriageReturn] ++ [Ascii.lineFeed] := by
        rw [List.append_assoc]
        rfl
      rw [hall] at hbs hne
      rcases List.prefix_concat_iff.mp hbs with he | hbs
      · exact hne he
      · rcases List.mem_append.mp (hbs.subset hm) with hm | hm
        · exact h.no_lineEnd.2 hm
        · exact absurd (List.mem_singleton.mp hm) (by decide)
    rw [readLength, line?_eq_none hlf]

theorem reads_data (data : Bytes) : Reads (readData data.length) (data ++ lineEnd) data where
  whole rest := by
    rw [readData, List.append_assoc, List.drop_left, List.take_left]
    exact if_pos ⟨rfl, rfl⟩
  cut bs hbs hne := by
    have hlt : bs.length < data.length + 2 := by
      have hlen : (data ++ lineEnd).length = data.length + 2 := List.length_append
      refine Nat.lt_of_le_of_ne (hlen ▸ hbs.length_le) fun he => hne ?_
      exact hbs.eq_of_length (he.trans hlen.symm)
    unfold readData
    split
    · next hd =>
      have hlen := congrArg List.length hd
      simp only [List.length_drop, List.length_cons] at hlen
      omega
    · rfl

/-- A bulk string after its first byte. -/
theorem reads_bulk {digits data : Bytes} (hlength : Numeral.SpellsInt digits data.length)
    (hsize : data.length ≤ maxBulkSize) :
    Reads readBulk (digits ++ lineEnd ++ (data ++ lineEnd)) data := by
  have hfits := Numeral.fitsInt64_of_le hsize (by decide)
  refine (reads_length hlength hfits).seq (reads_data data) (fun bs rest hb => ?_) fun bs hb => ?_
  · rw [readBulk, hb]
    dsimp only
    rw [if_neg (Int.not_lt.mpr (Int.natCast_nonneg _)), Int.toNat_natCast,
      if_neg (Nat.not_lt.mpr hsize)]
  · rw [readBulk, hb]

theorem reads_bulks {bs : Bytes} {args : List Bytes} (h : SpellsBulks bs args) :
    Reads (readBulks args.length) bs args := by
  induction h with
  | nil =>
    refine ⟨fun rest => rfl, fun bs hbs hne => absurd (List.prefix_nil.mp hbs) hne⟩
  | @cons _ bs' arg args hbulk _ ih =>
    obtain ⟨hlength, hsize⟩ := hbulk
    have htail : Reads (fun bs => (readBulks args.length bs).map
        (Option.map (Prod.map (arg :: ·) id))) bs' (arg :: args) := by
      refine ih.map (fun bs rest hb => ?_) fun bs hb => ?_
      · exact congrArg (Except.map _) hb
      · exact congrArg (Except.map _) hb
    refine .cons ((reads_bulk hlength hsize).seq htail (fun bs rest hb => ?_) fun bs hb => ?_) rfl
    · rw [List.length_cons, readBulks, if_neg (fun hne => hne rfl), hb]
      dsimp only
      rcases readBulks args.length rest with e | _ | ⟨datas, rest⟩ <;> rfl
    · rw [List.length_cons, readBulks, if_neg (fun hne => hne rfl)]
      exact hb ▸ rfl

/-- Whatever spells a frame. -/
theorem reads_spelling {bs : Bytes} {f : Frame} (h : Spells bs f) : Reads read bs f := by
  cases h with
  | bulk h =>
    obtain ⟨hlength, hsize⟩ := h
    refine .cons ((reads_bulk hlength hsize).map (fun bs rest hb => ?_) fun bs hb => ?_) rfl
    · rw [read, if_neg (by decide), if_pos rfl, hb]
      rfl
    · rw [read, if_neg (by decide), if_pos rfl, hb]
      rfl
  | @array digits bs args hcount hsize h =>
    have hfits := Numeral.fitsInt64_of_le hsize (by decide)
    have harray : Reads readArray (digits ++ lineEnd ++ bs) args := by
      refine (reads_length hcount hfits).seq (reads_bulks h) (fun bs rest hb => ?_) fun bs hb => ?_
      · rw [readArray, hb]
        dsimp only
        rw [if_neg (Int.not_lt.mpr (Int.natCast_nonneg _)), Int.toNat_natCast,
          if_neg (Nat.not_lt.mpr hsize)]
      · rw [readArray, hb]
    refine .cons (harray.map (fun bs rest hb => ?_) fun bs hb => ?_) rfl
    · rw [read, if_pos rfl, hb]
      rfl
    · rw [read, if_pos rfl, hb]
      rfl

/-- The wire form of a command. -/
theorem reads_ofArgs {args : List Bytes} (h : ∀ a ∈ args, a.length ≤ maxBulkSize)
    (hn : args.length ≤ maxParts) : Reads read (ofArgs args).serialize (ofArgs args) :=
  reads_spelling (Fits.array h hn).spells_serialize

end Frame

namespace Pull

variable {args : List Bytes} (h : ∀ a ∈ args, a.length ≤ Frame.maxBulkSize)
  (hn : args.length ≤ Frame.maxParts)

include h hn

/-- A command is pulled off the front of a stream, whatever follows it. -/
theorem of_append (rest : Bytes) :
    Pull.of ((Frame.ofArgs args).serialize ++ rest) = .command args rest := by
  rw [Pull.of, (Frame.reads_ofArgs h hn).whole rest]
  dsimp only
  rw [Frame.args?_ofArgs]

theorem of_cut {bs : Bytes} (hbs : bs <+: (Frame.ofArgs args).serialize)
    (hne : bs ≠ (Frame.ofArgs args).serialize) : Pull.of bs = .incomplete := by
  rw [Pull.of, (Frame.reads_ofArgs h hn).cut bs hbs hne]

end Pull

end ExpiringHash
