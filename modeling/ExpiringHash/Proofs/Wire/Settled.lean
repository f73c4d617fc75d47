import ExpiringHash.Proofs.Wire.Reading

/-!
# Answers that stay

A reader that answers has seen enough. An error stays when more bytes arrive, and so does a value,
which is made of the bytes taken off the buffer alone. Readers of which this is true may follow each
other, so it is true of the reader of frames, and of what can be pulled off a stream: it takes whole
frames off.
-/
namespace ExpiringHash

namespace Frame

variable {α β : Type} {bs l rest : Bytes}

/-- The answers of the reader stay, and its values are made of the bytes taken. -/
structure Settled (read : Bytes → Reading α) : Prop where
  value : ∀ {bs rest : Bytes} {a : α}, read bs = .ok (some (a, rest)) →
    ∃ taken, bs = taken ++ rest ∧ ∀ more, read (taken ++ more) = .ok (some (a, more))
  error : ∀ {bs : Bytes} {e : FrameError}, read bs = .error e → ∀ more, read (bs ++ more) = .error e

/-- Reads with one reader, and then what comes after it. -/
def andThen (first : Bytes → Reading α) (next : α → Bytes → Reading β) (bs : Bytes) : Reading β :=
  match first bs with
  | .error e => .error e
  | .ok none => .ok none
  | .ok (some (a, rest)) => next a rest

namespace Settled

variable {read first : Bytes → Reading α} {next : α → Bytes → Reading β}

theorem pure (a : α) : Settled fun bs => .ok (some (a, bs)) where
  value h := by
    cases h
    exact ⟨[], rfl, fun _ => rfl⟩
  error h := by cases h

theorem throw (e : FrameError) : Settled (α := α) fun _ => .error e where
  value h := by cases h
  error h _ := h

theorem andThen (h : Settled first) (h' : ∀ a, Settled (next a)) : Settled (andThen first next) where
  value {bs rest b} hread := by
    unfold Frame.andThen at hread
    split at hread
    · cases hread
    · cases hread
    · next a mid hfirst =>
      obtain ⟨taken, rfl, hwhole⟩ := h.value hfirst
      obtain ⟨taken', rfl, hwhole'⟩ := (h' a).value hread
      refine ⟨taken ++ taken', (List.append_assoc ..).symm, fun more => ?_⟩
      rw [Frame.andThen, List.append_assoc, hwhole]
      exact hwhole' more
  error {bs e} hread more := by
    unfold Frame.andThen at hread
    split at hread
    · next hfirst =>
      rw [Frame.andThen, h.error hfirst]
      exact hread
    · cases hread
    · next a mid hfirst =>
      obtain ⟨taken, rfl, hwhole⟩ := h.value hfirst
      rw [Frame.andThen, List.append_assoc, hwhole]
      exact (h' a).error hread more

/-- The first byte tells how to read what follows. -/
theorem cons (hnil : read [] = .ok none) (h : ∀ b, Settled fun bs => read (b :: bs)) :
    Settled read where
  value {bs rest a} hread := by
    cases bs with
    | nil => cases hnil.symm.trans hread
    | cons b bs =>
      obtain ⟨taken, rfl, hwhole⟩ := (h b).value hread
      exact ⟨b :: taken, rfl, hwhole⟩
  error {bs e} hread more := by
    cases bs with
    | nil => cases hnil.symm.trans hread
    | cons b bs => exact (h b).error hread more

end Settled

/-- A line is made of the bytes up to its end. -/
theorem line?_taken (h : line? bs = some (l, rest)) :
    bs = l ++ lineEnd ++ rest ∧ ∀ more, line? (l ++ lineEnd ++ more) = some (l, more) := by
  fun_induction line? bs generalizing l with
  | case1 => cases h
  | case2 =>
    cases h
    exact ⟨rfl, fun _ => rfl⟩
  | case3 b bs hb ih =>
    obtain ⟨⟨l', rest'⟩, hline, h⟩ := Option.map_eq_some_iff.mp h
    cases h
    obtain ⟨rfl, hwhole⟩ := ih hline
    refine ⟨rfl, fun more => ?_⟩
    rw [List.cons_append, List.cons_append, line?, hwhole more]
    · rfl
    · -- the byte after `b` is the same whatever follows the line
      intro tail hcr htail
      cases l' with
      | nil => cases htail
      | cons c l' =>
        obtain ⟨rfl, -⟩ := List.cons.inj htail
        exact hb _ hcr rfl

theorem line_of_readLength {n : Int} (h : readLength bs = .ok (some (n, rest))) :
    ∃ digits, bs = digits ++ lineEnd ++ rest ∧ Numeral.readInt64? digits = some n ∧
      ∀ more, readLength (digits ++ lineEnd ++ more) = .ok (some (n, more)) := by
  unfold readLength at h
  split at h
  · cases h
  · next digits mid hline =>
    split at h
    · next n' hn =>
      cases h
      obtain ⟨hbs, hwhole⟩ := line?_taken hline
      refine ⟨digits, hbs, hn, fun more => ?_⟩
      rw [readLength, hwhole more]
      dsimp only
      rw [hn]
    · cases h

theorem settled_length : Settled readLength where
  value {bs rest n} hread := by
    obtain ⟨digits, hbs, -, hwhole⟩ := line_of_readLength hread
    exact ⟨digits ++ lineEnd, hbs, hwhole⟩
  error {bs e} hread more := by
    unfold readLength at hread
    split at hread
    · cases hread
    · next digits mid hline =>
      split at hread
      · cases hread
      · next hn =>
        obtain ⟨rfl, hwhole⟩ := line?_taken hline
        rw [readLength, List.append_assoc, hwhole]
        dsimp only
        rw [hn]
        exact hread

theorem data_of_readData {length : Nat} {data : Bytes}
    (h : readData length bs = .ok (some (data, rest))) :
    bs = data ++ lineEnd ++ rest ∧ data.length = length := by
  unfold readData at h
  split at h
  · next a b tail hdrop =>
    split at h
    · next hend =>
      cases h
      obtain ⟨rfl, rfl⟩ := hend
      refine ⟨?_, ?_⟩
      · rw [List.append_assoc]
        exact (List.take_append_drop length bs).symm.trans (congrArg _ hdrop)
      · have hlen := congrArg List.length hdrop
        simp only [List.length_drop, List.length_cons] at hlen
        rw [List.length_take]
        omega
    · cases h
  · cases h

theorem settled_data (length : Nat) : Settled (readData length) where
  value {bs rest data} hread := by
    obtain ⟨rfl, rfl⟩ := data_of_readData hread
    exact ⟨data ++ lineEnd, rfl, (reads_data data).whole⟩
  error {bs e} hread more := by
    unfold readData at hread
    split at hread
    · next a b tail hdrop =>
      split at hread
      · cases hread
      · next hend =>
        -- the two bytes that end no line are there already, so what arrives cannot mend them
        have hle : length ≤ bs.length := by
          have := congrArg List.length hdrop
          simp only [List.length_drop, List.length_cons] at this
          omega
        rw [readData, List.drop_append_of_le_length hle, hdrop]
        exact (if_neg hend).trans hread
    · cases hread

theorem readBulk_eq : readBulk = andThen readLength fun n rest =>
    if n < 0 then .error (.invalidBulkLength n)
    else if maxBulkSize < n.toNat then .error (.tooLarge n.toNat maxBulkSize)
    else readData n.toNat rest := by
  funext bs
  unfold readBulk andThen
  rcases readLength bs with e | _ | ⟨n, rest⟩ <;> rfl

theorem readArray_eq : readArray = andThen readLength fun n rest =>
    if n < 0 then .error (.invalidArrayLength n)
    else if maxParts < n.toNat then .error (.tooLarge n.toNat maxParts)
    else readBulks n.toNat rest := by
  funext bs
  unfold readArray andThen
  rcases readLength bs with e | _ | ⟨n, rest⟩ <;> rfl

theorem readBulks_dollar (count : Nat) :
    (fun bs => readBulks (count + 1) (Ascii.dollar :: bs)) = andThen readBulk fun data =>
      andThen (readBulks count) fun datas rest => .ok (some (data :: datas, rest)) := by
  funext bs
  rw [readBulks, if_neg fun hne => hne rfl]
  unfold andThen
  rcases readBulk bs with e | _ | ⟨data, rest⟩
  · rfl
  · rfl
  · dsimp only
    rcases readBulks count rest with e | _ | ⟨datas, rest'⟩ <;> rfl

theorem readBulks_foreign (count : Nat) {b : UInt8} (hb : b ≠ Ascii.dollar) :
    (fun bs => readBulks (count + 1) (b :: bs)) =
      fun _ => .error (.protocol (.foreignArgument b)) := by
  funext bs
  rw [readBulks, if_pos hb]

theorem read_star : (fun bs => read (Ascii.star :: bs)) =
    andThen readArray fun parts rest => .ok (some (ofArgs parts, rest)) := by
  funext bs
  rw [read, if_pos rfl]
  unfold andThen
  rcases readArray bs with e | _ | ⟨parts, rest⟩ <;> rfl

theorem read_dollar : (fun bs => read (Ascii.dollar :: bs)) =
    andThen readBulk fun data rest => .ok (some (Frame.bulk data, rest)) := by
  funext bs
  rw [read, if_neg (by decide), if_pos rfl]
  unfold andThen
  rcases readBulk bs with e | _ | ⟨data, rest⟩ <;> rfl

theorem read_foreign {b : UInt8} (hstar : b ≠ Ascii.star) (hdollar : b ≠ Ascii.dollar) :
    (fun bs => read (b :: bs)) = fun _ => .error (.unknownKind b) := by
  funext bs
  rw [read, if_neg hstar, if_neg hdollar]

theorem settled_bulk : Settled readBulk := by
  rw [readBulk_eq]
  refine settled_length.andThen fun n => ?_
  split
  · exact .throw _
  · split
    · exact .throw _
    · exact settled_data n.toNat

theorem settled_bulks (count : Nat) : Settled (readBulks count) := by
  induction count with
  | zero => exact .pure []
  | succ count ih =>
    refine .cons rfl fun b => ?_
    by_cases hb : b = Ascii.dollar
    · subst hb
      rw [readBulks_dollar]
      exact settled_bulk.andThen fun data => ih.andThen fun datas => .pure (data :: datas)
    · rw [readBulks_foreign count hb]
      exact .throw _

theorem settled_array : Settled readArray := by
  rw [readArray_eq]
  refine settled_length.andThen fun n => ?_
  split
  · exact .throw _
  · split
    · exact .throw _
    · exact settled_bulks n.toNat

/-- The answer of the reader of frames stays when more bytes arrive. -/
theorem settled_read : Settled read := by
  refine .cons rfl fun b => ?_
  by_cases hstar : b = Ascii.star
  · subst hstar
    rw [read_star]
    exact settled_array.andThen fun parts => .pure (ofArgs parts)
  · by_cases hdollar : b = Ascii.dollar
    · subst hdollar
      rw [read_dollar]
      exact settled_bulk.andThen fun data => .pure (Frame.bulk data)
    · rw [read_foreign hstar hdollar]
      exact .throw _

/-- The frames, each with its bytes, make up what is in front of `rest`. -/
structure Span (taken : List (Bytes × Frame)) (bs rest : Bytes) : Prop where
  bytes : bs = (taken.map Prod.fst).flatten ++ rest
  whole : ∀ p ∈ taken, read p.1 = .ok (some (p.2, []))

namespace Span

variable {taken taken' : List (Bytes × Frame)} {bs mid rest : Bytes}

theorem nil (bs : Bytes) : Span [] bs bs := ⟨rfl, fun _ hp => absurd hp List.not_mem_nil⟩

theorem single {bytes : Bytes} {f : Frame} (h : read bytes = .ok (some (f, []))) (rest : Bytes) :
    Span [(bytes, f)] (bytes ++ rest) rest := by
  refine ⟨congrArg (· ++ rest) (List.append_nil bytes).symm, fun p hp => ?_⟩
  obtain rfl := List.mem_singleton.mp hp
  exact h

theorem trans (h : Span taken bs mid) (h' : Span taken' mid rest) :
    Span (taken ++ taken') bs rest := by
  refine ⟨?_, fun p hp => (List.mem_append.mp hp).elim (h.whole p) (h'.whole p)⟩
  rw [h.bytes, h'.bytes, List.map_append, List.flatten_append, List.append_assoc]

/-- Bytes that arrive later wait behind the rest. -/
theorem append (h : Span taken bs rest) (more : Bytes) : Span taken (bs ++ more) (rest ++ more) :=
  ⟨(congrArg (· ++ more) h.bytes).trans (List.append_assoc ..), h.whole⟩

end Span

end Frame

namespace Pull

variable {bs rest : Bytes} {args : List Bytes} {e : FrameError}

/-- A command at the front of a stream is a whole frame, taken off it. -/
theorem exists_of_command (h : Pull.of bs = .command args rest) :
    ∃ taken f, bs = taken ++ rest ∧ f.args? = some args ∧
      ∀ more, Frame.read (taken ++ more) = .ok (some (f, more)) := by
  unfold Pull.of at h
  split at h
  · cases h
  · cases h
  · next f rest' hread =>
    split at h
    · next args' hargs =>
      cases h
      obtain ⟨taken, hbs, hwhole⟩ := Frame.settled_read.value hread
      exact ⟨taken, f, hbs, hargs, hwhole⟩
    · cases h

/-- A fault at the front of a stream leaves all bytes there, or takes a whole frame off that is no
command. -/
theorem exists_of_fault (h : Pull.of bs = .fault e rest) :
    (rest = bs ∧ Frame.read bs = .error e) ∨
      ∃ taken f, bs = taken ++ rest ∧ f.args? = none ∧ e = .protocol .notACommand ∧
        ∀ more, Frame.read (taken ++ more) = .ok (some (f, more)) := by
  unfold Pull.of at h
  split at h
  · next hread =>
    cases h
    exact .inl ⟨rfl, hread⟩
  · cases h
  · next f rest' hread =>
    split at h
    · cases h
    · next hargs =>
      cases h
      obtain ⟨taken, hbs, hwhole⟩ := Frame.settled_read.value hread
      exact .inr ⟨taken, f, hbs, hargs, rfl, hwhole⟩

/-- A command at the front of a stream stays there when more bytes arrive. -/
theorem command_append (h : Pull.of bs = .command args rest) (more : Bytes) :
    Pull.of (bs ++ more) = .command args (rest ++ more) := by
  obtain ⟨taken, f, rfl, hargs, hwhole⟩ := exists_of_command h
  rw [Pull.of, List.append_assoc, hwhole]
  dsimp only
  rw [hargs]

/-- A fault at the front of a stream stays there when more bytes arrive. -/
theorem fault_append (h : Pull.of bs = .fault e rest) (more : Bytes) :
    Pull.of (bs ++ more) = .fault e (rest ++ more) := by
  rcases exists_of_fault h with ⟨rfl, hread⟩ | ⟨taken, f, rfl, hargs, rfl, hwhole⟩
  · rw [Pull.of, Frame.settled_read.error hread more]
  · rw [Pull.of, List.append_assoc, hwhole]
    dsimp only
    rw [hargs]

theorem span_of_command (h : Pull.of bs = .command args rest) :
    ∃ p : Bytes × Frame, Frame.Span [p] bs rest ∧ p.2.args? = some args := by
  obtain ⟨taken, f, rfl, hargs, hwhole⟩ := exists_of_command h
  have hread := hwhole []
  rw [List.append_nil] at hread
  exact ⟨(taken, f), .single hread rest, hargs⟩

theorem span_of_fault (h : Pull.of bs = .fault e rest) :
    ∃ taken, Frame.Span taken bs rest ∧ ∀ p ∈ taken, p.2.args? = none := by
  rcases exists_of_fault h with ⟨rfl, -⟩ | ⟨bytes, f, rfl, hargs, -, hwhole⟩
  · exact ⟨[], .nil rest, fun _ hp => absurd hp List.not_mem_nil⟩
  · have hread := hwhole []
    rw [List.append_nil] at hread
    refine ⟨[(bytes, f)], .single hread rest, fun p hp => ?_⟩
    obtain rfl := List.mem_singleton.mp hp
    exact hargs

end Pull
end ExpiringHash
