import ExpiringHash.Proofs.Wire.Settled

/-!
# What is read spells a frame

The other side of reading: whatever a reader takes off the front of a buffer spells the value that it
answers. So a frame is read off a buffer exactly if the buffer starts with what spells it, and there is
only one way to start so.
-/
namespace ExpiringHash.Frame

variable {α β : Type} {bs front front' rest : Bytes} {v v' : Frame}

/-- What the reader takes off a buffer spells the value that it answers. -/
structure Sound (spells : Bytes → α → Prop) (read : Bytes → Reading α) : Prop where
  front : ∀ {bs rest : Bytes} {a : α}, read bs = .ok (some (a, rest)) →
    ∃ front, front ++ rest = bs ∧ spells front a

namespace Sound

variable {read first : Bytes → Reading α} {next : α → Bytes → Reading β} {spells : Bytes → α → Prop}
  {spellsNext : α → Bytes → β → Prop} {spellsBoth : Bytes → β → Prop}

theorem pure (a : α) : Sound (fun front b => front = [] ∧ b = a) fun bs => .ok (some (a, bs)) where
  front h := by
    cases h
    exact ⟨[], rfl, rfl, rfl⟩

/-- Readers that follow each other. -/
theorem andThen (h : Sound spells first) (h' : ∀ a, Sound (spellsNext a) (next a))
    (hboth : ∀ {bs bs' a b}, spells bs a → spellsNext a bs' b → spellsBoth (bs ++ bs') b) :
    Sound spellsBoth (andThen first next) where
  front {bs rest b} hread := by
    unfold Frame.andThen at hread
    split at hread
    · cases hread
    · cases hread
    · next a mid hfirst =>
      obtain ⟨front, rfl, hfront⟩ := h.front hfirst
      obtain ⟨front', rfl, hfront'⟩ := (h' a).front hread
      exact ⟨front ++ front', List.append_assoc .., hboth hfront hfront'⟩

/-- The first byte tells how to read what follows. -/
theorem cons (hnil : read [] = .ok none)
    (h : ∀ b, Sound (fun front a => spells (b :: front) a) fun bs => read (b :: bs)) :
    Sound spells read where
  front {bs rest a} hread := by
    cases bs with
    | nil => cases hnil.symm.trans hread
    | cons b bs =>
      obtain ⟨front, rfl, hfront⟩ := (h b).front hread
      exact ⟨b :: front, rfl, hfront⟩

theorem throw (e : FrameError) : Sound spells fun _ => .error e where
  front h := by cases h

end Sound

theorem sound_length :
    Sound (fun front n => ∃ digits, front = digits ++ lineEnd ∧ Numeral.SpellsInt digits n)
      readLength where
  front h := by
    obtain ⟨digits, rfl, hn, -⟩ := line_of_readLength h
    exact ⟨digits ++ lineEnd, rfl, digits, rfl, (Numeral.readInt64?_eq_some_iff.mp hn).1⟩

theorem sound_data (length : Nat) :
    Sound (fun front data => front = data ++ lineEnd ∧ data.length = length) (readData length) where
  front {bs rest data} h := by
    obtain ⟨rfl, hlength⟩ := data_of_readData h
    exact ⟨data ++ lineEnd, rfl, rfl, hlength⟩

/-- A length in front of something is taken if it is neither negative nor too large. -/
theorem sound_limited {next : Nat → Bytes → Reading β} {spells : Nat → Bytes → β → Prop} {n : Int}
    {max : Nat} {err err' : FrameError} (h : ∀ length, Sound (spells length) (next length)) :
    Sound (fun front b => ∃ length ≤ max, n = length ∧ spells length front b) fun bs =>
      if n < 0 then .error err else if max < n.toNat then .error err' else next n.toNat bs where
  front hread := by
    split at hread
    · cases hread
    · next hsign =>
      split at hread
      · cases hread
      · next hmax =>
        obtain ⟨front, hbs, hspells⟩ := (h n.toNat).front hread
        exact ⟨front, hbs, n.toNat, Nat.not_lt.mp hmax,
          (Int.toNat_of_nonneg (Int.not_lt.mp hsign)).symm, hspells⟩

theorem sound_bulk : Sound (fun front data => SpellsBulk (Ascii.dollar :: front) data) readBulk := by
  rw [readBulk_eq]
  refine sound_length.andThen (fun n => sound_limited sound_data) ?_
  rintro _ _ n data ⟨digits, rfl, hdigits⟩ ⟨length, hmax, rfl, rfl, rfl⟩
  exact .intro hdigits hmax

theorem sound_bulks (count : Nat) :
    Sound (fun front datas => SpellsBulks front datas ∧ datas.length = count) (readBulks count) := by
  induction count with
  | zero =>
    refine ⟨fun h => ?_⟩
    obtain ⟨front, hbs, rfl, rfl⟩ := (Sound.pure []).front h
    exact ⟨[], hbs, .nil, rfl⟩
  | succ count ih =>
    refine .cons rfl fun b => ?_
    by_cases hb : b = Ascii.dollar
    · subst hb
      rw [readBulks_dollar]
      have hrest (data : Bytes) :
          Sound (fun front all => ∃ datas, SpellsBulks front datas ∧
              datas.length = count ∧ all = data :: datas)
            (andThen (readBulks count) fun datas bs => .ok (some (data :: datas, bs))) := by
        refine ih.andThen (fun datas => .pure (data :: datas)) ?_
        rintro front _ datas all ⟨hfront, hlength⟩ ⟨rfl, rfl⟩
        rw [List.append_nil]
        exact ⟨datas, hfront, hlength, rfl⟩
      refine sound_bulk.andThen hrest ?_
      rintro front front' data _ hdata ⟨datas, hdatas, rfl, rfl⟩
      exact ⟨.cons hdata hdatas, rfl⟩
    · rw [readBulks_foreign count hb]
      exact .throw _

theorem sound_array : Sound (fun front args => Spells (Ascii.star :: front) (ofArgs args)) readArray := by
  rw [readArray_eq]
  refine sound_length.andThen (fun n => sound_limited sound_bulks) ?_
  rintro _ _ n args ⟨digits, rfl, hdigits⟩ ⟨length, hmax, rfl, hargs, rfl⟩
  exact .array hdigits hmax hargs

theorem sound_read : Sound Spells read := by
  refine .cons rfl fun b => ?_
  by_cases hstar : b = Ascii.star
  · subst hstar
    rw [read_star]
    refine sound_array.andThen (fun args => .pure (ofArgs args)) ?_
    rintro front _ args f hargs ⟨rfl, rfl⟩
    rwa [List.append_nil]
  · by_cases hdollar : b = Ascii.dollar
    · subst hdollar
      rw [read_dollar]
      refine sound_bulk.andThen (fun data => .pure (bulk data)) ?_
      rintro front _ data f hdata ⟨rfl, rfl⟩
      rw [List.append_nil]
      exact .bulk hdata
    · rw [read_foreign hstar hdollar]
      exact .throw _

theorem read_eq_some_iff :
    read bs = .ok (some (v, rest)) ↔ ∃ front, front ++ rest = bs ∧ Spells front v := by
  constructor
  · exact sound_read.front
  · rintro ⟨front, rfl, h⟩
    exact (reads_spelling h).whole rest

/-- A buffer starts with at most one frame. -/
theorem Spells.unique (h : Spells front v) (h' : Spells front' v') (hfront : front <+: bs)
    (hfront' : front' <+: bs) : front' = front ∧ v' = v := by
  obtain ⟨rest, rfl⟩ := hfront
  obtain ⟨rest', hbs⟩ := hfront'
  have hread := (reads_spelling h).whole rest
  rw [← hbs, (reads_spelling h').whole rest'] at hread
  cases hread
  exact ⟨List.append_cancel_right hbs, rfl⟩

/-- A frame is read off a buffer exactly if the buffer starts with bytes that spell it. These bytes and
the frame are the only ones, and at least four bytes are taken. A frame that keeps to the limits is read
off what is written for it, whatever follows. -/
theorem reads_what_is_spelled (buf : Bytes) :
    (∀ v rest, read buf = .ok (some (v, rest)) ↔ ∃ front, front ++ rest = buf ∧ Spells front v) ∧
    (∀ front v, front <+: buf → Spells front v →
      4 ≤ front.length ∧ front.length ≤ buf.length ∧
        ∀ front' v', front' <+: buf → Spells front' v' → front' = front ∧ v' = v) ∧
    ∀ v : Frame, v.Fits → ∀ rest, read (v.serialize ++ rest) = .ok (some (v, rest)) := by
  refine ⟨fun _ _ => read_eq_some_iff, fun front v hfront h => ?_, fun v hv rest => ?_⟩
  · exact ⟨h.four_le_length, hfront.length_le, fun _ _ hfront' h' => h.unique h' hfront hfront'⟩
  · exact (reads_spelling hv.spells_serialize).whole rest

/-- An array of a carriage return and of nothing, its lengths written with signs and a leading zero, and
the same array as it is written. -/
theorem reads_what_is_spelled_signed :
    let front := Bytes.ofString "*+2\r\n$01\r\n\r\r\n$-0\r\n\r\n"
    let v := ofArgs [[Ascii.carriageReturn], []]
    front <+: front ++ [36] ∧ Spells front v ∧ v.Fits ∧
      read (front ++ [36]) = .ok (some (v, [36])) ∧
      front.length = 20 ∧ 4 ≤ front.length ∧
      v.serialize = Bytes.ofString "*2\r\n$1\r\n\r\r\n$0\r\n\r\n" ∧
      read (v.serialize ++ [36]) = .ok (some (v, [36])) := by
  intro front v
  have hspells : Spells front v := by
    have hbytes : front = Ascii.star :: (Bytes.ofString "+2" ++ lineEnd ++
        (Ascii.dollar :: (Bytes.ofString "01" ++ lineEnd ++ ([Ascii.carriageReturn] ++ lineEnd)) ++
          (Ascii.dollar :: (Bytes.ofString "-0" ++ lineEnd ++ ([] ++ lineEnd)) ++ []))) := by
      decide +kernel
    have spelled {digits : Bytes} {n : Int} (h : Numeral.readInt64? digits = some n) :
        Numeral.SpellsInt digits n := (Numeral.readInt64?_eq_some_iff.mp h).1
    rw [hbytes]
    exact .array (spelled (by decide +kernel)) (by decide)
      (.cons (.intro (spelled (by decide +kernel)) (by decide))
        (.cons (.intro (spelled (by decide +kernel)) (by decide)) .nil))
  have hfront : front <+: front ++ [36] := List.prefix_append front [36]
  have hfits : v.Fits := .array (by decide) (by decide)
  obtain ⟨hiff, hunique, hreads⟩ := reads_what_is_spelled (front ++ [36])
  exact ⟨hfront, hspells, hfits, (hiff v [36]).mpr ⟨front, rfl, hspells⟩, by decide +kernel,
    (hunique _ v hfront hspells).1, by decide +kernel, hreads v hfits [36]⟩

end ExpiringHash.Frame
