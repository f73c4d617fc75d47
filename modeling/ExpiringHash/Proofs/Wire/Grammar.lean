import ExpiringHash.Proofs.Decimal.Numerals
import ExpiringHash.Wire.Parser

/-!
# How frames are spelled

The grammar of the wire: which bytes spell which frames. A length may be spelled with a sign or with
leading zeros, so there is more than one spelling of a frame; what is written is one of them.
-/
namespace ExpiringHash.Frame

/-- Bytes that spell a bulk string. -/
inductive SpellsBulk : Bytes → Bytes → Prop
  | intro {digits data : Bytes} (hlength : Numeral.SpellsInt digits data.length)
      (hsize : data.length ≤ maxBulkSize) :
      SpellsBulk (Ascii.dollar :: (digits ++ lineEnd ++ (data ++ lineEnd))) data

/-- Bytes that spell bulk strings one after the other. -/
inductive SpellsBulks : Bytes → List Bytes → Prop
  | nil : SpellsBulks [] []
  | cons {bs bs' data : Bytes} {datas : List Bytes} (h : SpellsBulk bs data)
      (h' : SpellsBulks bs' datas) : SpellsBulks (bs ++ bs') (data :: datas)

/-- Bytes that spell a frame: a bulk string, or an array of bulk strings. -/
inductive Spells : Bytes → Frame → Prop
  | bulk {bs data : Bytes} (h : SpellsBulk bs data) : Spells bs (.bulk data)
  | array {digits bs : Bytes} {args : List Bytes} (hcount : Numeral.SpellsInt digits args.length)
      (hsize : args.length ≤ maxParts) (h : SpellsBulks bs args) :
      Spells (Ascii.star :: (digits ++ lineEnd ++ bs)) (ofArgs args)

/-- Frames without arrays in arrays that keep to the limits. -/
inductive Fits : Frame → Prop
  | bulk {data : Bytes} (h : data.length ≤ maxBulkSize) : Fits (.bulk data)
  | array {args : List Bytes} (h : ∀ a ∈ args, a.length ≤ maxBulkSize)
      (hn : args.length ≤ maxParts) : Fits (ofArgs args)

variable {bs data : Bytes} {args : List Bytes} {f : Frame}

theorem spellsBulk_bulkBytes (h : data.length ≤ maxBulkSize) : SpellsBulk (bulkBytes data) data := by
  have hspells := SpellsBulk.intro (Numeral.spellsInt_ofInt data.length) h
  rwa [← List.append_assoc] at hspells

theorem spellsBulks_serializeAll (h : ∀ a ∈ args, a.length ≤ maxBulkSize) :
    SpellsBulks (serializeAll (args.map bulk)) args := by
  induction args with
  | nil => exact .nil
  | cons arg args ih =>
    rw [List.map_cons, serializeAll, serialize]
    exact .cons (spellsBulk_bulkBytes (h arg List.mem_cons_self))
      (ih fun a ha => h a (List.mem_cons_of_mem arg ha))

/-- What is written spells the frame. -/
theorem Fits.spells_serialize (h : f.Fits) : Spells f.serialize f := by
  cases h with
  | bulk h =>
    rw [serialize]
    exact .bulk (spellsBulk_bulkBytes h)
  | @array args h hn =>
    rw [ofArgs, serialize, List.length_map]
    exact .array (Numeral.spellsInt_ofInt args.length) hn (spellsBulks_serializeAll h)

/-- The shortest frame is an array of nothing. -/
theorem Spells.four_le_length (h : Spells bs f) : 4 ≤ bs.length := by
  have hline {digits rest : Bytes} {n : Int} (h : Numeral.SpellsInt digits n) :
      3 ≤ (digits ++ lineEnd ++ rest).length := by
    have hpos := List.length_pos_iff.mpr h.ne_nil
    have htwo : lineEnd.length = 2 := rfl
    rw [List.length_append, List.length_append]
    omega
  cases h with
  | bulk h =>
    cases h with
    | intro hlength => exact Nat.succ_le_succ (hline hlength)
  | array hcount => exact Nat.succ_le_succ (hline hcount)

end ExpiringHash.Frame
