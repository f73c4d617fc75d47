import ExpiringHash.Proofs.Dump.Parts
import ExpiringHash.Proofs.Fields.Changes
import Mathlib.Data.List.Duplicate

/-!
# What decodes as a container

A payload announces a number of fields, names the key and holds the fields one after the other.
Decoding reads field after field on top of those read before, and refuses a name that it has met.
So it accepts the dumps of containers, the fields in any order, and no other bytes: more bytes are
trailing, fewer are truncated, and a name that comes again is a duplicate.
-/
namespace ExpiringHash

namespace Fields

variable {f : Fields} {row : Bytes × Record} {rows : List (Bytes × Record)}

/-- Stores records one after the other. -/
def putAll (f : Fields) (rows : List (Bytes × Record)) : Fields :=
  rows.foldl (fun g row => (g.put row.1 row.2).2) f

/-- Names that differ from each other and from those of the fields there are. -/
structure Fresh (f : Fields) (rows : List (Bytes × Record)) : Prop where
  nodup : (rows.map Prod.fst).Nodup
  absent : ∀ row ∈ rows, f.get? row.1 = none

theorem Fresh.nil (f : Fields) : f.Fresh [] := ⟨.nil, nofun⟩

theorem fresh_cons :
    f.Fresh (row :: rows) ↔ f.get? row.1 = none ∧ (f.put row.1 row.2).2.Fresh rows := by
  constructor
  · rintro ⟨hnodup, habsent⟩
    obtain ⟨hrow, hrows⟩ := List.nodup_cons.mp hnodup
    refine ⟨habsent row List.mem_cons_self, hrows, fun other hmem => ?_⟩
    have hne : other.1 ≠ row.1 := fun he => hrow (he ▸ List.mem_map_of_mem hmem)
    rw [get?_put_of_ne hne]
    exact habsent other (List.mem_cons_of_mem _ hmem)
  · rintro ⟨hrow, hnodup, habsent⟩
    have hne : ∀ other ∈ rows, other.1 ≠ row.1 := by
      intro other hmem he
      have hnone := habsent other hmem
      rw [he, get?_put_self] at hnone
      cases hnone
    refine ⟨List.nodup_cons.mpr ⟨fun hmem => ?_, hnodup⟩, ?_⟩
    · obtain ⟨other, hother, he⟩ := List.mem_map.mp hmem
      exact hne other hother he
    · rintro other (_ | ⟨_, hmem⟩)
      · exact hrow
      · rw [← get?_put_of_ne (hne other hmem)]
        exact habsent other hmem

/-- Storing fresh records adds them to those there are. -/
theorem Fresh.mem_putAll {x : Bytes × Record} (h : f.Fresh rows) :
    x ∈ (f.putAll rows).records ↔ x ∈ rows ∨ x ∈ f.records := by
  induction rows generalizing f with
  | nil => simp [putAll]
  | cons row rows ih =>
    obtain ⟨hrow, hrows⟩ := fresh_cons.mp h
    have hput : x ∈ (f.put row.1 row.2).2.records ↔ x = row ∨ x ∈ f.records := by
      rw [records_put, SortedTable.put, SortedTable.mem_insert]
      refine or_congr_right (and_iff_left_of_imp fun hx he => ?_)
      have hsome := SortedTable.get?_eq_some_iff.mpr (show (x.1, x.2) ∈ f.records from hx)
      rw [he] at hsome
      cases hrow.symm.trans hsome
    rw [putAll, List.foldl_cons, ← putAll, ih hrows, hput, List.mem_cons, or_left_comm, or_assoc]

/-- Fields made from records under different names hold just these. -/
theorem perm_putAll (h : (rows.map Prod.fst).Nodup) :
    rows.Perm ((∅ : Fields).putAll rows).records.toList := by
  have hfresh : (∅ : Fields).Fresh rows := ⟨h, fun _ _ => rfl⟩
  refine (List.perm_ext_iff_of_nodup h.of_map (SortedTable.nodup_toList _)).mpr fun x => ?_
  rw [SortedTable.mem_toList, hfresh.mem_putAll]
  exact (or_iff_left (SortedTable.not_mem_empty x)).symm

/-- Consistent fields come about by storing their records in any order. -/
theorem Consistent.putAll_eq (hf : f.Consistent) (h : rows.Perm f.records.toList) :
    (∅ : Fields).putAll rows = f := by
  have hnodup : (rows.map Prod.fst).Nodup := (h.map _).nodup_iff.mpr f.nodup_names
  refine (Reached.empty.foldl_put rows).consistent.ext_records hf ?_
  exact SortedTable.ext_mem fun x => (perm_putAll hnodup).symm.mem_iff.trans h.mem_iff

/-- So whatever fields are consistent can come about. -/
theorem Consistent.reached (hf : f.Consistent) : f.Reached :=
  hf.putAll_eq (.refl _) ▸ Reached.empty.foldl_put f.records.toList

end Fields

namespace Container

variable {bs rest more key : Bytes} {c : Container} {f g : Fields} {count n : Nat}
  {row : Bytes × Record} {rows : List (Bytes × Record)}

/-- Fields one after the other. -/
def dumpRows (rows : List (Bytes × Record)) : Bytes :=
  (rows.map fun row => dumpField row.1 row.2).flatten

/-- The announcement of a number of fields, a key, and fields. -/
def payload (count : Nat) (key : Bytes) (rows : List (Bytes × Record)) : Bytes :=
  Word.bigEndian 8 count ++ dumpText key ++ dumpRows rows

/-- The payload of a container, whose fields may stand in any order. -/
def IsDumpOf (c : Container) (bs : Bytes) : Prop :=
  ∃ rows, rows.Perm c.fields.records.toList ∧ bs = payload rows.length c.key rows

theorem isDumpOf_dump (c : Container) : IsDumpOf c c.dump := ⟨_, .refl _, rfl⟩

theorem dumpRows_cons (row : Bytes × Record) (rows : List (Bytes × Record)) :
    dumpRows (row :: rows) = dumpField row.1 row.2 ++ dumpRows rows := rfl

/-- A container whose strings are short enough for their lengths to be written, and with a number of
fields that a machine can count. -/
structure Fits (c : Container) : Prop where
  key : FitsLength c.key
  rows : ∀ row ∈ c.fields.records.toList, FitsRow row
  size : c.fields.size < 2 ^ 64

/-! ### Reading fields -/

/-- One step of reading: a field that is there already is refused, another one is stored. -/
theorem takeFields_succ (h : FitsRow row) (n : Nat) (f : Fields) (rest : Bytes) :
    takeFields (n + 1) f (dumpField row.1 row.2 ++ rest) =
      if (f.get? row.1).isSome then .error (.duplicateField row.1)
      else takeFields n (f.put row.1 row.2).2 rest := by
  rw [takeFields, takeField_eq_ok_iff.mpr ⟨rfl, h⟩]
  simp only [bind, Except.bind]
  split <;> rfl

theorem takeFields_eq_ok_iff :
    takeFields n f bs = .ok (g, rest) ↔ ∃ rows, rows.length = n ∧ bs = dumpRows rows ++ rest ∧
      (∀ row ∈ rows, FitsRow row) ∧ f.Fresh rows ∧ g = f.putAll rows := by
  constructor
  · intro h
    induction n generalizing f bs with
    | zero =>
      cases h
      exact ⟨[], rfl, rfl, nofun, .nil _, rfl⟩
    | succ n ih =>
      obtain ⟨⟨row, after⟩, hfield, -⟩ := ok_of_bind h
      obtain ⟨rfl, hfits⟩ := takeField_eq_ok_iff.mp hfield
      rw [takeFields_succ hfits] at h
      split at h
      · cases h
      · next habsent =>
        rw [Bool.not_eq_true, Option.isSome_eq_false_iff, Option.isNone_iff_eq_none] at habsent
        obtain ⟨rows, rfl, rfl, hrows, hfresh, rfl⟩ := ih h
        refine ⟨row :: rows, rfl, ?_, ?_, Fields.fresh_cons.mpr ⟨habsent, hfresh⟩, rfl⟩
        · rw [dumpRows_cons, List.append_assoc]
        · exact List.forall_mem_cons.mpr ⟨hfits, hrows⟩
  · rintro ⟨rows, rfl, rfl, hrows, hfresh, rfl⟩
    induction rows generalizing f with
    | nil => rfl
    | cons row rows ih =>
      obtain ⟨habsent, hfresh⟩ := Fields.fresh_cons.mp hfresh
      obtain ⟨hfits, hrows⟩ := List.forall_mem_cons.mp hrows
      rw [dumpRows_cons, List.append_assoc, List.length_cons, takeFields_succ hfits, habsent]
      exact ih hrows hfresh

/-- The first name that is met again is the one that is reported. -/
theorem exists_duplicateField (hfits : ∀ row ∈ rows, FitsRow row) (hfresh : ¬ f.Fresh rows)
    (hcount : rows.length ≤ n) (rest : Bytes) :
    ∃ name, (List.Duplicate name (rows.map Prod.fst) ∨
        name ∈ rows.map Prod.fst ∧ (f.get? name).isSome = true) ∧
      takeFields n f (dumpRows rows ++ rest) = .error (.duplicateField name) := by
  induction rows generalizing f n with
  | nil => exact absurd (.nil f) hfresh
  | cons row rows ih =>
    obtain ⟨hrow, hrows⟩ := List.forall_mem_cons.mp hfits
    obtain ⟨n, rfl⟩ := Nat.exists_eq_add_of_le' (Nat.le_of_lt_succ (Nat.lt_succ_of_le hcount))
    rw [dumpRows_cons, List.append_assoc, List.length_cons, ← Nat.add_assoc, takeFields_succ hrow]
    by_cases hsome : (f.get? row.1).isSome = true
    · exact ⟨row.1, .inr ⟨List.mem_cons_self, hsome⟩, if_pos hsome⟩
    · rw [if_neg hsome]
      have habsent : f.get? row.1 = none := by simpa using hsome
      have htail : ¬ (f.put row.1 row.2).2.Fresh rows :=
        fun h => hfresh (Fields.fresh_cons.mpr ⟨habsent, h⟩)
      obtain ⟨name, hname, herror⟩ := ih hrows htail (Nat.le_add_left _ n)
      refine ⟨name, ?_, herror⟩
      rcases hname with hdup | ⟨hmem, hput⟩
      · exact .inl (hdup.cons_duplicate)
      · by_cases he : name = row.1
        · exact .inl (he ▸ List.Mem.duplicate_cons_self (he ▸ hmem))
        · rw [Fields.get?_put_of_ne he] at hput
          exact .inr ⟨List.mem_cons_of_mem _ hmem, hput⟩

/-- Unless fields are cut off, more bytes do not change the fault that is found in them. -/
theorem takeFields_error {fault : DumpFault} (h : takeFields n f bs = .error fault) :
    (∃ part, fault = .truncated part) ∨ ∀ more, takeFields n f (bs ++ more) = .error fault := by
  induction n generalizing f bs with
  | zero => cases h
  | succ n ih =>
    cases hfield : takeField bs with
    | error other =>
      rw [takeFields, hfield] at h
      cases h
      exact .inl (onlyTruncates_takeField bs fault hfield)
    | ok taken =>
      obtain ⟨row, after⟩ := taken
      obtain ⟨rfl, hfits⟩ := takeField_eq_ok_iff.mp hfield
      simp only [List.append_assoc, takeFields_succ hfits] at h ⊢
      split at h
      · next hsome => exact .inr fun more => by rw [if_pos hsome, h]
      · next hnone => simpa only [if_neg hnone] using ih h

/-! ### Decoding -/

/-- Behind a count and a key, decoding is reading as many fields and meeting the end. -/
theorem ofDump_header (hkey : FitsLength key) (hcount : count < 2 ^ 64) (bs : Bytes) :
    ofDump (Word.bigEndian 8 count ++ dumpText key ++ bs) =
      takeFields count ∅ bs >>= fun (fields, rest) =>
        if rest.isEmpty then .ok { key, fields } else .error (.trailing rest.length) := by
  have hword : count = (UInt64.ofNat count).toNat := (UInt64.toNat_ofNat_of_lt' hcount).symm
  rw [ofDump, List.append_assoc, hword, takeWord_eq_ok_iff.mpr rfl]
  simp only [bind, Except.bind, takeText_eq_ok_iff.mpr ⟨rfl, hkey⟩]
  rfl

/-- Decoding fails for a part that is cut off, or finds a count and a key. -/
theorem header_of_ofDump {outcome : Except DumpFault Container} (h : ofDump bs = outcome) :
    (∃ part, outcome = .error (.truncated part)) ∨ ∃ count key after, FitsLength key ∧
      count < 2 ^ 64 ∧ bs = Word.bigEndian 8 count ++ dumpText key ++ after := by
  cases hword : takeWord .fieldCount bs with
  | error fault =>
    rw [ofDump, hword] at h
    obtain ⟨part, rfl⟩ := onlyTruncates_takeWord _ _ fault hword
    exact .inl ⟨part, h.symm⟩
  | ok taken =>
    obtain ⟨count, after⟩ := taken
    obtain rfl := takeWord_eq_ok_iff.mp hword
    cases htext : takeText .key after with
    | error fault =>
      rw [ofDump, hword] at h
      simp only [bind, Except.bind, htext] at h
      obtain ⟨part, rfl⟩ := onlyTruncates_takeText _ _ fault htext
      exact .inl ⟨part, h.symm⟩
    | ok taken =>
      obtain ⟨key, after⟩ := taken
      obtain ⟨rfl, hkey⟩ := takeText_eq_ok_iff.mp htext
      refine .inr ⟨count.toNat, key, after, hkey, count.toNat_lt, ?_⟩
      rw [List.append_assoc]

/-- Behind the payload of a container that fits, whatever the order of its fields, only the end is
left to be met. -/
theorem ofDump_payload (hreached : c.fields.Reached) (hfits : c.Fits)
    (hperm : rows.Perm c.fields.records.toList) (rest : Bytes) :
    ofDump (payload rows.length c.key rows ++ rest) =
      if rest.isEmpty then .ok c else .error (.trailing rest.length) := by
  have hcount : rows.length < 2 ^ 64 := by
    rw [hperm.length_eq]
    exact hfits.size
  have htake : takeFields rows.length ∅ (dumpRows rows ++ rest) = .ok (c.fields, rest) := by
    refine takeFields_eq_ok_iff.mpr ⟨rows, rfl, rfl, ?_, ⟨?_, ?_⟩, ?_⟩
    · exact fun row hrow => hfits.rows row (hperm.mem_iff.mp hrow)
    · exact (hperm.map _).nodup_iff.mpr c.fields.nodup_names
    · exact fun _ _ => rfl
    · exact (hreached.consistent.putAll_eq hperm).symm
  rw [payload, List.append_assoc, ofDump_header hfits.key hcount, htake]
  rfl

/-- What decodes is the payload of a container that fits, its fields in some order. -/
theorem ofDump_eq_ok_iff :
    ofDump bs = .ok c ↔ c.fields.Reached ∧ c.Fits ∧ IsDumpOf c bs := by
  constructor
  · intro h
    obtain ⟨part, herror⟩ | ⟨count, key, after, hkey, hcount, rfl⟩ := header_of_ofDump h
    · cases herror
    · rw [ofDump_header hkey hcount] at h
      obtain ⟨⟨fields, rest⟩, htake, hend⟩ := ok_of_bind h
      obtain ⟨rows, rfl, rfl, hrows, hfresh, rfl⟩ := takeFields_eq_ok_iff.mp htake
      dsimp only at hend
      split at hend
      · next hempty =>
        cases hend
        rw [List.isEmpty_iff.mp hempty, List.append_nil]
        have hperm := Fields.perm_putAll hfresh.nodup
        refine ⟨Fields.Reached.empty.foldl_put rows, ⟨hkey, fun row hrow => ?_, ?_⟩, rows, hperm,
          rfl⟩
        · exact hrows row (hperm.mem_iff.mpr hrow)
        · rw [hperm.length_eq] at hcount
          exact hcount
      · cases hend
  · rintro ⟨hreached, hfits, rows, hperm, rfl⟩
    have h := ofDump_payload hreached hfits hperm []
    rwa [List.append_nil] at h

/-- Bytes after what decodes are reported as trailing, all of them. -/
theorem ofDump_append (h : ofDump bs = .ok c) (hmore : more ≠ []) :
    ofDump (bs ++ more) = .error (.trailing more.length) := by
  obtain ⟨hreached, hfits, rows, hperm, rfl⟩ := ofDump_eq_ok_iff.mp h
  rw [ofDump_payload hreached hfits hperm, if_neg (by rwa [List.isEmpty_iff])]

/-- Unless a part is cut off, what fails to decode fails with more bytes after it as well. -/
theorem ofDump_error {fault : DumpFault} (h : ofDump bs = .error fault) (more : Bytes) :
    (∃ part, fault = .truncated part) ∨ ∃ other, ofDump (bs ++ more) = .error other := by
  obtain ⟨part, herror⟩ | ⟨count, key, after, hkey, hcount, rfl⟩ := header_of_ofDump h
  · cases herror
    exact .inl ⟨part, rfl⟩
  · rw [List.append_assoc, ofDump_header hkey hcount]
    rw [ofDump_header hkey hcount] at h
    cases htake : takeFields count ∅ after with
    | error other =>
      rw [htake] at h
      cases h
      obtain htruncated | hstays := takeFields_error htake
      · exact .inl htruncated
      · exact .inr ⟨fault, by rw [hstays more]; rfl⟩
    | ok taken =>
      obtain ⟨fields, rest⟩ := taken
      obtain ⟨rows, rfl, rfl, hrows, hfresh, rfl⟩ := takeFields_eq_ok_iff.mp htake
      rw [htake] at h
      have hmore : (rest ++ more).isEmpty = false := by
        cases rest with
        | nil => cases h
        | cons b rest => rfl
      refine .inr ⟨.trailing (rest ++ more).length, ?_⟩
      rw [List.append_assoc, takeFields_eq_ok_iff.mpr ⟨rows, rfl, rfl, hrows, hfresh, rfl⟩]
      simp only [bind, Except.bind, hmore, Bool.false_eq_true, if_false]

/-- What decodes is cut off if any bytes are missing at its end. -/
theorem ofDump_of_prefix (h : ofDump bs = .ok c) {front : Bytes} (hstart : front <+: bs)
    (hproper : front ≠ bs) : ∃ part, ofDump front = .error (.truncated part) := by
  obtain ⟨more, rfl⟩ := hstart
  have hmore : more ≠ [] := fun he => hproper (by rw [he, List.append_nil])
  cases hfront : ofDump front with
  | ok c' =>
    rw [ofDump_append hfront hmore] at h
    cases h
  | error fault =>
    obtain ⟨part, rfl⟩ | ⟨other, hother⟩ := ofDump_error hfront more
    · exact ⟨part, rfl⟩
    · rw [hother] at h
      cases h

/-- Fields that repeat a name are refused, whatever comes after them. -/
theorem ofDump_duplicateField (hkey : FitsLength key) (hrows : ∀ row ∈ rows, FitsRow row)
    (hle : rows.length ≤ count) (hcount : count < 2 ^ 64) (h : ¬ (rows.map Prod.fst).Nodup)
    (rest : Bytes) :
    ∃ name, List.Duplicate name (rows.map Prod.fst) ∧
      ofDump (payload count key rows ++ rest) = .error (.duplicateField name) := by
  obtain ⟨name, hname, herror⟩ :=
    exists_duplicateField (f := ∅) hrows (fun hfresh => h hfresh.nodup) hle rest
  refine ⟨name, hname.resolve_right fun hmem => absurd hmem.2 nofun, ?_⟩
  rw [payload, List.append_assoc, ofDump_header hkey hcount, herror]
  rfl

/-- Decoding inverts dumping and accepts nothing else. A container that came about by changes of its
fields, and whose strings are short enough for their lengths to be written, is what its dump decodes
as, in whatever order the fields stand; and what decodes as a container is such a dump of it, byte for
byte. A dump that lacks bytes at its end is cut off, one with more bytes has them trailing, and fields
that repeat a name are refused. -/
theorem decodes_exactly_dumps :
    (∀ c : Container, c.fields.Reached → c.Fits → ofDump c.dump = .ok c) ∧
    (∀ (bs : Bytes) (c : Container),
      ofDump bs = .ok c ↔ c.fields.Reached ∧ c.Fits ∧ IsDumpOf c bs) ∧
    (∀ (bs : Bytes) (c : Container), ofDump bs = .ok c →
      (∀ front, front <+: bs → front ≠ bs → ∃ part, ofDump front = .error (.truncated part)) ∧
      ∀ more, more ≠ [] → ofDump (bs ++ more) = .error (.trailing more.length)) ∧
    ∀ (count : Nat) (key : Bytes) (rows : List (Bytes × Record)) (rest : Bytes), FitsLength key →
      (∀ row ∈ rows, FitsRow row) → rows.length ≤ count → count < 2 ^ 64 →
      ¬ (rows.map Prod.fst).Nodup →
      ∃ name, List.Duplicate name (rows.map Prod.fst) ∧
        ofDump (payload count key rows ++ rest) = .error (.duplicateField name) := by
  refine ⟨fun c hreached hfits => ?_, fun _ _ => ofDump_eq_ok_iff, fun bs c h => ⟨?_, ?_⟩, ?_⟩
  · exact ofDump_eq_ok_iff.mpr ⟨hreached, hfits, isDumpOf_dump c⟩
  · exact fun front hstart hproper => ofDump_of_prefix h hstart hproper
  · exact fun more hmore => ofDump_append h hmore
  · exact fun count key rows rest hkey hrows hle hcount h =>
      ofDump_duplicateField hkey hrows hle hcount h rest

/-- Two fields, one that expires and a sum, the second one first; the dump without its last byte, with
one more, and with its fields twice. -/
theorem decodes_two_fields_in_descending_order :
    let write : FieldsChange := .set [97] [1] { ttl := .set (.after 7) }
    let sum : FieldsChange := .incrBy [98] 3 {} .next .keep
    let c : Container := ⟨[107], ((∅ : Fields).changed 5 write).changed 6 sum⟩
    let rows := c.fields.records.toList.reverse
    let bs := payload 2 c.key rows
    bs ≠ c.dump ∧ ofDump bs = .ok c ∧
      (∃ part, ofDump bs.dropLast = .error (.truncated part)) ∧
      ofDump (bs ++ [0]) = .error (.trailing 1) ∧
      ∃ name, List.Duplicate name [[98], [97], [98], [97]] ∧
        ofDump (payload 4 c.key (rows ++ rows)) = .error (.duplicateField name) := by
  intro write sum c rows bs
  have hne : bs ≠ c.dump := by decide +kernel
  have hrows : ∀ row ∈ rows, FitsRow row := by
    have hlengths : ∀ row ∈ rows, row.1.length < 2 ^ 32 ∧ row.2.value.length < 2 ^ 32 := by
      decide +kernel
    exact fun row h => ⟨(hlengths row h).1, (hlengths row h).2⟩
  have hkey : FitsLength c.key := show 1 < 2 ^ 32 by decide
  have hfits : c.Fits := ⟨hkey, fun row h => hrows row (List.mem_reverse.mpr h), by decide +kernel⟩
  have hreached : c.fields.Reached := (Fields.Reached.empty.change 5 write).change 6 sum
  obtain ⟨-, hiff, hends, hduplicate⟩ := decodes_exactly_dumps
  have hok : ofDump bs = .ok c :=
    (hiff bs c).mpr ⟨hreached, hfits, rows, List.reverse_perm _, by decide +kernel⟩
  obtain ⟨hfront, hmore⟩ := hends bs c hok
  refine ⟨hne, hok, hfront _ ( List.dropLast_prefix bs) (by decide +kernel), hmore [0] nofun, ?_⟩
  have htwice : ∀ row ∈ rows ++ rows, FitsRow row := fun row h =>
    hrows row ((List.mem_append.mp h).elim id id)
  obtain ⟨name, hname, herror⟩ := hduplicate 4 c.key (rows ++ rows) [] hkey htwice
    (by decide +kernel) (by decide) (by decide +kernel)
  exact ⟨name, hname, by rwa [List.append_nil] at herror⟩

end Container
end ExpiringHash
