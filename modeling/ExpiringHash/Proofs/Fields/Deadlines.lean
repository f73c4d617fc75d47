import ExpiringHash.Proofs.Fields.Changes
import ExpiringHash.Proofs.Fields.Live
import Mathlib.Data.List.Nodup

/-!
# What the fields answer of their expiries

The expiries of the records, and the places of all records in a scan, are lists that the records alone
decide. However fields came about, the structures that they keep beside the records hold just these.
So whatever is read off them is what the records say: how many fields are live, which field expires
first, and which fields have expired, earliest first.
-/
namespace ExpiringHash

open Std

namespace SortedTable

variable {ρ κ : Type} [Ord κ] {key : ρ → κ}

/-- Whether the key of a row does not come after that of another. -/
def inOrder (key : ρ → κ) (a b : ρ) : Bool := (compare (key a) (key b)).isLE

variable [TransOrd κ] [LawfulEqOrd κ]

/-- The rows of a table, in whatever order they come, are sorted to the list of the table. -/
theorem mergeSort_of_perm {t : SortedTable key} {rows : List ρ} (h : rows.Perm t.toList) :
    rows.mergeSort (inOrder key) = t.toList := by
  have htotal (a b : ρ) : (inOrder key a b || inOrder key b a) = true := by
    rw [inOrder, inOrder, @OrientedCmp.eq_swap _ compare _ (key b)]
    cases compare (key a) (key b) <;> rfl
  have hsorted : (rows.mergeSort (inOrder key)).Pairwise fun a b => inOrder key a b = true :=
    List.pairwise_mergeSort (fun _ _ _ => TransCmp.isLE_trans) htotal rows
  have htable : t.toList.Pairwise fun a b => inOrder key a b = true :=
    t.sorted.imp fun hlt => by rw [inOrder, hlt]; rfl
  have hperm := (List.mergeSort_perm rows (inOrder key)).trans h
  refine hperm.eq_of_pairwise (fun a b ha hb hab hba => ?_) hsorted htable
  exact eq_of_key_eq (hperm.mem_iff.mp ha) hb
    (LawfulEqCmp.eq_of_compare (OrientedCmp.isLE_antisymm hab hba))

end SortedTable

namespace Fields

variable {f : Fields} {now : UInt64} {e : Ranked Bytes}

/-- The expiry of a record, filed with its field. -/
def deadline (row : Bytes × Record) : Ranked Bytes := ⟨row.2.expireAt, row.1⟩

/-- The expiries of all records that have one. -/
def deadlines (f : Fields) : List (Ranked Bytes) :=
  (f.records.toList.filter fun row => row.2.hasTtl).map deadline

/-- The expiries of the records that have expired. -/
def pastDeadlines (f : Fields) (now : UInt64) : List (Ranked Bytes) :=
  (f.records.toList.filter fun row => row.2.isExpired now).map deadline

/-- The places of all records in a scan. -/
def places (f : Fields) : List (Ranked Bytes) :=
  f.records.toList.map fun row => ⟨position row.1, row.1⟩

/-- By time, then by field. -/
abbrev inOrder : Ranked Bytes → Ranked Bytes → Bool := SortedTable.inOrder id

theorem mem_deadlines_iff :
    e ∈ f.deadlines ↔ 0 < e.rank ∧ ∃ r, f.get? e.item = some r ∧ r.expireAt = e.rank := by
  simp only [deadlines, List.mem_map, List.mem_filter, Record.hasTtl, decide_eq_true_eq]
  constructor
  · rintro ⟨row, ⟨hrow, hpos⟩, rfl⟩
    exact ⟨hpos, row.2, SortedTable.get?_eq_some_iff.mpr hrow, rfl⟩
  · rintro ⟨hpos, r, hr, he⟩
    refine ⟨(e.item, r), ⟨SortedTable.mem_of_get? hr, ?_⟩, ?_⟩
    · rw [he]
      exact hpos
    · rw [deadline, he]

theorem mem_places_iff :
    e ∈ f.places ↔ e.rank = position e.item ∧ (f.get? e.item).isSome = true := by
  simp only [places, List.mem_map, Option.isSome_iff_exists]
  constructor
  · rintro ⟨row, hrow, rfl⟩
    exact ⟨rfl, row.2, SortedTable.get?_eq_some_iff.mpr hrow⟩
  · rintro ⟨hplace, r, hr⟩
    refine ⟨(e.item, r), SortedTable.mem_of_get? hr, ?_⟩
    rw [← hplace]

/-- Different records have different names, so no deadline comes twice. -/
theorem nodup_deadlines (f : Fields) : f.deadlines.Nodup := by
  refine List.Nodup.of_map Ranked.item ?_
  rw [deadlines, List.map_map]
  exact f.nodup_names.sublist (List.filter_sublist.map _)

/-- The deadlines that have passed are those that are not later than now. -/
theorem pastDeadlines_eq_filter (f : Fields) (now : UInt64) :
    f.pastDeadlines now = f.deadlines.filter fun e => e.rank ≤ now := by
  rw [pastDeadlines, deadlines, List.filter_map, List.filter_filter]
  refine congrArg _ (List.filter_congr fun row _ => ?_)
  exact Bool.and_comm _ _

namespace Consistent

theorem perm_deadlines (hf : f.Consistent) : f.deadlines.Perm f.expiring.toList := by
  refine (List.perm_ext_iff_of_nodup f.nodup_deadlines f.expiring.nodup_toList).mpr fun e => ?_
  rw [mem_deadlines_iff, SortedTable.mem_toList, hf.expiring]

/-- No more fields are due than there are. -/
theorem length_due_le_size (hf : f.Consistent) (now : UInt64) :
    (f.expiring.due now).length ≤ f.size := by
  have hdue := (hf.perm_due now).length_eq
  rw [List.length_map, List.length_map] at hdue
  rw [hdue]
  exact List.length_filter_le _ _

/-- The fields that are due are those whose deadlines have passed, in order. -/
theorem due_eq_mergeSort (hf : f.Consistent) (now : UInt64) :
    f.expiring.due now = (f.pastDeadlines now).mergeSort inOrder := by
  have hperm : (f.pastDeadlines now).Perm (f.expiring.select fun e => e.rank ≤ now).toList := by
    rw [pastDeadlines_eq_filter]
    exact hf.perm_deadlines.filter _
  rw [DeadlineSet.due_eq_filter]
  exact (SortedTable.mergeSort_of_perm hperm).symm

theorem earliest?_eq_some_iff (hf : f.Consistent) :
    f.earliest? = some e ↔ e ∈ f.deadlines ∧ ∀ a ∈ f.deadlines, inOrder e a = true := by
  have hmem (a : Ranked Bytes) : a ∈ f.deadlines ↔ a ∈ f.expiring := hf.perm_deadlines.mem_iff
  simp only [earliest?, SortedTable.first?_eq_some_iff, hmem, inOrder, SortedTable.inOrder, id_eq,
    Ordering.isLE_iff_ne_gt, ne_eq]

theorem earliest?_eq_none_iff (hf : f.Consistent) : f.earliest? = none ↔ f.deadlines = [] := by
  rw [earliest?, SortedTable.first?_eq_none_iff, List.eq_nil_iff_forall_not_mem]
  exact forall_congr' fun e => not_congr hf.perm_deadlines.mem_iff.symm

/-- The earliest expiry is the smallest of all. -/
theorem minExpiry?_eq_min? (hf : f.Consistent) :
    f.minExpiry? = (f.deadlines.map (·.rank)).min? := by
  rw [minExpiry?, earliest?, ← DeadlineSet.min?_rank]
  refine Option.ext fun time => ?_
  simp only [List.min?_eq_some_iff, (hf.perm_deadlines.map (·.rank)).mem_iff]

end Consistent

/-- What the fields keep beside their records, and all that is read off it, is what the records say. -/
structure Truthful (f : Fields) : Prop where
  expiring : ∀ e, e ∈ f.expiring ↔ e ∈ f.deadlines
  positions : ∀ e, e ∈ f.positions ↔ e ∈ f.places
  /-- The fields that are due can be taken from all fields, and those that are live are left. -/
  liveSize : ∀ now, (f.expiring.due now).length ≤ f.size ∧
    f.liveSize now = f.records.toList.countP fun row => !row.2.isExpired now
  earliest? : ∀ e,
    f.earliest? = some e ↔ e ∈ f.deadlines ∧ ∀ a ∈ f.deadlines, inOrder e a = true
  /-- There is a field that expires first, unless none expires. -/
  noEarliest : f.earliest? = none ↔ f.deadlines = []
  minExpiry? : f.minExpiry? = (f.deadlines.map (·.rank)).min?
  expired : ∀ now limit,
    f.expired now limit = ((f.pastDeadlines now).mergeSort inOrder).take limit

/-- Whatever changes fields came about by, also such as were refused, what they keep beside their
records and what they answer from it is what the records say. -/
theorem truthful_of_reached (h : f.Reached) : f.Truthful := by
  have hf := h.consistent
  refine ⟨fun e => hf.perm_deadlines.mem_iff.symm, fun e => ?_, fun now => ⟨?_, ?_⟩, fun e => ?_, ?_,
    ?_, fun now limit => ?_⟩
  · rw [hf.positions, mem_places_iff]
  · exact hf.length_due_le_size now
  · rw [hf.liveSize_eq, live, List.countP_eq_length_filter]
  · exact hf.earliest?_eq_some_iff
  · exact hf.earliest?_eq_none_iff
  · exact hf.minExpiry?_eq_min?
  · rw [Fields.expired, hf.due_eq_mergeSort]

/-- Two of four fields expire at one time, a third one later. A change of its expiry is refused, for it
names another version; one of the two is written again after its time, to expire at the same time. -/
theorem truthful_of_reached_ties :
    let stored := (((∅ : Fields).changed 5 (.set [98] [1] { ttl := .set (.moment 50) })).changed 6
      (.set [97] [2] { ttl := .set (.moment 50) })).changed 7 (.set [99] [3] {})
    let refused := (stored.changed 8 (.set [100] [4] { ttl := .set (.after 892) })).changed 9
      (.setExpiry [100] (.moment 20) (.matching 7))
    let f := refused.changed 60 (.set [98] [5] { ttl := .set (.moment 50) })
    f.Reached ∧ f.Truthful ∧ f.deadlines = [⟨50, [97]⟩, ⟨50, [98]⟩, ⟨900, [100]⟩] ∧
      f.liveSize 100 = 2 ∧ f.earliest? = some ⟨50, [97]⟩ ∧ f.expired 100 1 = [⟨50, [97]⟩] ∧
      f.expired 900 9 = f.deadlines := by
  intro stored refused f
  have h : f.Reached := .change 60 _ (.change 9 _ (.change 8 _ (.change 7 _ (.change 6 _
    (.change 5 _ .empty)))))
  exact ⟨h, truthful_of_reached h, by decide +kernel, by decide +kernel, by decide +kernel,
    by decide +kernel, by decide +kernel⟩

end Fields
end ExpiringHash
