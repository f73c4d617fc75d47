import ExpiringHash.Proofs.Expiry.Entries
import ExpiringHash.Proofs.Fields.Outcomes

/-!
# Live records

What the fields of a container have to show at a time are the records that have not expired then.
Fields that expire are filed by their expiry, so the expired ones are a first part of that file, and
counting them tells how many are live.
-/
namespace ExpiringHash

open Std

/-- What holds of a first part of a list only is filtered by taking that part. -/
theorem takeWhile_eq_filter {α : Type} {p : α → Bool} {l : List α}
    (h : l.Pairwise fun a b => p b = true → p a = true) : l.takeWhile p = l.filter p := by
  induction l with
  | nil => rfl
  | cons a l ih =>
    obtain ⟨ha, hl⟩ := List.pairwise_cons.mp h
    by_cases hp : p a = true
    · rw [List.takeWhile_cons_of_pos hp, List.filter_cons_of_pos hp, ih hl]
    · rw [List.takeWhile_cons_of_neg hp, List.filter_cons_of_neg hp]
      exact (List.filter_eq_nil_iff.mpr fun b hb hpb => hp (ha b hb hpb)).symm

theorem DeadlineSet.due_eq_filter {α : Type} [Ord α] [TransOrd α] [LawfulEqOrd α]
    (s : DeadlineSet α) (now : UInt64) : s.due now = s.toList.filter (·.rank ≤ now) := by
  refine takeWhile_eq_filter (s.sorted.imp fun {a b} hlt hb => ?_)
  have hlt : compare a b = .lt := hlt
  have hle := Ranked.rank_le_of_compare_ne_gt (a := a) (b := b) (by rw [hlt]; decide)
  exact decide_eq_true (UInt64.le_trans hle (of_decide_eq_true hb))

namespace Fields

variable {f g : Fields} {field : Bytes} {now : UInt64} {r : Record}

/-- The records that have not expired. -/
def liveRecords (f : Fields) (now : UInt64) : SortedMap Bytes Record :=
  f.records.select fun r => !r.2.isExpired now

theorem get?_liveRecords (f : Fields) (now : UInt64) (field : Bytes) :
    (f.liveRecords now).get? field = f.live? field now :=
  SortedTable.get?_select ..

theorem liveRecords_eq_iff :
    f.liveRecords now = g.liveRecords now ↔ ∀ field, f.live? field now = g.live? field now := by
  constructor
  · intro h field
    rw [← get?_liveRecords, h, get?_liveRecords]
  · intro h
    refine SortedTable.ext_get? fun field => ?_
    rw [get?_liveRecords, get?_liveRecords, h]

theorem live?_congr (h : f.get? field = g.get? field) : f.live? field now = g.live? field now := by
  rw [live?, live?, h]

theorem live?_of_isExpired (h : f.get? field = some r) (he : r.isExpired now = true) :
    f.live? field now = none := by
  rw [live?, h, Option.filter_some, he]
  rfl

theorem live?_of_get?_none (h : f.get? field = none) : f.live? field now = none := by
  rw [live?, h]
  rfl

namespace Consistent

theorem mem_due (hf : f.Consistent) {e : Ranked Bytes} :
    e ∈ f.expiring.due now ↔
      ∃ r, f.get? e.item = some r ∧ r.expireAt = e.rank ∧ r.isExpired now = true := by
  rw [DeadlineSet.due_eq_filter, List.mem_filter, decide_eq_true_iff, SortedTable.mem_toList,
    hf.expiring]
  constructor
  · rintro ⟨⟨hpos, r, hr, he⟩, hle⟩
    exact ⟨r, hr, he, (r.isExpired_iff now).mpr (he ▸ ⟨hpos, hle⟩)⟩
  · rintro ⟨r, hr, he, hx⟩
    obtain ⟨hpos, hle⟩ := (r.isExpired_iff now).mp hx
    exact ⟨⟨he ▸ hpos, r, hr, he⟩, he ▸ hle⟩

/-- No field is due twice. -/
theorem nodup_due (hf : f.Consistent) (now : UInt64) :
    ((f.expiring.due now).map (·.item)).Nodup := by
  have hnodup : (f.expiring.due now).Nodup := by
    rw [DeadlineSet.due_eq_filter]
    exact f.expiring.nodup_toList.filter _
  refine List.pairwise_map.mpr (hnodup.imp_of_mem fun {a b} ha hb hne hab => hne ?_)
  obtain ⟨r, hr, hra, -⟩ := hf.mem_due.mp ha
  obtain ⟨r', hr', hrb, -⟩ := hf.mem_due.mp hb
  rw [hab, hr'] at hr
  cases hr
  exact congr (congrArg Ranked.mk (hra.symm.trans hrb)) hab

/-- The records that have expired are those of the fields that are due. -/
theorem perm_due (hf : f.Consistent) (now : UInt64) :
    ((f.expiring.due now).map (·.item)).Perm
      ((f.records.toList.filter fun r => r.2.isExpired now).map (·.1)) := by
  have hnames : ((f.records.toList.filter fun r => r.2.isExpired now).map (·.1)).Nodup :=
    f.nodup_names.sublist (List.filter_sublist.map _)
  refine (List.perm_ext_iff_of_nodup (hf.nodup_due now) hnames).mpr fun field => ?_
  simp only [List.mem_map, List.mem_filter, hf.mem_due]
  constructor
  · rintro ⟨e, ⟨r, hr, -, hx⟩, rfl⟩
    exact ⟨(e.item, r), ⟨SortedTable.mem_of_get? hr, hx⟩, rfl⟩
  · rintro ⟨⟨field, r⟩, ⟨hm, hx⟩, rfl⟩
    exact ⟨⟨r.expireAt, field⟩, ⟨r, SortedTable.get?_eq_some_iff.mpr hm, rfl, hx⟩, rfl⟩

/-- The live records are as many as all records less those that are due. -/
theorem liveSize_eq (hf : f.Consistent) (now : UInt64) : f.liveSize now = (f.live now).length := by
  have hdue := (hf.perm_due now).length_eq
  rw [List.length_map, List.length_map] at hdue
  have hall := f.records.toList.length_eq_countP_add_countP fun r => r.2.isExpired now
  rw [List.countP_eq_length_filter, List.countP_eq_length_filter] at hall
  rw [liveSize, hdue, size, SortedTable.size, hall, Nat.add_sub_cancel_left]
  simp only [live, Bool.not_eq_true, Bool.decide_eq_false]

end Consistent

end Fields

end ExpiringHash
