import ExpiringHash.Proofs.Fields.Consistency

/-!
# The entries of an expiry index

Which entries an index holds after it has followed a change, taken a container in or dropped one. An
index files a container right if, of all entries under its key, it holds those that the container
calls for. Each operation leaves the entries of other keys as they are, so one container at a time
can be looked at.
-/
namespace ExpiringHash

open Std

namespace Ranked

variable {α : Type} [Ord α]

theorem rank_le_of_compare_ne_gt {a b : Ranked α} (h : compare a b ≠ .gt) : a.rank ≤ b.rank := by
  rw [compare_def] at h
  have hle : (compare a.rank b.rank).isLE = true := by
    cases hc : compare a.rank b.rank with
    | lt | eq => rfl
    | gt => rw [hc] at h; exact absurd rfl h
  exact Std.isLE_compare.mp hle

end Ranked

namespace DeadlineSet

variable {α : Type} [Ord α] [TransOrd α] [LawfulEqOrd α]

omit [TransOrd α] [LawfulEqOrd α] in
/-- The earliest time is the smallest. -/
theorem min?_rank (s : DeadlineSet α) : (s.toList.map (·.rank)).min? = s.first?.map (·.rank) := by
  rw [List.min?_eq_head?, List.head?_map]
  · rfl
  · refine List.pairwise_map.mpr (s.sorted.imp fun h => ?_)
    have hle := Ranked.rank_le_of_compare_ne_gt (by rw [h]; decide)
    exact if_pos hle

end DeadlineSet

theorem IndexEntry.ext_iff {a b : IndexEntry} :
    a = b ↔ a.due = b.due ∧ a.key = b.key ∧ a.field = b.field := by
  cases a
  cases b
  simp

namespace Layout

theorem mem_owed_coarse {key : Bytes} {expiring : DeadlineSet Bytes} {e : IndexEntry} :
    e ∈ coarse.owed key expiring ↔
      e.key = key ∧ e.field = none ∧ expiring.first?.map (·.rank) = some e.due := by
  obtain ⟨due, k, field⟩ := e
  cases h : expiring.first? <;> simp [owed, h, eq_comm, and_comm, and_left_comm]

theorem mem_owed_fine {key : Bytes} {expiring : DeadlineSet Bytes} {e : IndexEntry} :
    e ∈ fine.owed key expiring ↔
      e.key = key ∧ ∃ field, e.field = some field ∧ ⟨e.due, field⟩ ∈ expiring := by
  obtain ⟨due, k, field⟩ := e
  simp only [owed, List.mem_map, IndexEntry.mk.injEq]
  constructor
  · rintro ⟨r, hr, rfl, rfl, rfl⟩
    exact ⟨rfl, r.item, rfl, hr⟩
  · rintro ⟨rfl, f, rfl, hr⟩
    exact ⟨⟨due, f⟩, hr, rfl, rfl, rfl⟩

theorem key_of_mem_owed {l : Layout} {key : Bytes} {expiring : DeadlineSet Bytes} {e : IndexEntry}
    (h : e ∈ l.owed key expiring) : e.key = key := by
  cases l with
  | coarse => exact (mem_owed_coarse.mp h).1
  | fine => exact (mem_owed_fine.mp h).1

@[simp] theorem owed_empty (l : Layout) (key : Bytes) : l.owed key ∅ = [] := by cases l <;> rfl

end Layout

namespace ExpiryIndex

theorem mem_entries_coarse {s : DeadlineSet Bytes} {e : IndexEntry} :
    e ∈ (coarse s).entries ↔ e.field = none ∧ ⟨e.due, e.key⟩ ∈ s := by
  obtain ⟨due, key, field⟩ := e
  simp only [entries, List.mem_map, IndexEntry.mk.injEq]
  constructor
  · rintro ⟨r, hr, rfl, rfl, rfl⟩
    exact ⟨rfl, hr⟩
  · rintro ⟨rfl, hr⟩
    exact ⟨⟨due, key⟩, hr, rfl, rfl, rfl⟩

theorem mem_entries_fine {s : DeadlineSet FieldRef} {e : IndexEntry} :
    e ∈ (fine s).entries ↔ ∃ field, e.field = some field ∧ ⟨e.due, e.key, field⟩ ∈ s := by
  obtain ⟨due, key, field⟩ := e
  simp only [entries, List.mem_map, IndexEntry.mk.injEq]
  constructor
  · rintro ⟨r, hr, rfl, rfl, rfl⟩
    exact ⟨r.item.field, rfl, hr⟩
  · rintro ⟨f, rfl, hr⟩
    exact ⟨⟨due, key, f⟩, hr, rfl, rfl, rfl⟩

/-- Under this key the index holds the entries that the expiring fields call for. -/
def Files (i : ExpiryIndex) (key : Bytes) (expiring : DeadlineSet Bytes) : Prop :=
  ∀ e, e.key = key → (e ∈ i.entries ↔ e ∈ i.layout.owed key expiring)

/-- The index `j` is `i` with the entries of one key replaced by those that the expiring fields
call for. -/
structure Refiled (i : ExpiryIndex) (key : Bytes) (expiring : DeadlineSet Bytes)
    (j : ExpiryIndex) : Prop where
  layout : j.layout = i.layout
  mem : ∀ e, e ∈ j.entries ↔ e ∈ i.layout.owed key expiring ∨ (e.key ≠ key ∧ e ∈ i.entries)

namespace Refiled

variable {i j : ExpiryIndex} {key other : Bytes} {expiring others : DeadlineSet Bytes}

theorem files_self (h : i.Refiled key expiring j) : j.Files key expiring := by
  intro e he
  rw [h.mem, h.layout]
  simp [he]

theorem files_of_ne (h : i.Refiled key expiring j) (hne : other ≠ key) (ho : i.Files other others) :
    j.Files other others := by
  intro e he
  have hn : e ∉ i.layout.owed key expiring :=
    fun hm => hne (he.symm.trans (Layout.key_of_mem_owed hm))
  rw [h.mem, h.layout, ← ho e he]
  simp [hn, he, hne]

end Refiled

theorem Files.mem_coarse {s : DeadlineSet Bytes} {key : Bytes} {expiring : DeadlineSet Bytes}
    (h : (coarse s).Files key expiring) (due : UInt64) :
    ⟨due, key⟩ ∈ s ↔ expiring.first?.map (·.rank) = some due := by
  have he := h ⟨due, key, none⟩ rfl
  rw [mem_entries_coarse] at he
  exact (and_iff_right rfl).symm.trans
    (he.trans (Layout.mem_owed_coarse.trans ((and_iff_right rfl).trans (and_iff_right rfl))))

theorem Files.mem_fine {s : DeadlineSet FieldRef} {key : Bytes} {expiring : DeadlineSet Bytes}
    (h : (fine s).Files key expiring) (due : UInt64) (field : Bytes) :
    ⟨due, key, field⟩ ∈ s ↔ ⟨due, field⟩ ∈ expiring := by
  have he := h ⟨due, key, some field⟩ rfl
  rw [mem_entries_fine] at he
  simpa [layout, Layout.mem_owed_fine] using he

/-- Refiling a container takes it from one minimum to another. -/
theorem mem_refile_coarse {s : DeadlineSet Bytes} {key : Bytes} {before after : Option UInt64}
    (h : ∀ due, ⟨due, key⟩ ∈ s ↔ before = some due) {e : IndexEntry} :
    e ∈ (coarse (s.refile key before after)).entries ↔
      (e.key = key ∧ e.field = none ∧ after = some e.due) ∨
        (e.key ≠ key ∧ e ∈ (coarse s).entries) := by
  obtain ⟨due, k, field⟩ := e
  simp only [mem_entries_coarse, DeadlineSet.mem_refile, Ranked.mk.injEq]
  by_cases hk : k = key
  · subst hk
    simp only [h, and_true, not_true, ne_eq, false_and, or_false, true_and, exists_eq_right']
    refine and_congr_right fun _ => ⟨fun hb => ?_, .inl⟩
    exact hb.resolve_right fun hmem => hmem.2 due hmem.1 rfl
  · simp [hk]

/-- Refiling a field takes it from one expiry to another. -/
theorem mem_refile_fine {s : DeadlineSet FieldRef} {key field : Bytes}
    {before after : Option UInt64} {e : IndexEntry} :
    e ∈ (fine (s.refile ⟨key, field⟩ before after)).entries ↔
      (e.key = key ∧ e.field = some field ∧ after = some e.due) ∨
        (e ∈ (fine s).entries ∧
          (e.key = key → e.field = some field → before ≠ some e.due)) := by
  obtain ⟨due, k, f⟩ := e
  simp only [mem_entries_fine, DeadlineSet.mem_refile, Ranked.mk.injEq, FieldRef.mk.injEq]
  cases f with
  | none => simp
  | some f =>
    simp only [Option.some.injEq, exists_eq_left']
    grind

/-- An index that follows a change of a container files the changed container right. -/
theorem refiled_apply {i : ExpiryIndex} {key : Bytes} {f g : Fields} {s : ExpiryShift}
    (h : i.Files key f.expiring) (hs : f.Shifted g s) :
    i.Refiled key g.expiring (i.apply key s) := by
  refine ⟨layout_apply i key s, fun e => ?_⟩
  cases i with
  | coarse t =>
    have hmem := h.mem_coarse
    have hb : s.minBefore = f.expiring.first?.map (·.rank) := hs.minBefore
    have ha : s.minAfter = g.expiring.first?.map (·.rank) := hs.minAfter
    rw [← hb] at hmem
    have hr := @mem_refile_coarse t key s.minBefore s.minAfter hmem e
    simp only [layout, Layout.mem_owed_coarse, apply, ← ha]
    split
    · next hsame =>
      rw [← hsame, mem_entries_coarse]
      by_cases hk : e.key = key
      · simp [hk, ← hmem]
      · simp [hk]
    · exact hr
  | fine t =>
    have hmem := h.mem_fine
    simp only [layout, Layout.mem_owed_fine, apply, hs.after]
    obtain ⟨due, k, field⟩ := e
    have hb := hs.before due
    split
    · next hsame =>
      rw [mem_entries_fine]
      by_cases hk : k = key
      · subst hk
        simp only [hmem, ← hsame, ← hb]
        grind
      · simp [hk]
    · rw [mem_refile_fine, mem_entries_fine]
      by_cases hk : k = key
      · subst hk
        simp only [hmem, ne_eq, ← hb]
        grind
      · simp [hk]

/-- An index has nothing to follow if no expiry moved. -/
theorem apply_of_isTrivial (i : ExpiryIndex) (key : Bytes) {shift : ExpiryShift}
    (h : shift.isTrivial = true) : i.apply key shift = i := by
  simp only [ExpiryShift.isTrivial, Bool.and_eq_true, beq_iff_eq] at h
  cases i with
  | coarse t => exact if_pos h.2
  | fine t => exact if_pos h.1

theorem files_empty_iff {i : ExpiryIndex} {key : Bytes} :
    i.Files key ∅ ↔ ∀ e ∈ i.entries, e.key ≠ key := by
  simp only [Files, Layout.owed_empty, List.not_mem_nil, iff_false]
  exact ⟨fun h e he hk => h e hk he, fun h e hk he => h e he hk⟩

theorem mem_foldl_add {key : Bytes} {expiring : List (Ranked Bytes)} {s : DeadlineSet FieldRef}
    {e : IndexEntry} :
    e ∈ (fine (expiring.foldl (fun s r => s.refile ⟨key, r.item⟩ none (some r.rank)) s)).entries ↔
      (e.key = key ∧ ∃ field, e.field = some field ∧ ⟨e.due, field⟩ ∈ expiring) ∨
        e ∈ (fine s).entries := by
  induction expiring generalizing s with
  | nil => simp
  | cons r rs ih =>
    rw [List.foldl_cons, ih, mem_refile_fine]
    obtain ⟨due, item⟩ := r
    simp only [List.mem_cons, Ranked.mk.injEq, Option.some.injEq]
    grind

theorem mem_foldl_drop {key : Bytes} {expiring : List (Ranked Bytes)} {s : DeadlineSet FieldRef}
    {e : IndexEntry} :
    e ∈ (fine (expiring.foldl (fun s r => s.refile ⟨key, r.item⟩ (some r.rank) none) s)).entries ↔
      e ∈ (fine s).entries ∧
        ¬(e.key = key ∧ ∃ field, e.field = some field ∧ ⟨e.due, field⟩ ∈ expiring) := by
  induction expiring generalizing s with
  | nil => simp
  | cons r rs ih =>
    rw [List.foldl_cons, ih, mem_refile_fine]
    obtain ⟨due, item⟩ := r
    simp only [List.mem_cons, Ranked.mk.injEq]
    grind

/-- An index that takes a container in files it right, if it held nothing under its key. -/
theorem refiled_attach {i : ExpiryIndex} {key : Bytes} {expiring : DeadlineSet Bytes}
    (h : i.Files key ∅) : i.Refiled key expiring (i.attach key expiring.toList) := by
  refine ⟨layout_attach i key _, fun e => ?_⟩
  have hfree : e ∈ i.entries ↔ e.key ≠ key ∧ e ∈ i.entries :=
    ⟨fun he => ⟨files_empty_iff.mp h e he, he⟩, And.right⟩
  cases i with
  | coarse s =>
    have hmem (due : UInt64) : ⟨due, key⟩ ∈ s ↔ none = some due := h.mem_coarse due
    rw [attach, DeadlineSet.min?_rank, mem_refile_coarse hmem]
    simp only [layout, Layout.mem_owed_coarse]
  | fine s =>
    rw [attach, mem_foldl_add, ← hfree]
    simp only [layout, Layout.mem_owed_fine]
    rfl

/-- An index that drops a container it files right holds nothing under its key. -/
theorem refiled_detach {i : ExpiryIndex} {key : Bytes} {expiring : DeadlineSet Bytes}
    (h : i.Files key expiring) : i.Refiled key ∅ (i.detach key expiring.toList) := by
  refine ⟨layout_detach i key _, fun e => ?_⟩
  rw [Layout.owed_empty]
  simp only [List.not_mem_nil, false_or]
  cases i with
  | coarse s =>
    have hmem (due : UInt64) : ⟨due, key⟩ ∈ s ↔ expiring.first?.map (·.rank) = some due :=
      h.mem_coarse due
    rw [detach, DeadlineSet.min?_rank, mem_refile_coarse hmem]
    simp
  | fine s =>
    have hk := h e
    rw [detach, mem_foldl_drop]
    simp only [layout, Layout.mem_owed_fine] at hk
    constructor
    · rintro ⟨he, hn⟩
      exact ⟨fun hkey => hn ((hk hkey).mp he), he⟩
    · rintro ⟨hkey, he⟩
      exact ⟨he, fun hn => hkey hn.1⟩

/-- Dropping a container takes out the entries that it calls for, whether or not they are its own. -/
theorem mem_detach {i : ExpiryIndex} {key : Bytes} {expiring : DeadlineSet Bytes} {e : IndexEntry} :
    e ∈ (i.detach key expiring.toList).entries ↔
      e ∈ i.entries ∧ e ∉ i.layout.owed key expiring := by
  cases i with
  | coarse s =>
    obtain ⟨due, k, field⟩ := e
    rw [detach, DeadlineSet.min?_rank]
    simp only [mem_entries_coarse, DeadlineSet.mem_refile, layout, Layout.mem_owed_coarse,
      Ranked.mk.injEq]
    grind
  | fine s =>
    rw [detach, mem_foldl_drop]
    simp only [layout, Layout.mem_owed_fine]
    rfl

/-- Taking a container in adds the entries that it calls for. -/
theorem mem_attach {i : ExpiryIndex} {key : Bytes} {expiring : DeadlineSet Bytes} {e : IndexEntry} :
    e ∈ (i.attach key expiring.toList).entries ↔
      e ∈ i.entries ∨ e ∈ i.layout.owed key expiring := by
  cases i with
  | coarse s =>
    obtain ⟨due, k, field⟩ := e
    rw [attach, DeadlineSet.min?_rank]
    simp only [mem_entries_coarse, DeadlineSet.mem_refile, layout, Layout.mem_owed_coarse,
      Ranked.mk.injEq]
    grind
  | fine s =>
    rw [attach, mem_foldl_add, or_comm]
    simp only [layout, Layout.mem_owed_fine]
    rfl

/-- An index is determined by its layout and its entries. -/
theorem ext_entries {i j : ExpiryIndex} (hl : i.layout = j.layout)
    (h : ∀ e, e ∈ i.entries ↔ e ∈ j.entries) : i = j := by
  cases i with
  | coarse s =>
    cases j with
    | fine t => cases hl
    | coarse t =>
      refine congrArg coarse (SortedTable.ext_mem fun r => ?_)
      simpa [mem_entries_coarse] using h ⟨r.rank, r.item, none⟩
  | fine s =>
    cases j with
    | coarse t => cases hl
    | fine t =>
      refine congrArg fine (SortedTable.ext_mem fun r => ?_)
      simpa [mem_entries_fine] using h ⟨r.rank, r.item.key, some r.item.field⟩

end ExpiryIndex

namespace IndexEntry

/-- By time, then key, then field. -/
def cmp (a b : IndexEntry) : Ordering :=
  (compare a.due b.due).then ((compare a.key b.key).then (compare a.field b.field))

instance : TransCmp cmp :=
  inferInstanceAs (TransCmp (compareLex (compareOn IndexEntry.due)
    (compareLex (compareOn IndexEntry.key) (compareOn IndexEntry.field))))

instance : LawfulEqCmp cmp where
  eq_of_compare {a b} h := by
    rw [cmp, Ordering.then_eq_eq, Ordering.then_eq_eq] at h
    exact ext_iff.mpr ⟨LawfulEqCmp.eq_of_compare h.1, LawfulEqCmp.eq_of_compare h.2.1,
      LawfulEqCmp.eq_of_compare h.2.2⟩

theorem isLE_eq (a b : IndexEntry) : a.isLE b = (cmp a b).isLE := rfl

theorem isLE_trans {a b c : IndexEntry} (hab : a.isLE b = true) (hbc : b.isLE c = true) :
    a.isLE c = true := by
  rw [isLE_eq] at hab hbc ⊢
  exact TransCmp.isLE_trans hab hbc

theorem isLE_total (a b : IndexEntry) : (a.isLE b || b.isLE a) = true := by
  have hs := @OrientedCmp.eq_swap _ cmp _ b a
  rw [isLE_eq, isLE_eq, hs]
  cases cmp a b <;> rfl

theorem isLE_antisymm {a b : IndexEntry} (hab : a.isLE b = true) (hba : b.isLE a = true) :
    a = b :=
  @LawfulEqCmp.eq_of_compare _ cmp _ a b (OrientedCmp.isLE_antisymm hab hba)

/-- Entries without repetition are sorted to any ascending list of the same entries. -/
theorem mergeSort_eq {es sorted : List IndexEntry} (hn : es.Nodup)
    (hs : sorted.Pairwise fun a b => cmp a b = .lt) (h : ∀ e, e ∈ es ↔ e ∈ sorted) :
    es.mergeSort isLE = sorted := by
  have hnd : sorted.Nodup := hs.imp fun {a b} hlt he => by
    have hself : cmp b b = .eq := ReflCmp.compare_self
    rw [he, hself] at hlt
    cases hlt
  have hp : (es.mergeSort isLE).Perm sorted :=
    (List.mergeSort_perm es isLE).trans ((List.perm_ext_iff_of_nodup hn hnd).mpr h)
  have hsort : (es.mergeSort isLE).Pairwise fun a b => a.isLE b = true :=
    List.pairwise_mergeSort (fun a b c => @isLE_trans a b c) isLE_total es
  have hle : sorted.Pairwise fun a b => a.isLE b = true := hs.imp fun {a b} hlt => by
    rw [isLE_eq, hlt]
    rfl
  exact hp.eq_of_pairwise (fun _ _ _ _ => isLE_antisymm) hsort hle

end IndexEntry

/-- An index lists its entries in ascending order. -/
theorem ExpiryIndex.pairwise_entries (i : ExpiryIndex) :
    i.entries.Pairwise fun a b => IndexEntry.cmp a b = .lt := by
  cases i with
  | coarse s =>
    refine List.pairwise_map.mpr (s.sorted.imp fun {a b} h => ?_)
    simpa [IndexEntry.cmp, Ranked.compare_def, ReflCmp.compare_self] using h
  | fine s =>
    refine List.pairwise_map.mpr (s.sorted.imp fun {a b} h => ?_)
    rw [Ranked.compare_def, FieldRef.compare_def] at h
    exact h

theorem Layout.nodup_owed (l : Layout) (key : Bytes) (expiring : DeadlineSet Bytes) :
    (l.owed key expiring).Nodup := by
  cases l with
  | coarse => cases h : expiring.first? <;> simp [owed, h]
  | fine =>
    refine List.pairwise_map.mpr (expiring.nodup_toList.imp fun {a b} hne he => hne ?_)
    cases a
    cases b
    simp_all

end ExpiringHash
