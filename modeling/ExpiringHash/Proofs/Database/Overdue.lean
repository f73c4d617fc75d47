import ExpiringHash.Proofs.Database.DrainOrder

/-!
# What is overdue

The records of a database that have expired, found by going through all of them and sorted by
expiry, then key, then field. An index in step is led by the first of them in either layout: the
coarse one names its container, whose earliest field has to be looked up, the fine one names it as
it is.
-/
namespace ExpiringHash

open Std DatabaseM

attribute [ext] Ranked FieldRef

theorem SortedTable.mem_insertAll {α : Type} [Ord α] [TransOrd α] [LawfulEqOrd α] {t : SortedSet α}
    {l : List α} {a : α} : a ∈ t.insertAll l ↔ a ∈ l ∨ a ∈ t := by
  induction l generalizing t with
  | nil => exact (or_iff_right List.not_mem_nil).symm
  | cons b l ih =>
    have hstep : t.insertAll (b :: l) = (t.insert b).insertAll l := rfl
    rw [hstep, ih, mem_insert, List.mem_cons]
    by_cases hab : a = b <;> simp [hab]

namespace Database

variable {l : Layout} {d d' : Database} {key field : Bytes} {r : Record} {now : UInt64}

/-- All records of a database, expired or not. -/
def records (d : Database) : SortedMap FieldRef Record where
  toList := d.keys.toList.flatMap fun row =>
    ((row.2.container?.map (·.fields.records.toList)).getD []).map fun r => (⟨row.1, r.1⟩, r.2)
  sorted := by
    refine List.pairwise_flatMap.mpr ⟨fun row _ => List.pairwise_map.mpr ?_, ?_⟩
    · cases row.2.container? with
      | none => exact .nil
      | some c =>
        refine c.fields.records.sorted.imp fun {a b} hlt => ?_
        have hkey : compare row.1 row.1 = .eq := ReflCmp.compare_self
        rw [FieldRef.compare_def, hkey]
        exact hlt
    · refine d.keys.sorted.imp fun {a b} hlt x hx y hy => ?_
      obtain ⟨_, -, rfl⟩ := List.mem_map.mp hx
      obtain ⟨_, -, rfl⟩ := List.mem_map.mp hy
      rw [FieldRef.compare_def, hlt]
      rfl

theorem get?_records (d : Database) (ref : FieldRef) :
    d.records.get? ref = d.record? ref.key ref.field := by
  obtain ⟨key, field⟩ := ref
  refine Option.ext fun r => ?_
  rw [SortedTable.get?_eq_some_iff]
  have hmem : ((⟨key, field⟩, r) : FieldRef × Record) ∈ d.records ↔
      ∃ v, d.keys.get? key = some v ∧
        (field, r) ∈ (v.container?.map (·.fields.records.toList)).getD [] := by
    refine List.mem_flatMap.trans ⟨?_, ?_⟩
    · rintro ⟨⟨k, v⟩, hv, hr⟩
      obtain ⟨⟨f, r'⟩, hr', heq⟩ := List.mem_map.mp hr
      cases heq
      exact ⟨v, SortedTable.get?_eq_some_iff.mpr hv, hr'⟩
    · rintro ⟨v, hv, hr⟩
      exact ⟨(key, v), SortedTable.mem_of_get? hv, List.mem_map.mpr ⟨(field, r), hr, rfl⟩⟩
  rw [hmem, record?, KeySpace.fieldsAt]
  cases hv : d.keys.get? key with
  | none => simp
  | some v =>
    cases v with
    | container c =>
      simp only [Option.some.injEq, exists_eq_left', Value.container?, Option.map_some,
        Option.getD_some]
      exact SortedTable.get?_eq_some_iff.symm
    | foreign => simp [Value.container?]

/-- The records that have expired, those first that expired first, and of these the first by key,
then by field. -/
def overdue (d : Database) (now : UInt64) : DeadlineSet FieldRef :=
  SortedTable.insertAll ∅
    ((d.records.toList.filter fun r => r.2.isExpired now).map fun r => ⟨r.2.expireAt, r.1⟩)

theorem mem_overdue {x : Ranked FieldRef} :
    x ∈ d.overdue now ↔ ∃ r, d.record? x.item.key x.item.field = some r ∧ r.expireAt = x.rank ∧
      r.isExpired now = true := by
  obtain ⟨due, ref⟩ := x
  rw [overdue, SortedTable.mem_insertAll, or_iff_left (SortedTable.not_mem_empty _)]
  simp only [List.mem_map, List.mem_filter, Ranked.mk.injEq]
  constructor
  · rintro ⟨⟨ref, r⟩, ⟨hm, hx⟩, rfl, rfl⟩
    rw [← get?_records]
    exact ⟨r, SortedTable.get?_eq_some_iff.mpr hm, rfl, hx⟩
  · rintro ⟨r, hr, rfl, hx⟩
    rw [← get?_records] at hr
    exact ⟨(ref, r), ⟨SortedTable.mem_of_get? hr, hx⟩, rfl, rfl⟩

/-- Every record that has expired is listed once. -/
theorem size_overdue (d : Database) (now : UInt64) :
    (d.overdue now).size = d.records.toList.countP fun r => r.2.isExpired now := by
  have hnodup : ((d.records.toList.filter fun r => r.2.isExpired now).map fun r =>
      (⟨r.2.expireAt, r.1⟩ : Ranked FieldRef)).Nodup := by
    refine List.pairwise_map.mpr ?_
    refine (d.records.nodup_toList.filter _).imp_of_mem fun {a b} ha hb hne he => hne ?_
    refine SortedTable.eq_of_key_eq (List.mem_filter.mp ha).1 (List.mem_filter.mp hb).1 ?_
    exact congrArg Ranked.item he
  have hperm := (List.perm_ext_iff_of_nodup (d.overdue now).nodup_toList hnodup).mpr fun x =>
    SortedTable.mem_insertAll.trans (or_iff_left (SortedTable.not_mem_empty x))
  rw [SortedTable.size, hperm.length_eq, List.length_map, List.countP_eq_length_filter]

/-- A field is to expire at a time. -/
def Expires (d : Database) (x : Ranked FieldRef) : Prop :=
  (d.keys.fieldsAt x.item.key).ExpiresAt x.item.field x.rank

theorem expires_iff_record? {x : Ranked FieldRef} :
    d.Expires x ↔
      0 < x.rank ∧ ∃ r, d.record? x.item.key x.item.field = some r ∧ r.expireAt = x.rank :=
  Iff.rfl

/-- What is overdue is what expires by now. -/
theorem mem_overdue_iff_expires {x : Ranked FieldRef} :
    x ∈ d.overdue now ↔ d.Expires x ∧ x.rank ≤ now := by
  rw [mem_overdue, expires_iff_record?]
  constructor
  · rintro ⟨r, hr, he, hx⟩
    obtain ⟨hpos, hle⟩ := (r.isExpired_iff now).mp hx
    exact ⟨⟨he ▸ hpos, r, hr, he⟩, he ▸ hle⟩
  · rintro ⟨⟨hpos, r, hr, he⟩, hle⟩
    exact ⟨r, hr, he, (r.isExpired_iff now).mpr (he ▸ ⟨hpos, hle⟩)⟩

theorem Expires.exists_container {x : Ranked FieldRef} (h : d.Expires x) :
    ∃ c, d.keys.get? x.item.key = some (.container c) ∧ c.fields.ExpiresAt x.item.field x.rank := by
  obtain ⟨hpos, r, hr, he⟩ := h
  unfold KeySpace.fieldsAt at hr
  split at hr
  · next c hc => exact ⟨c, hc, hpos, r, hr, he⟩
  · cases hr

theorem expires_of_get? {c : Container} (hc : d.keys.get? key = some (.container c)) {due : UInt64}
    (h : c.fields.ExpiresAt field due) : d.Expires ⟨due, ⟨key, field⟩⟩ := by
  rw [Expires, KeySpace.fieldsAt_of_get? hc]
  exact h

/-- Whatever expires is after an entry that the index holds. -/
theorem InStep.exists_mem_entries (h : d.InStep l) {x : Ranked FieldRef} (hx : d.Expires x) :
    ∃ e ∈ d.index.entries, e.key = x.item.key ∧ e.due ≤ x.rank := by
  obtain ⟨c, hc, hexp⟩ := hx.exists_container
  have hcons : c.fields.Consistent := (h.tidy _ _ hc).2
  cases l with
  | fine =>
    exact ⟨⟨x.rank, x.item.key, some x.item.field⟩,
      (h.mem_entries_iff_owes _).mpr ⟨c, hc, _, rfl, hexp⟩, rfl, UInt64.le_refl _⟩
  | coarse =>
    cases hfirst : c.fields.expiring.first? with
    | none =>
      exact absurd (hcons.mem_expiring.mpr hexp) (SortedTable.first?_eq_none_iff.mp hfirst _)
    | some y =>
      have hmin := hcons.minExpiry?_eq_some_iff.mp (Option.map_eq_some_iff.mpr ⟨y, hfirst, rfl⟩)
      exact ⟨⟨y.rank, x.item.key, none⟩, (h.mem_entries_iff_owes _).mpr ⟨c, hc, rfl, hmin⟩, rfl,
        hmin.2 _ _ hexp⟩

/-- Nothing is overdue if no entry is due. -/
theorem InStep.overdue_eq_nil (h : d.InStep l) (hdue : ∀ e ∈ d.index.entries, now < e.due) :
    (d.overdue now).toList = [] := by
  refine List.eq_nil_iff_forall_not_mem.mpr fun x hx => ?_
  obtain ⟨hexp, hle⟩ := mem_overdue_iff_expires.mp hx
  obtain ⟨e, he, -, hmin⟩ := h.exists_mem_entries hexp
  exact UInt64.not_lt.mpr (UInt64.le_trans hmin hle) (hdue e he)

theorem overdue_eq_nil_of_isEmpty (h : SortedTable.isEmpty d.keys = true) :
    (d.overdue now).toList = [] := by
  refine List.eq_nil_iff_forall_not_mem.mpr fun x hx => ?_
  obtain ⟨c, hc, -⟩ := (mem_overdue_iff_expires.mp hx).1.exists_container
  exact SortedTable.isEmpty_iff.mp h _ (SortedTable.mem_of_get? hc)

/-- An index in step is led by the first field to expire, of all fields of all keys. -/
theorem InStep.run_fieldOf {w : Work} {e : IndexEntry} (h : w.database.InStep l)
    (he : w.database.index.first? = some e) (s : Scope) :
    ∃ field, (s.fieldOf e).run w = .ok field w ∧ w.database.Expires ⟨e.due, ⟨e.key, field⟩⟩ ∧
      ∀ x, w.database.Expires x → compare ⟨e.due, ⟨e.key, field⟩⟩ x ≠ .gt := by
  obtain ⟨hmem, hmin⟩ := ExpiryIndex.first?_eq_some_iff.mp he
  obtain ⟨c, hc, howes⟩ := (h.mem_entries_iff_owes e).mp hmem
  obtain ⟨due, key, name⟩ := e
  dsimp only at hc
  cases l with
  | fine =>
    obtain ⟨field, rfl, hexp⟩ := howes
    refine ⟨field, rfl, expires_of_get? hc hexp, fun x hx => ?_⟩
    obtain ⟨c', hc', hexp'⟩ := hx.exists_container
    exact hmin ⟨x.rank, x.item.key, some x.item.field⟩
      ((h.mem_entries_iff_owes _).mpr ⟨c', hc', _, rfl, hexp'⟩)
  | coarse =>
    obtain ⟨rfl, howes⟩ := howes
    have hcons : c.fields.Consistent := (h.tidy key _ hc).2
    obtain ⟨⟨due, field⟩, hfirst, rfl⟩ :=
      Option.map_eq_some_iff.mp (hcons.minExpiry?_eq_some_iff.mpr howes)
    obtain ⟨hfield, hleast⟩ := SortedTable.first?_eq_some_iff.mp hfirst
    refine ⟨field, LayoutTwins.run_fieldOf s hc hfirst,
      expires_of_get? hc (hcons.mem_expiring.mp hfield), fun x hx => ?_⟩
    obtain ⟨c', hc', hexp'⟩ := hx.exists_container
    by_cases hkey : x.item.key = key
    · -- within the container the order is that of its own fields
      subst hkey
      obtain rfl : c' = c := by
        rw [hc] at hc'
        cases hc'
        rfl
      have hle := hleast ⟨x.rank, x.item.field⟩ (hcons.mem_expiring.mpr hexp')
      have hself : compare x.item.key x.item.key = .eq := ReflCmp.compare_self
      rw [id, id, Ranked.compare_def] at hle
      rw [Ranked.compare_def, FieldRef.compare_def, hself]
      exact hle
    · -- the entry of the other container comes no later than the field
      obtain ⟨a, ha, hak, hax⟩ := h.exists_mem_entries hx
      have hle := hmin a ha
      have hdue : due ≤ a.due := IndexEntry.due_le_of_cmp hle
      rw [Ranked.compare_def, FieldRef.compare_def]
      rcases UInt64.lt_or_eq_of_le (UInt64.le_trans hdue hax) with hlt | rfl
      · have hc : compare due x.rank = .lt := Std.compare_eq_lt.mpr hlt
        rw [hc]
        nofun
      · have hsame : a.due = x.rank := UInt64.le_antisymm hax hdue
        have hself : compare x.rank x.rank = .eq := ReflCmp.compare_self
        rw [IndexEntry.cmp, hsame, hak] at hle
        dsimp only at hle ⊢
        rw [hself, Ordering.eq_then] at hle ⊢
        cases hc : compare key x.item.key with
        | lt => nofun
        | eq => exact absurd (LawfulEqCmp.eq_of_compare hc).symm hkey
        | gt =>
          rw [hc] at hle
          exact hle

end Database

end ExpiringHash
