import ExpiringHash.Proofs.Database.Runs

/-!
# The entries owed

Which entries the containers of a key space call for, said of their records alone: in the coarse
layout the earliest expiry of each container, in the fine layout every expiry of every field. An
index in step holds exactly these.
-/
namespace ExpiringHash

/-- The field is to expire at a time. -/
def Fields.ExpiresAt (f : Fields) (field : Bytes) (time : UInt64) : Prop :=
  0 < time ∧ ∃ r, f.get? field = some r ∧ r.expireAt = time

/-- The entries that a container calls for under its key, by its records: one of its earliest expiry,
or one of every expiry. -/
def Fields.Owes (f : Fields) (l : Layout) (key : Bytes) (e : IndexEntry) : Prop :=
  e.key = key ∧ match l with
    | .coarse => e.field = none ∧ (∃ field, f.ExpiresAt field e.due) ∧
        ∀ field time, f.ExpiresAt field time → e.due ≤ time
    | .fine => ∃ field, e.field = some field ∧ f.ExpiresAt field e.due

/-- The entries that the containers of a key space call for: the earliest expiry of each container,
or every expiry of every field. -/
def KeySpace.Owes (ks : KeySpace) (l : Layout) (e : IndexEntry) : Prop :=
  ∃ c, ks.get? e.key = some (.container c) ∧ match l with
    | .coarse => e.field = none ∧ (∃ field, c.fields.ExpiresAt field e.due) ∧
        ∀ field time, c.fields.ExpiresAt field time → e.due ≤ time
    | .fine => ∃ field, e.field = some field ∧ c.fields.ExpiresAt field e.due

namespace Fields

variable {f : Fields}

theorem Consistent.mem_expiring (hf : f.Consistent) {field : Bytes} {time : UInt64} :
    ⟨time, field⟩ ∈ f.expiring ↔ f.ExpiresAt field time :=
  hf.expiring ⟨time, field⟩

/-- The first field to expire has the earliest expiry. -/
theorem Consistent.minExpiry?_eq_some_iff (hf : f.Consistent) {due : UInt64} :
    f.expiring.first?.map (·.rank) = some due ↔
      (∃ field, f.ExpiresAt field due) ∧ ∀ field time, f.ExpiresAt field time → due ≤ time := by
  constructor
  · intro h
    obtain ⟨⟨rank, item⟩, hfirst, rfl⟩ := Option.map_eq_some_iff.mp h
    obtain ⟨hmem, hle⟩ := SortedTable.first?_eq_some_iff.mp hfirst
    refine ⟨⟨item, hf.mem_expiring.mp hmem⟩, fun field time ht => ?_⟩
    exact Ranked.rank_le_of_compare_ne_gt (hle ⟨time, field⟩ (hf.mem_expiring.mpr ht))
  · rintro ⟨⟨field, ht⟩, hle⟩
    have hmem := hf.mem_expiring.mpr ht
    cases hfirst : f.expiring.first? with
    | none => exact absurd hmem (SortedTable.first?_eq_none_iff.mp hfirst _)
    | some r =>
      obtain ⟨hr, hmin⟩ := SortedTable.first?_eq_some_iff.mp hfirst
      have hdue : r.rank ≤ due := Ranked.rank_le_of_compare_ne_gt (hmin _ hmem)
      have hrank : due ≤ r.rank := hle r.item r.rank (hf.mem_expiring.mp hr)
      exact congrArg some (UInt64.le_antisymm hdue hrank)

theorem Consistent.mem_owed_iff (hf : f.Consistent) {l : Layout} {key : Bytes} {e : IndexEntry} :
    e ∈ l.owed key f.expiring ↔ f.Owes l key e := by
  cases l with
  | coarse => rw [Layout.mem_owed_coarse, hf.minExpiry?_eq_some_iff, Owes]
  | fine => simp only [Layout.mem_owed_fine, hf.mem_expiring, Owes]

end Fields

namespace Database.InStep

variable {l : Layout} {d : Database}

/-- An index in step holds exactly the entries that the containers call for. -/
theorem mem_entries_iff_owes (h : d.InStep l) (e : IndexEntry) :
    e ∈ d.index.entries ↔ d.keys.Owes l e := by
  have hempty (hf : d.keys.fieldsAt e.key = ∅) : e ∉ l.owed e.key (d.keys.fieldsAt e.key).expiring := by
    rw [hf, Fields.expiring_empty, Layout.owed_empty]
    exact List.not_mem_nil
  rw [h.mem_entries_iff]
  cases h.tidy.slot e.key with
  | foreign _ _ hs =>
    refine iff_of_false (hempty (KeySpace.fieldsAt_of_foreign hs)) ?_
    rintro ⟨c, hc, -⟩
    rw [hs] at hc
    cases hc
  | absent hs =>
    refine iff_of_false (hempty (KeySpace.fieldsAt_of_get?_none hs)) ?_
    rintro ⟨c, hc, -⟩
    rw [hs] at hc
    cases hc
  | present f hf hs =>
    rw [KeySpace.fieldsAt_of_get? hs, hf.mem_owed_iff, KeySpace.Owes, hs]
    simp only [Option.some.injEq, Value.container.injEq, exists_eq_left']
    exact and_iff_right rfl

theorem nodup_entries (d : Database) : d.index.entries.Nodup :=
  d.index.pairwise_entries.imp fun {a b} hlt he => by
    have hself : IndexEntry.cmp b b = .eq := Std.ReflCmp.compare_self
    rw [he, hself] at hlt
    cases hlt

end Database.InStep

end ExpiringHash
