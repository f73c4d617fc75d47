import ExpiringHash.Fields.Write
import ExpiringHash.Proofs.Order.Tables

/-!
# Consistent fields

The records decide which fields expire when, and where each field stands in a scan. Every change of
the fields keeps the three structures in agreement, and the shift that it reports says exactly how
the fields that expire have changed.
-/
namespace ExpiringHash

theorem deadline?_eq_some_iff {expiry time : UInt64} :
    deadline? expiry = some time ↔ expiry = time ∧ 0 < time := by
  unfold deadline?
  split
  · next h =>
    subst h
    simp only [reduceCtorEq, false_iff, not_and]
    rintro rfl
    exact UInt64.lt_irrefl 0
  · next h =>
    rw [Option.some.injEq]
    constructor
    · rintro rfl
      exact ⟨rfl, UInt64.pos_iff_ne_zero.mpr h⟩
    · exact And.left

namespace Fields

variable {f g : Fields} {field other : Bytes} {r : Record}

/-- The records decide the fields that expire and the places of all fields. -/
structure Consistent (f : Fields) : Prop where
  expiring : ∀ e, e ∈ f.expiring ↔ 0 < e.rank ∧ ∃ r, f.get? e.item = some r ∧ r.expireAt = e.rank
  positions : ∀ e, e ∈ f.positions ↔ e.rank = position e.item ∧ (f.get? e.item).isSome = true

/-- What a shift says of a change from `f` to `g`. -/
structure Shifted (f g : Fields) (s : ExpiryShift) : Prop where
  minBefore : s.minBefore = f.minExpiry?
  minAfter : s.minAfter = g.minExpiry?
  before : ∀ time, ⟨time, s.field⟩ ∈ f.expiring ↔ deadline? s.before = some time
  after : ∀ e, e ∈ g.expiring ↔
    (e.item = s.field ∧ deadline? s.after = some e.rank) ∨ (e.item ≠ s.field ∧ e ∈ f.expiring)

/-- The expiry of a field, 0 for none. -/
def expiryOf (f : Fields) (field : Bytes) : UInt64 := ((f.get? field).map (·.expireAt)).getD 0

theorem expiryOf_of_get? (h : f.get? field = some r) : f.expiryOf field = r.expireAt := by
  simp [expiryOf, h]

@[simp] theorem get?_empty (field : Bytes) : (∅ : Fields).get? field = none := rfl

@[simp] theorem expiring_empty : (∅ : Fields).expiring = ∅ := rfl

@[simp] theorem positions_empty : (∅ : Fields).positions = ∅ := rfl

theorem get?_put_self (f : Fields) (field : Bytes) (r : Record) :
    (f.put field r).2.get? field = some r :=
  SortedTable.get?_put_self _ _ _

theorem get?_put_of_ne (h : other ≠ field) : (f.put field r).2.get? other = f.get? other :=
  SortedTable.get?_put_of_ne h

theorem remove_of_get? (h : f.get? field = some r) :
    f.remove field =
      (some (r, (f.shiftTo (f.remove field).2 field r.expireAt 0)),
        { records := f.records.erase field
          expiring := f.moveExpiry field r.expireAt 0
          positions := f.positions.erase ⟨position field, field⟩ }) := by
  simp only [remove, h]

theorem remove_of_get?_none (h : f.get? field = none) : f.remove field = (none, f) := by
  simp only [remove, h]

theorem get?_remove_self (f : Fields) (field : Bytes) : (f.remove field).2.get? field = none := by
  rw [get?_remove, if_pos Std.ReflCmp.compare_self]

theorem get?_remove_of_ne (h : other ≠ field) :
    (f.remove field).2.get? other = f.get? other := by
  rw [get?_remove, if_neg fun e => h (Std.LawfulEqCmp.eq_of_compare e)]

theorem update_of_get? (change : Record → Record) (h : f.get? field = some r) :
    f.update field change = ((some (f.put field (change r)).1), (f.put field (change r)).2) := by
  simp only [update, h]

theorem update_of_get?_none (change : Record → Record) (h : f.get? field = none) :
    f.update field change = (none, f) := by
  simp only [update, h]

theorem nodup_names (f : Fields) : (f.records.toList.map Prod.fst).Nodup :=
  List.pairwise_map.mpr (f.records.sorted.imp SortedTable.ne_of_compare_lt)

theorem isEmpty_iff_get? : f.isEmpty = true ↔ ∀ field, f.get? field = none := by
  rw [isEmpty, SortedTable.isEmpty_iff]
  constructor
  · intro h field
    cases hr : f.get? field with
    | none => rfl
    | some r => exact absurd (SortedTable.mem_of_get? hr) (h _)
  · rintro h ⟨field, r⟩ hr
    have hs : f.get? field = some r := SortedTable.get?_eq_some_iff.mpr hr
    rw [h field] at hs
    cases hs

theorem isEmpty_put (f : Fields) (field : Bytes) (r : Record) :
    (f.put field r).2.isEmpty = false :=
  SortedTable.isEmpty_put _ _ _

/-- Moving the expiry of one field leaves the others where they are. -/
theorem mem_moveExpiry {before after : UInt64} {e : Ranked Bytes}
    (h : ∀ time, ⟨time, field⟩ ∈ f.expiring ↔ deadline? before = some time) :
    e ∈ f.moveExpiry field before after ↔
      (e.item = field ∧ deadline? after = some e.rank) ∨ (e.item ≠ field ∧ e ∈ f.expiring) := by
  obtain ⟨time, item⟩ := e
  unfold moveExpiry
  split
  · next hsame =>
    subst hsame
    by_cases hi : item = field
    · subst hi
      simp [h]
    · simp [hi]
  · rw [DeadlineSet.mem_refile]
    by_cases hi : item = field
    · subst hi
      simp only [h, Ranked.mk.injEq, and_true, ne_eq, not_true, false_and, or_false, true_and,
        exists_eq_right']
      exact ⟨fun hb => hb.resolve_right fun hmem => hmem.2 time hmem.1 rfl, .inl⟩
    · simp [hi]

namespace Consistent

theorem empty : (∅ : Fields).Consistent :=
  ⟨fun e => by simp [SortedTable.not_mem_empty], fun e => by simp [SortedTable.not_mem_empty]⟩

/-- Consistent fields are determined by their records. -/
theorem ext_records (hf : f.Consistent) (hg : g.Consistent) (h : f.records = g.records) :
    f = g := by
  have hget (field : Bytes) : f.get? field = g.get? field := by rw [get?, get?, h]
  have he : f.expiring = g.expiring := SortedTable.ext_mem fun e => by
    rw [hf.expiring, hg.expiring, hget]
  have hp : f.positions = g.positions := SortedTable.ext_mem fun e => by
    rw [hf.positions, hg.positions, hget]
  cases f
  cases g
  simp_all

theorem mem_expiring_iff (hf : f.Consistent) (field : Bytes) (time : UInt64) :
    ⟨time, field⟩ ∈ f.expiring ↔ deadline? (f.expiryOf field) = some time := by
  rw [hf.expiring, deadline?_eq_some_iff]
  cases hr : f.get? field with
  | none =>
    simp only [expiryOf, hr, Option.map_none, Option.getD_none]
    constructor
    · rintro ⟨-, r, h, -⟩
      cases h
    · rintro ⟨rfl, h⟩
      exact absurd h (UInt64.lt_irrefl 0)
  | some r =>
    simp only [expiryOf, hr, Option.map_some, Option.getD_some, Option.some.injEq, exists_eq_left']
    exact And.comm

/-- Without records nothing expires. -/
theorem expiring_eq_empty (hf : f.Consistent) (h : f.isEmpty = true) : f.expiring = ∅ := by
  refine SortedTable.ext_mem fun e => ?_
  rw [hf.expiring, isEmpty_iff_get?.mp h]
  simpa using SortedTable.not_mem_empty e

theorem shifted_put (hf : f.Consistent) (field : Bytes) (r : Record) :
    f.Shifted (f.put field r).2 (f.put field r).1 where
  minBefore := rfl
  minAfter := rfl
  before := hf.mem_expiring_iff field
  after _ := mem_moveExpiry (hf.mem_expiring_iff field)

theorem put (hf : f.Consistent) (field : Bytes) (r : Record) : (f.put field r).2.Consistent where
  expiring e := by
    rw [(hf.shifted_put field r).after e]
    change (e.item = field ∧ deadline? r.expireAt = some e.rank) ∨ (e.item ≠ field ∧ _) ↔ _
    by_cases hi : e.item = field
    · rw [hi, get?_put_self, deadline?_eq_some_iff]
      simp [And.comm]
    · rw [get?_put_of_ne hi, hf.expiring]
      simp [hi]
  positions e := by
    change e ∈ f.positions.insert _ ↔ _
    rw [SortedTable.mem_insert, hf.positions]
    obtain ⟨rank, item⟩ := e
    by_cases hi : item = field
    · subst hi
      simp only [get?_put_self, id_eq, Ranked.mk.injEq, and_true, Option.isSome_some]
      constructor
      · rintro (h | ⟨⟨h, -⟩, -⟩) <;> exact h
      · exact .inl
    · simp [get?_put_of_ne hi, hi]

theorem shifted_remove {s : ExpiryShift} (hf : f.Consistent)
    (h : (f.remove field).1 = some (r, s)) : f.Shifted (f.remove field).2 s := by
  cases hr : f.get? field with
  | none =>
    rw [remove_of_get?_none hr] at h
    cases h
  | some old =>
    have hb := hf.mem_expiring_iff field
    rw [expiryOf_of_get? hr] at hb
    rw [remove_of_get? hr] at h ⊢
    cases h
    refine ⟨rfl, ?_, hb, fun e => mem_moveExpiry hb⟩
    simp only [shiftTo, remove, hr]

theorem remove (hf : f.Consistent) (field : Bytes) : (f.remove field).2.Consistent := by
  cases hr : f.get? field with
  | none =>
    rw [remove_of_get?_none hr]
    exact hf
  | some old =>
    have hb := hf.mem_expiring_iff field
    rw [expiryOf_of_get? hr] at hb
    have hne (other : Bytes) (h : other ≠ field) := get?_remove_of_ne (f := f) h
    have hself := get?_remove_self f field
    rw [remove_of_get? hr] at hne hself ⊢
    constructor
    · intro e
      rw [mem_moveExpiry hb]
      by_cases hi : e.item = field
      · rw [hi, hself]
        simp [deadline?]
      · rw [hne _ hi, hf.expiring]
        simp [hi]
    · intro e
      rw [SortedTable.mem_erase, hf.positions]
      obtain ⟨rank, item⟩ := e
      by_cases hi : item = field
      · subst hi
        simp_all
      · simp [hne _ hi, hi]

theorem update (hf : f.Consistent) (field : Bytes) (change : Record → Record) :
    (f.update field change).2.Consistent := by
  cases hr : f.get? field with
  | none =>
    rw [update_of_get?_none change hr]
    exact hf
  | some r =>
    rw [update_of_get? change hr]
    exact hf.put field _

/-- A record that keeps its expiry is replaced among the records only. -/
theorem put_of_expireAt_eq (hf : f.Consistent) {old : Record} (hold : f.get? field = some old)
    (h : r.expireAt = old.expireAt) :
    (f.put field r).2 = { f with records := f.records.put field r } := by
  have hp : f.positions.insert ⟨position field, field⟩ = f.positions :=
    SortedTable.insert_of_mem ((hf.positions _).mpr ⟨rfl, by rw [hold]; rfl⟩)
  simp only [Fields.put, moveExpiry, hold, Option.map_some, Option.getD_some, h, if_true, hp]

/-- A record that keeps its expiry is replaced without any move of an expiry. -/
theorem isTrivial_put (hf : f.Consistent) {old : Record} (hold : f.get? field = some old)
    (h : r.expireAt = old.expireAt) : (f.put field r).1.isTrivial = true := by
  have hmin : (f.put field r).2.minExpiry? = f.minExpiry? := by
    rw [hf.put_of_expireAt_eq hold h]
    rfl
  have he : (f.put field r).1.after = (f.put field r).1.before := by
    change r.expireAt = f.expiryOf field
    rw [expiryOf_of_get? hold, h]
  simp only [ExpiryShift.isTrivial, he, (hf.shifted_put field r).minBefore,
    (hf.shifted_put field r).minAfter, hmin, BEq.rfl, Bool.and_self]

end Consistent

end Fields
end ExpiringHash
