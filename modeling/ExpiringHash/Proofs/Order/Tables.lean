import ExpiringHash.Order.SortedTable

/-!
# Look-ups, first rows and selections of sorted tables

What a table gives for a key after a change, which row comes first, and the rows that satisfy a
condition. The statements are about keys that are equal or not, rather than about comparisons.
-/
namespace ExpiringHash.SortedTable

open Std

/-- The head of an ascending list is the member that no member precedes. -/
theorem head?_eq_some_iff {α : Type} {cmp : α → α → Ordering} [OrientedCmp cmp] {l : List α}
    (h : l.Pairwise fun a b => cmp a b = .lt) {r : α} :
    l.head? = some r ↔ r ∈ l ∧ ∀ a ∈ l, cmp r a ≠ .gt := by
  cases l with
  | nil => simp
  | cons x xs =>
    have hx := (List.pairwise_cons.mp h).1
    simp only [List.head?_cons, Option.some.injEq, List.mem_cons, forall_eq_or_imp]
    constructor
    · rintro rfl
      have hself : cmp x x = .eq := ReflCmp.compare_self
      refine ⟨.inl rfl, ?_, fun a ha => ?_⟩
      · rw [hself]
        decide
      · rw [hx a ha]
        decide
    · rintro ⟨rfl | hr, hle, -⟩
      · rfl
      · exact absurd (OrientedCmp.gt_iff_lt.mpr (hx r hr)) hle

section Rows

variable {ρ κ : Type} [Ord κ] {key : ρ → κ}

/-- The rows that satisfy a condition. -/
def select (t : SortedTable key) (p : ρ → Bool) : SortedTable key :=
  ⟨t.toList.filter p, t.sorted.sublist List.filter_sublist⟩

theorem mem_select {t : SortedTable key} {p : ρ → Bool} {r : ρ} :
    r ∈ t.select p ↔ r ∈ t ∧ p r = true :=
  List.mem_filter

theorem isEmpty_iff {t : SortedTable key} : t.isEmpty = true ↔ ∀ r, r ∉ t := by
  rw [isEmpty, List.isEmpty_iff]
  exact List.eq_nil_iff_forall_not_mem

theorem first?_eq_none_iff {t : SortedTable key} : t.first? = none ↔ ∀ r, r ∉ t := by
  rw [first?, List.head?_eq_none_iff]
  exact List.eq_nil_iff_forall_not_mem

variable [TransOrd κ] [LawfulEqOrd κ]

omit [LawfulEqOrd κ] in
/-- The first row is the one that no row precedes. -/
theorem first?_eq_some_iff {t : SortedTable key} {r : ρ} :
    t.first? = some r ↔ r ∈ t ∧ ∀ a ∈ t, compare (key r) (key a) ≠ .gt :=
  @head?_eq_some_iff _ (compareOn key) _ _ t.sorted r

theorem insert_of_mem {t : SortedTable key} {r : ρ} (h : r ∈ t) : t.insert r = t := by
  refine ext_mem fun a => ?_
  rw [mem_insert]
  constructor
  · rintro (rfl | ⟨ha, -⟩)
    · exact h
    · exact ha
  · intro ha
    by_cases hk : key a = key r
    · exact .inl (eq_of_key_eq ha h hk)
    · exact .inr ⟨ha, hk⟩

theorem erase_of_forall_ne {t : SortedTable key} {k : κ} (h : ∀ r ∈ t, key r ≠ k) :
    t.erase k = t := by
  refine ext_mem fun a => ?_
  rw [mem_erase]
  exact ⟨And.left, fun ha => ⟨ha, h a ha⟩⟩

end Rows

section Maps

variable {κ β : Type} [Ord κ] [TransOrd κ] [LawfulEqOrd κ]

omit [TransOrd κ] in
theorem mem_of_get? {m : SortedMap κ β} {k : κ} {b : β} (h : m.get? k = some b) : (k, b) ∈ m :=
  get?_eq_some_iff.mp h

theorem get?_put_self (m : SortedMap κ β) (k : κ) (b : β) : (m.put k b).get? k = some b := by
  rw [get?_put, if_pos ReflCmp.compare_self]

theorem get?_put_of_ne {m : SortedMap κ β} {k j : κ} {b : β} (h : j ≠ k) :
    (m.put k b).get? j = m.get? j := by
  rw [get?_put, if_neg fun e => h (LawfulEqCmp.eq_of_compare e)]

omit [TransOrd κ] in
theorem get?_erase_self (m : SortedMap κ β) (k : κ) : (m.erase k).get? k = none := by
  rw [get?_erase, if_pos ReflCmp.compare_self]

omit [TransOrd κ] in
theorem get?_erase_of_ne {m : SortedMap κ β} {k j : κ} (h : j ≠ k) :
    (m.erase k).get? j = m.get? j := by
  rw [get?_erase, if_neg fun e => h (LawfulEqCmp.eq_of_compare e)]

/-- What all values have in common with the new one, all values have after a put. -/
theorem forall_get?_put {P : κ → β → Prop} {m : SortedMap κ β} {k : κ} {b : β}
    (h : ∀ j c, m.get? j = some c → P j c) (hb : P k b) :
    ∀ j c, (m.put k b).get? j = some c → P j c := by
  intro j c hc
  by_cases hj : j = k
  · subst hj
    cases (get?_put_self m j b).symm.trans hc
    exact hb
  · exact h j c ((get?_put_of_ne hj).symm.trans hc)

omit [TransOrd κ] in
theorem forall_get?_erase {P : κ → β → Prop} {m : SortedMap κ β}
    (h : ∀ j c, m.get? j = some c → P j c) (k : κ) :
    ∀ j c, (m.erase k).get? j = some c → P j c := by
  intro j c hc
  by_cases hj : j = k
  · subst hj
    cases (get?_erase_self m j).symm.trans hc
  · exact h j c ((get?_erase_of_ne hj).symm.trans hc)

theorem isEmpty_put (m : SortedMap κ β) (k : κ) (b : β) : (m.put k b).isEmpty = false := by
  rw [← Bool.not_eq_true, isEmpty_iff]
  exact fun h => h _ (mem_of_get? (get?_put_self m k b))

theorem put_put (m : SortedMap κ β) (k : κ) (a b : β) : (m.put k a).put k b = m.put k b := by
  refine ext_get? fun j => ?_
  by_cases h : j = k
  · rw [h, get?_put_self, get?_put_self]
  · rw [get?_put_of_ne h, get?_put_of_ne h, get?_put_of_ne h]

theorem put_of_get? {m : SortedMap κ β} {k : κ} {b : β} (h : m.get? k = some b) :
    m.put k b = m :=
  insert_of_mem (mem_of_get? h)

omit [TransOrd κ] [LawfulEqOrd κ] in
theorem hasKey_eq {m : SortedMap κ β} {k : κ} : m.hasKey k = (m.get? k).isSome := by
  simp [hasKey, get?]

omit [TransOrd κ] in
/-- A selection gives a key the value that the map gives, if it is selected. -/
theorem get?_select (m : SortedMap κ β) (p : κ × β → Bool) (k : κ) :
    (m.select p).get? k = (m.get? k).filter fun b => p (k, b) := by
  refine Option.ext fun b => ?_
  rw [get?_eq_some_iff, mem_select, Option.filter_eq_some_iff, get?_eq_some_iff]

end Maps

end ExpiringHash.SortedTable
