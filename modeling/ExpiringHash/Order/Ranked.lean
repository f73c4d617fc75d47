import ExpiringHash.Order.SortedTable

/-!
# Ranked items

Deadlines and hash positions are filed by a 64-bit rank, ties broken by what is filed. The order is
a lawful total order, so ranked items can be kept in sorted tables.
-/
namespace ExpiringHash

open Std

/-- An item filed under a 64-bit number. -/
structure Ranked (α : Type) where
  rank : UInt64
  item : α
deriving DecidableEq, Repr

namespace Ranked

variable {α : Type} [Ord α]

/-- By rank, then by item. -/
def cmp (a b : Ranked α) : Ordering := (compare a.rank b.rank).then (compare a.item b.item)

instance : Ord (Ranked α) := ⟨cmp⟩

theorem compare_def (a b : Ranked α) :
    compare a b = (compare a.rank b.rank).then (compare a.item b.item) := rfl

instance [TransOrd α] : TransOrd (Ranked α) :=
  inferInstanceAs (TransCmp (compareLex (compareOn Ranked.rank) (compareOn Ranked.item)))

instance [LawfulEqOrd α] : LawfulEqOrd (Ranked α) where
  compare_self {a} := by simp [compare_def, ReflCmp.compare_self]
  eq_of_compare {a b} h := by
    rw [compare_def, Ordering.then_eq_eq] at h
    obtain ⟨i, x⟩ := a
    obtain ⟨j, y⟩ := b
    rw [Ranked.mk.injEq]
    exact ⟨LawfulEqCmp.eq_of_compare h.1, LawfulEqCmp.eq_of_compare h.2⟩

end Ranked
end ExpiringHash
