import ExpiringHash.Order.Ranked

/-!
# Deadline sets

Pairs of a time and an item, earliest time first and equal times in the order of the items. An item
can stand under several times; moving it names the time that it leaves. Operations that change a
set also say whether the entry they name was there.
-/
namespace ExpiringHash

open Std

/-- Items filed under the times at which they are due. -/
abbrev DeadlineSet (α : Type) [Ord α] := SortedSet (Ranked α)

namespace DeadlineSet

variable {α : Type} [Ord α] [TransOrd α] [LawfulEqOrd α]

/-- Whether the item is filed under this time. -/
def holds (s : DeadlineSet α) (due : UInt64) (item : α) : Bool := s.hasKey ⟨due, item⟩

/-- Files an item; the flag says whether the entry is new. -/
def add (s : DeadlineSet α) (due : UInt64) (item : α) : Bool × DeadlineSet α :=
  (!s.holds due item, s.insert ⟨due, item⟩)

/-- Drops an entry; the flag says whether it was there. -/
def drop (s : DeadlineSet α) (due : UInt64) (item : α) : Bool × DeadlineSet α :=
  (s.holds due item, s.erase ⟨due, item⟩)

/-- Files an item under a new time in place of an old one; the flag says whether the old entry was
there. -/
def move (s : DeadlineSet α) (old new : UInt64) (item : α) : Bool × DeadlineSet α :=
  (s.holds old item, (s.erase ⟨old, item⟩).insert ⟨new, item⟩)

/-- Takes the earliest entry. -/
def pop? (s : DeadlineSet α) : Option (Ranked α) × DeadlineSet α := (s.first?, s.rest)

/-- Takes an item from one time to another, where `none` is no time at all. -/
def refile (s : DeadlineSet α) (item : α) : Option UInt64 → Option UInt64 → DeadlineSet α
  | some old, some new => (s.move old new item).2
  | some old, none => (s.drop old item).2
  | none, some new => (s.add new item).2
  | none, none => s

/-- The entries due at a time, earliest first. -/
def due (s : DeadlineSet α) (now : UInt64) : List (Ranked α) := s.toList.takeWhile (·.rank ≤ now)

/-- Refiling takes the old entry out and puts the new one in, and touches no other. -/
theorem mem_refile {s : DeadlineSet α} {item : α} {old new : Option UInt64} {e : Ranked α} :
    e ∈ s.refile item old new ↔
      (∃ time, new = some time ∧ e = ⟨time, item⟩) ∨
        e ∈ s ∧ ∀ time, old = some time → e ≠ ⟨time, item⟩ := by
  cases old <;> cases new <;>
    simp [refile, add, drop, move, SortedTable.mem_insert, SortedTable.mem_erase]
  · grind
  · grind

end DeadlineSet
end ExpiringHash
