import ExpiringHash.Config
import ExpiringHash.Expiry.DeadlineSet
import ExpiringHash.Ttl

/-!
# Expiry indexes

Each database has one index of all that can expire in it, earliest first. The coarse layout files a
container under the earliest expiry of its fields, the fine layout files every field that expires.
`Layout.owed` says which entries a container calls for; the index is to hold these and no others.
-/
namespace ExpiringHash

open Std

/-- Names a field by its container and itself. -/
structure FieldRef where
  key : Bytes
  field : Bytes
deriving DecidableEq, Repr

namespace FieldRef

instance : Ord FieldRef := ⟨fun a b => (compare a.key b.key).then (compare a.field b.field)⟩

theorem compare_def (a b : FieldRef) :
    compare a b = (compare a.key b.key).then (compare a.field b.field) := rfl

instance : TransOrd FieldRef :=
  inferInstanceAs (TransCmp (compareLex (compareOn FieldRef.key) (compareOn FieldRef.field)))

instance : LawfulEqOrd FieldRef where
  compare_self {a} := by simp [ReflCmp.compare_self]
  eq_of_compare {a b} h := by
    rw [compare_def, Ordering.then_eq_eq] at h
    obtain ⟨k, f⟩ := a
    obtain ⟨l, g⟩ := b
    rw [FieldRef.mk.injEq]
    exact ⟨LawfulEqCmp.eq_of_compare h.1, LawfulEqCmp.eq_of_compare h.2⟩

end FieldRef

/-- What a change of one field does to expiries in its container. -/
structure ExpiryShift where
  field : Bytes
  /-- The expiry before the change, 0 for none. -/
  before : UInt64
  /-- The expiry after the change, 0 for none. -/
  after : UInt64
  minBefore : Option UInt64
  minAfter : Option UInt64
deriving DecidableEq, Repr

/-- Whether no expiry moved. -/
def ExpiryShift.isTrivial (s : ExpiryShift) : Bool :=
  s.before == s.after && s.minBefore == s.minAfter

/-- One entry of an index; an entry of the coarse layout names no field. -/
structure IndexEntry where
  due : UInt64
  key : Bytes
  field : Option Bytes
deriving DecidableEq, Repr

/-- By time, then key, then field. -/
def IndexEntry.isLE (a b : IndexEntry) : Bool :=
  ((compare a.due b.due).then ((compare a.key b.key).then (compare a.field b.field))).isLE

/-- The entries that a container calls for, given its fields that expire. -/
def Layout.owed (key : Bytes) (expiring : DeadlineSet Bytes) : Layout → List IndexEntry
  | .coarse => (expiring.first?.map fun e => ⟨e.rank, key, none⟩).toList
  | .fine => expiring.toList.map fun e => ⟨e.rank, key, some e.item⟩

/-- All that can expire in one database. -/
inductive ExpiryIndex where
  | coarse (containers : DeadlineSet Bytes)
  | fine (fields : DeadlineSet FieldRef)
deriving DecidableEq

namespace ExpiryIndex

def new : Layout → ExpiryIndex
  | .coarse => .coarse ∅
  | .fine => .fine ∅

instance : Inhabited ExpiryIndex := ⟨new .coarse⟩

def layout : ExpiryIndex → Layout
  | .coarse _ => .coarse
  | .fine _ => .fine

def entries : ExpiryIndex → List IndexEntry
  | .coarse s => s.toList.map fun e => ⟨e.rank, e.item, none⟩
  | .fine s => s.toList.map fun e => ⟨e.rank, e.item.key, some e.item.field⟩

def first? : ExpiryIndex → Option IndexEntry
  | .coarse s => s.first?.map fun e => ⟨e.rank, e.item, none⟩
  | .fine s => s.first?.map fun e => ⟨e.rank, e.item.key, some e.item.field⟩

def size : ExpiryIndex → Nat
  | .coarse s => s.size
  | .fine s => s.size

def isEmpty (i : ExpiryIndex) : Bool := i.size == 0

def clear (i : ExpiryIndex) : ExpiryIndex := new i.layout

/-- Follows a change of one field of a container. -/
def apply (i : ExpiryIndex) (key : Bytes) (shift : ExpiryShift) : ExpiryIndex :=
  match i with
  | .coarse s =>
    if shift.minBefore = shift.minAfter then .coarse s
    else .coarse (s.refile key shift.minBefore shift.minAfter)
  | .fine s =>
    if shift.before = shift.after then .fine s
    else .fine (s.refile ⟨key, shift.field⟩ (deadline? shift.before) (deadline? shift.after))

/-- Takes in a container, given its fields that expire. -/
def attach (i : ExpiryIndex) (key : Bytes) (expiring : List (Ranked Bytes)) : ExpiryIndex :=
  match i with
  | .coarse s => .coarse (s.refile key none (expiring.map (·.rank)).min?)
  | .fine s => .fine (expiring.foldl (fun s e => s.refile ⟨key, e.item⟩ none (some e.rank)) s)

/-- Drops a container, given its fields that expire. -/
def detach (i : ExpiryIndex) (key : Bytes) (expiring : List (Ranked Bytes)) : ExpiryIndex :=
  match i with
  | .coarse s => .coarse (s.refile key (expiring.map (·.rank)).min? none)
  | .fine s => .fine (expiring.foldl (fun s e => s.refile ⟨key, e.item⟩ (some e.rank) none) s)

theorem first?_eq_head? (i : ExpiryIndex) : i.first? = i.entries.head? := by
  cases i <;> simp [first?, entries, SortedTable.first?]

@[simp] theorem layout_new (l : Layout) : (new l).layout = l := by cases l <;> rfl

@[simp] theorem layout_apply (i : ExpiryIndex) (key : Bytes) (shift : ExpiryShift) :
    (i.apply key shift).layout = i.layout := by
  cases i <;> simp only [apply] <;> split <;> rfl

@[simp] theorem layout_attach (i : ExpiryIndex) (key : Bytes) (expiring : List (Ranked Bytes)) :
    (i.attach key expiring).layout = i.layout := by
  cases i <;> rfl

@[simp] theorem layout_detach (i : ExpiryIndex) (key : Bytes) (expiring : List (Ranked Bytes)) :
    (i.detach key expiring).layout = i.layout := by
  cases i <;> rfl

end ExpiryIndex
end ExpiringHash
