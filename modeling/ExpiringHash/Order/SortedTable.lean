import ExpiringHash.Bytes

/-!
# Sorted tables

A table keeps its rows in strictly ascending order of a key, so it holds at most one row per key
and is determined by the rows it holds (`SortedTable.ext_mem`). Sets are tables keyed by the row
itself, maps are tables of pairs keyed by the first part. One law per operation says which rows it
leaves in the table.
-/
namespace ExpiringHash

open Std

/-- Rows in strictly ascending order of `key`. -/
structure SortedTable {ρ κ : Type} [Ord κ] (key : ρ → κ) where
  /-- The rows, first key first. -/
  toList : List ρ
  sorted : toList.Pairwise fun a b => compare (key a) (key b) = .lt

namespace SortedTable

variable {ρ κ : Type} [Ord κ] {key : ρ → κ}

instance [DecidableEq ρ] : DecidableEq (SortedTable key) := fun s t =>
  if h : s.toList = t.toList then .isTrue (by cases s; cases t; simp_all)
  else .isFalse fun e => h (e ▸ rfl)

instance : Membership ρ (SortedTable key) := ⟨fun t r => r ∈ t.toList⟩

theorem mem_toList {t : SortedTable key} {r : ρ} : r ∈ t.toList ↔ r ∈ t := Iff.rfl

def empty : SortedTable key := ⟨[], .nil⟩

instance : EmptyCollection (SortedTable key) := ⟨empty⟩
instance : Inhabited (SortedTable key) := ⟨empty⟩

@[simp] theorem toList_empty : (∅ : SortedTable key).toList = [] := rfl

theorem not_mem_empty (r : ρ) : r ∉ (∅ : SortedTable key) := nofun

def size (t : SortedTable key) : Nat := t.toList.length

def isEmpty (t : SortedTable key) : Bool := t.toList.isEmpty

/-- The row with the smallest key. -/
def first? (t : SortedTable key) : Option ρ := t.toList.head?

def find? (t : SortedTable key) (k : κ) : Option ρ :=
  t.toList.find? fun r => compare (key r) k == .eq

def hasKey (t : SortedTable key) (k : κ) : Bool := (t.find? k).isSome

/-- Puts a row before the first row with a larger key, in place of a row with the same key. -/
def insertRow (key : ρ → κ) (r : ρ) : List ρ → List ρ
  | [] => [r]
  | x :: xs =>
    match compare (key r) (key x) with
    | .lt => r :: x :: xs
    | .eq => r :: xs
    | .gt => x :: insertRow key r xs

def eraseRow (key : ρ → κ) (k : κ) : List ρ → List ρ
  | [] => []
  | x :: xs => if compare (key x) k = .eq then xs else x :: eraseRow key k xs

theorem eraseRow_sublist (k : κ) (l : List ρ) : (eraseRow key k l).Sublist l := by
  induction l with
  | nil => exact .slnil
  | cons x xs ih =>
    unfold eraseRow
    split
    · exact List.sublist_cons_self x xs
    · exact ih.cons_cons x

section Laws

variable [TransOrd κ] [LawfulEqOrd κ]

omit [TransOrd κ] in
theorem ne_of_compare_lt {a b : κ} (h : compare a b = .lt) : a ≠ b := fun e =>
  absurd (h.symm.trans (compare_eq_iff_eq.mpr e)) (by decide)

theorem mem_insertRow {r a : ρ} {l : List ρ}
    (h : l.Pairwise fun a b => compare (key a) (key b) = .lt) :
    a ∈ insertRow key r l ↔ a = r ∨ a ∈ l ∧ key a ≠ key r := by
  induction l with
  | nil => simp [insertRow]
  | cons x xs ih =>
    have hx := (List.pairwise_cons.mp h).1
    have above : ∀ b ∈ xs, compare (key r) (key x) ≠ .gt → key b ≠ key r := by
      intro b hb hr he
      have hlt : compare (key x) (key r) = .lt := he ▸ hx b hb
      exact hr (OrientedCmp.gt_iff_lt.mpr hlt)
    unfold insertRow
    split
    · next hc =>
      have hne : key x ≠ key r := (ne_of_compare_lt hc).symm
      simp only [List.mem_cons]
      constructor
      · rintro (rfl | rfl | hb)
        · exact .inl rfl
        · exact .inr ⟨.inl rfl, hne⟩
        · exact .inr ⟨.inr hb, above a hb (by simp [hc])⟩
      · rintro (rfl | ⟨rfl | hb, _⟩)
        · exact .inl rfl
        · exact .inr (.inl rfl)
        · exact .inr (.inr hb)
    · next hc =>
      have he : key r = key x := LawfulEqCmp.eq_of_compare hc
      simp only [List.mem_cons]
      constructor
      · rintro (rfl | hb)
        · exact .inl rfl
        · exact .inr ⟨.inr hb, above a hb (by simp [hc])⟩
      · rintro (rfl | ⟨rfl | hb, hne⟩)
        · exact .inl rfl
        · exact absurd he.symm hne
        · exact .inr hb
    · next hc =>
      have hne : key x ≠ key r := ne_of_compare_lt (OrientedCmp.gt_iff_lt.mp hc)
      simp only [List.mem_cons, ih (List.pairwise_cons.mp h).2]
      constructor
      · rintro (rfl | rfl | ⟨hb, hk⟩)
        · exact .inr ⟨.inl rfl, hne⟩
        · exact .inl rfl
        · exact .inr ⟨.inr hb, hk⟩
      · rintro (rfl | ⟨rfl | hb, hk⟩)
        · exact .inr (.inl rfl)
        · exact .inl rfl
        · exact .inr (.inr ⟨hb, hk⟩)

theorem sorted_insertRow (r : ρ) {l : List ρ}
    (h : l.Pairwise fun a b => compare (key a) (key b) = .lt) :
    (insertRow key r l).Pairwise fun a b => compare (key a) (key b) = .lt := by
  induction l with
  | nil => simp [insertRow]
  | cons x xs ih =>
    have ⟨hx, hxs⟩ := List.pairwise_cons.mp h
    unfold insertRow
    split
    · next hc =>
      refine List.pairwise_cons.mpr ⟨fun b hb => ?_, h⟩
      rcases List.mem_cons.mp hb with rfl | hb
      · exact hc
      · exact TransCmp.lt_trans hc (hx b hb)
    · next hc =>
      have he : key r = key x := LawfulEqCmp.eq_of_compare hc
      exact List.pairwise_cons.mpr ⟨fun b hb => he ▸ hx b hb, hxs⟩
    · next hc =>
      refine List.pairwise_cons.mpr ⟨fun b hb => ?_, ih hxs⟩
      rcases (mem_insertRow hxs).mp hb with rfl | ⟨hb, _⟩
      · exact OrientedCmp.gt_iff_lt.mp hc
      · exact hx b hb

omit [TransOrd κ] in
theorem mem_eraseRow {k : κ} {a : ρ} {l : List ρ}
    (h : l.Pairwise fun a b => compare (key a) (key b) = .lt) :
    a ∈ eraseRow key k l ↔ a ∈ l ∧ key a ≠ k := by
  induction l with
  | nil => simp [eraseRow]
  | cons x xs ih =>
    have ⟨hx, hxs⟩ := List.pairwise_cons.mp h
    unfold eraseRow
    split
    · next hc =>
      have he : key x = k := LawfulEqCmp.eq_of_compare hc
      simp only [List.mem_cons]
      constructor
      · intro ha
        exact ⟨.inr ha, fun hk => ne_of_compare_lt (hx a ha) (he.trans hk.symm)⟩
      · rintro ⟨rfl | ha, hk⟩
        · exact absurd he hk
        · exact ha
    · next hc =>
      have hne : key x ≠ k := fun e => hc (e ▸ ReflCmp.compare_self)
      simp only [List.mem_cons, ih hxs]
      constructor
      · rintro (rfl | ⟨ha, hk⟩)
        · exact ⟨.inl rfl, hne⟩
        · exact ⟨.inr ha, hk⟩
      · rintro ⟨rfl | ha, hk⟩
        · exact .inl rfl
        · exact .inr ⟨ha, hk⟩

/-- Files a row, in place of the one with the same key. -/
def insert (t : SortedTable key) (r : ρ) : SortedTable key :=
  ⟨insertRow key r t.toList, sorted_insertRow r t.sorted⟩

def erase (t : SortedTable key) (k : κ) : SortedTable key :=
  ⟨eraseRow key k t.toList, t.sorted.sublist (eraseRow_sublist k _)⟩

/-- The table without its first row. -/
def rest (t : SortedTable key) : SortedTable key :=
  ⟨t.toList.tail, t.sorted.sublist (List.tail_sublist _)⟩

theorem mem_insert {t : SortedTable key} {r a : ρ} :
    a ∈ t.insert r ↔ a = r ∨ a ∈ t ∧ key a ≠ key r := mem_insertRow t.sorted

omit [TransOrd κ] in
theorem mem_erase {t : SortedTable key} {k : κ} {a : ρ} :
    a ∈ t.erase k ↔ a ∈ t ∧ key a ≠ k := mem_eraseRow t.sorted

omit [TransOrd κ] in
/-- At most one row is filed under a key. -/
theorem eq_of_key_eq {t : SortedTable key} {a b : ρ} (ha : a ∈ t) (hb : b ∈ t)
    (h : key a = key b) : a = b := by
  have hs := t.sorted
  have ha : a ∈ t.toList := ha
  have hb : b ∈ t.toList := hb
  generalize t.toList = l at hs ha hb
  induction l with
  | nil => cases ha
  | cons x xs ih =>
    have ⟨hx, hxs⟩ := List.pairwise_cons.mp hs
    rcases List.mem_cons.mp ha with rfl | ha' <;> rcases List.mem_cons.mp hb with rfl | hb'
    · rfl
    · exact absurd h (ne_of_compare_lt (hx b hb'))
    · exact absurd h.symm (ne_of_compare_lt (hx a ha'))
    · exact ih hxs ha' hb'

omit [TransOrd κ] in
theorem find?_eq_some_iff {t : SortedTable key} {k : κ} {r : ρ} :
    t.find? k = some r ↔ r ∈ t ∧ key r = k := by
  constructor
  · intro h
    have hp := List.find?_some h
    exact ⟨List.mem_of_find?_eq_some h, LawfulEqCmp.eq_of_compare (eq_of_beq hp)⟩
  · rintro ⟨hr, rfl⟩
    have hs : ((t.find? (key r)).isSome : Prop) := by
      refine List.find?_isSome.mpr ⟨r, hr, ?_⟩
      simp [ReflCmp.compare_self]
    obtain ⟨b, hb⟩ := Option.isSome_iff_exists.mp hs
    have hp := List.find?_some hb
    have hk : key b = key r := LawfulEqCmp.eq_of_compare (eq_of_beq hp)
    rw [hb, eq_of_key_eq (List.mem_of_find?_eq_some hb) hr hk]

omit [TransOrd κ] in
theorem find?_eq_none_iff {t : SortedTable key} {k : κ} :
    t.find? k = none ↔ ∀ r ∈ t, key r ≠ k := by
  constructor
  · intro h r hr he
    have := find?_eq_some_iff.mpr ⟨hr, he⟩
    rw [h] at this
    cases this
  · intro h
    cases hf : t.find? k with
    | none => rfl
    | some r =>
      have ⟨hr, he⟩ := find?_eq_some_iff.mp hf
      exact absurd he (h r hr)

omit [TransOrd κ] in
theorem nodup_toList (t : SortedTable key) : t.toList.Nodup :=
  t.sorted.imp fun h e => ne_of_compare_lt h (congrArg key e)

/-- A table is determined by the rows it holds. -/
theorem ext_mem {s t : SortedTable key} (h : ∀ r, r ∈ s ↔ r ∈ t) : s = t := by
  have hp : s.toList.Perm t.toList :=
    (List.perm_ext_iff_of_nodup s.nodup_toList t.nodup_toList).mpr h
  have he : s.toList = t.toList := hp.eq_of_pairwise
    (fun a b _ _ hab hba => by
      rw [OrientedCmp.gt_iff_lt.mpr hba] at hab
      exact absurd hab (by decide))
    s.sorted t.sorted
  cases s
  cases t
  simp_all

end Laws

/-- Files every row of a list, later rows in place of earlier ones. -/
def insertAll [TransOrd κ] [LawfulEqOrd κ] (t : SortedTable key) (rows : List ρ) :
    SortedTable key := rows.foldl insert t

end SortedTable

/-- A set, listed in ascending order. -/
abbrev SortedSet (α : Type) [Ord α] := SortedTable (id : α → α)

/-- A finite map, listed in ascending order of its keys. -/
abbrev SortedMap (κ β : Type) [Ord κ] := SortedTable (Prod.fst : κ × β → κ)

namespace SortedTable

variable {κ β : Type} [Ord κ] [Std.TransOrd κ] [Std.LawfulEqOrd κ]

def get? (m : SortedMap κ β) (k : κ) : Option β := (m.find? k).map Prod.snd

def put (m : SortedMap κ β) (k : κ) (b : β) : SortedMap κ β := m.insert (k, b)

def keys (m : SortedMap κ β) : List κ := m.toList.map Prod.fst

def values (m : SortedMap κ β) : List β := m.toList.map Prod.snd

omit [Std.TransOrd κ] in
theorem get?_eq_some_iff {m : SortedMap κ β} {k : κ} {b : β} :
    m.get? k = some b ↔ (k, b) ∈ m := by
  simp only [get?, Option.map_eq_some_iff, find?_eq_some_iff]
  constructor
  · rintro ⟨⟨_, _⟩, ⟨h, rfl⟩, rfl⟩
    exact h
  · exact fun h => ⟨(k, b), ⟨h, rfl⟩, rfl⟩

theorem get?_put {m : SortedMap κ β} {k j : κ} {b : β} :
    (m.put k b).get? j = if compare j k = .eq then some b else m.get? j := by
  apply Option.ext
  intro c
  rw [get?_eq_some_iff, put, mem_insert]
  split
  · next h =>
    obtain rfl : j = k := Std.LawfulEqCmp.eq_of_compare h
    simp [eq_comm]
  · next h =>
    have hne : j ≠ k := fun e => h (e ▸ Std.ReflCmp.compare_self)
    simp [get?_eq_some_iff, hne]

omit [Std.TransOrd κ] in
theorem get?_erase {m : SortedMap κ β} {k j : κ} :
    (m.erase k).get? j = if compare j k = .eq then none else m.get? j := by
  apply Option.ext
  intro c
  rw [get?_eq_some_iff, mem_erase]
  split
  · next h =>
    obtain rfl : j = k := Std.LawfulEqCmp.eq_of_compare h
    simp
  · next h =>
    have hne : j ≠ k := fun e => h (e ▸ Std.ReflCmp.compare_self)
    simp [get?_eq_some_iff, hne]

omit [Std.TransOrd κ] [Std.LawfulEqOrd κ] in
@[simp] theorem get?_empty (k : κ) : (∅ : SortedMap κ β).get? k = none := rfl

/-- A map is determined by the values it gives. -/
theorem ext_get? {m n : SortedMap κ β} (h : ∀ k, m.get? k = n.get? k) : m = n :=
  ext_mem fun ⟨k, b⟩ => by rw [← get?_eq_some_iff, ← get?_eq_some_iff, h]

end SortedTable
end ExpiringHash
