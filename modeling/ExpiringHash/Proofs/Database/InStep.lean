import ExpiringHash.Database.Basic
import ExpiringHash.Proofs.Expiry.Entries

/-!
# Databases whose index is in step

A key space is tidy if every container is filed under its own key and is consistent. A database is
in step if its keys are tidy and its index holds, under each key, the entries that the fields under
it call for. Such a database verifies, and each elementary change of a key together with its index
entries leaves it in step.
-/
namespace ExpiringHash

/-- A container is filed under its own key and is consistent. -/
def Value.Tidy (key : Bytes) : Value → Prop
  | .container c => c.key = key ∧ c.fields.Consistent
  | .foreign .. => True

theorem Value.Tidy.relabel {key target : Bytes} {v : Value} (h : v.Tidy key) :
    (v.relabel target).Tidy target := by
  cases v with
  | container c => exact ⟨rfl, h.2⟩
  | foreign type payload => trivial

namespace KeySpace

/-- Every container is filed under its own key and is consistent. -/
def Tidy (ks : KeySpace) : Prop := ∀ key v, ks.get? key = some v → v.Tidy key

/-- The fields under a key; there are none under a key that holds no container. -/
def fieldsAt (ks : KeySpace) (key : Bytes) : Fields :=
  match ks.get? key with
  | some (.container c) => c.fields
  | _ => ∅

variable {ks : KeySpace} {key other : Bytes} {c : Container} {v : Value}

theorem fieldsAt_of_get? (h : ks.get? key = some (.container c)) : ks.fieldsAt key = c.fields := by
  simp only [fieldsAt, h]

theorem fieldsAt_of_get?_none (h : ks.get? key = none) : ks.fieldsAt key = ∅ := by
  simp only [fieldsAt, h]

theorem fieldsAt_of_foreign {type : String} {payload : Bytes}
    (h : ks.get? key = some (.foreign type payload)) : ks.fieldsAt key = ∅ := by
  simp only [fieldsAt, h]

theorem fieldsAt_congr {ks' : KeySpace} (h : ks.get? key = ks'.get? key) :
    ks.fieldsAt key = ks'.fieldsAt key := by
  simp only [fieldsAt, h]

@[simp] theorem fieldsAt_putContainer_self (ks : KeySpace) (key : Bytes) (c : Container) :
    (ks.putContainer key c).fieldsAt key = c.fields :=
  fieldsAt_of_get? (SortedTable.get?_put_self _ _ _)

theorem fieldsAt_put_of_ne (h : other ≠ key) :
    fieldsAt (ks.put key v) other = ks.fieldsAt other :=
  fieldsAt_congr (SortedTable.get?_put_of_ne h)

theorem fieldsAt_erase_self (ks : KeySpace) (key : Bytes) : fieldsAt (ks.erase key) key = ∅ :=
  fieldsAt_of_get?_none (SortedTable.get?_erase_self _ _)

theorem fieldsAt_erase_of_ne (h : other ≠ key) :
    fieldsAt (ks.erase key) other = ks.fieldsAt other :=
  fieldsAt_congr (SortedTable.get?_erase_of_ne h)

theorem mem_containers_iff : c ∈ ks.containers ↔ ∃ key, ks.get? key = some (.container c) := by
  simp only [containers, SortedTable.values, List.filterMap_map, List.mem_filterMap]
  constructor
  · rintro ⟨⟨key, v⟩, hm, hv⟩
    cases v with
    | container d =>
      obtain rfl := Option.some.inj hv
      exact ⟨key, SortedTable.get?_eq_some_iff.mpr hm⟩
    | foreign => cases hv
  · rintro ⟨key, hk⟩
    exact ⟨(key, .container c), SortedTable.mem_of_get? hk, rfl⟩

namespace Tidy

theorem empty : Tidy ∅ := fun key v h => by
  rw [SortedTable.get?_empty] at h
  cases h

theorem put (h : ks.Tidy) (hv : v.Tidy key) : KeySpace.Tidy (ks.put key v) :=
  SortedTable.forall_get?_put h hv

theorem erase (h : ks.Tidy) (key : Bytes) : KeySpace.Tidy (ks.erase key) :=
  SortedTable.forall_get?_erase h key

theorem key_eq (h : ks.Tidy) (hc : ks.get? key = some (.container c)) : c.key = key :=
  (h key _ hc).1

theorem consistent (h : ks.Tidy) (key : Bytes) : (ks.fieldsAt key).Consistent := by
  unfold fieldsAt
  split
  · next c hc => exact (h key _ hc).2
  · exact .empty

/-- No two containers have the same key. -/
theorem pairwise_containers (h : ks.Tidy) :
    ks.containers.Pairwise fun c d => c.key ≠ d.key := by
  simp only [containers, SortedTable.values, List.filterMap_map, List.pairwise_filterMap]
  refine ks.sorted.imp_of_mem fun {a b} ha hb hlt c hc d hd he => ?_
  obtain ⟨k, v⟩ := a
  obtain ⟨l, w⟩ := b
  cases v with
  | foreign => cases hc
  | container x =>
    cases w with
    | foreign => cases hd
    | container y =>
      obtain rfl := Option.some.inj hc
      obtain rfl := Option.some.inj hd
      have hk : x.key = k := h.key_eq (SortedTable.get?_eq_some_iff.mpr ha)
      have hl : y.key = l := h.key_eq (SortedTable.get?_eq_some_iff.mpr hb)
      exact SortedTable.ne_of_compare_lt hlt (hk.symm.trans (he.trans hl))

end Tidy

end KeySpace

namespace Database

variable {l : Layout} {d : Database} {key : Bytes} {v : Value}

theorem keys_deleteKey (d : Database) (key : Bytes) :
    (d.deleteKey key).2.keys = SortedTable.erase d.keys key := by
  unfold Database.deleteKey
  split
  · next h =>
    refine (SortedTable.erase_of_forall_ne ?_).symm
    rintro ⟨k, v⟩ hm rfl
    rw [SortedTable.get?_eq_some_iff.mpr hm] at h
    cases h
  · rfl

theorem get?_deleteKey (d : Database) (key : Bytes) : (d.deleteKey key).2.keys.get? key = none := by
  rw [keys_deleteKey]
  exact SortedTable.get?_erase_self _ _

/-- The index holds the entries that the containers call for, and no others. -/
structure InStep (l : Layout) (d : Database) : Prop where
  tidy : d.keys.Tidy
  layout : d.index.layout = l
  files : ∀ key, d.index.Files key (d.keys.fieldsAt key).expiring

namespace InStep

/-- An entry is held exactly if the container under its key calls for it. -/
theorem mem_entries_iff (h : d.InStep l) (e : IndexEntry) :
    e ∈ d.index.entries ↔ e ∈ l.owed e.key (d.keys.fieldsAt e.key).expiring := by
  rw [h.files e.key e rfl, h.layout]

/-- Refiling the fields of one key leaves the other keys in step. -/
theorem refile {keys : KeySpace} {index : ExpiryIndex} (h : d.InStep l) (key : Bytes)
    (ht : keys.Tidy)
    (hi : d.index.Refiled key (keys.fieldsAt key).expiring index)
    (ho : ∀ other, other ≠ key → keys.fieldsAt other = d.keys.fieldsAt other) :
    InStep l { d with keys, index } where
  tidy := ht
  layout := hi.layout.trans h.layout
  files other := by
    by_cases hk : other = key
    · subst hk
      exact hi.files_self
    · change index.Files other (keys.fieldsAt other).expiring
      rw [ho other hk]
      exact hi.files_of_ne hk (h.files other)

theorem new (l : Layout) : (Database.new l).InStep l where
  tidy := .empty
  layout := ExpiryIndex.layout_new l
  files key := by
    rw [KeySpace.fieldsAt_of_get?_none rfl]
    cases l <;> exact ExpiryIndex.files_empty_iff.mpr fun e he => by cases he

theorem clear (h : d.InStep l) : d.clear.InStep l := by
  have hn := InStep.new l
  have hi : d.clear.index = (Database.new l).index := by
    change ExpiryIndex.new d.index.layout = ExpiryIndex.new l
    rw [h.layout]
  exact ⟨.empty, by rw [hi]; exact hn.layout, fun key => by rw [hi]; exact hn.files key⟩

/-- The fields under a key change, and the index follows. -/
theorem change {g : Fields} {s : ExpiryShift} (h : d.InStep l)
    (hs : (d.keys.fieldsAt key).Shifted g s) (hg : g.Consistent) :
    InStep l { d with
      keys := d.keys.putContainer key ⟨key, g⟩, index := d.index.apply key s } := by
  have hv : (Value.container ⟨key, g⟩).Tidy key := ⟨rfl, hg⟩
  refine h.refile key (h.tidy.put hv) ?_ fun other ho => KeySpace.fieldsAt_put_of_ne ho
  rw [KeySpace.fieldsAt_putContainer_self]
  exact ExpiryIndex.refiled_apply (h.files key) hs

theorem deleteKey (h : d.InStep l) (key : Bytes) : (d.deleteKey key).2.InStep l := by
  unfold Database.deleteKey
  split
  · exact h
  · next v hv =>
    refine h.refile key (h.tidy.erase key) ?_ fun other ho =>
      KeySpace.fieldsAt_erase_of_ne ho
    have hf := h.files key
    rw [KeySpace.fieldsAt_erase_self]
    cases v with
    | container c =>
      rw [KeySpace.fieldsAt_of_get? hv] at hf
      obtain rfl := h.tidy.key_eq hv
      exact ExpiryIndex.refiled_detach hf
    | foreign type payload =>
      rw [KeySpace.fieldsAt_of_foreign hv] at hf
      exact ⟨rfl, fun e => by
        have hfree := ExpiryIndex.files_empty_iff.mp hf
        simpa [ExpiryIndex.detachValue] using hfree e⟩

theorem attach (h : d.InStep l) (hfree : d.keys.get? key = none) (hv : v.Tidy key) :
    (d.attach key v).InStep l := by
  have hf := h.files key
  rw [KeySpace.fieldsAt_of_get?_none hfree] at hf
  refine h.refile key (h.tidy.put hv) ?_ fun other ho => KeySpace.fieldsAt_put_of_ne ho
  cases v with
  | container c =>
    obtain ⟨rfl, -⟩ := hv
    rw [KeySpace.fieldsAt_of_get? (SortedTable.get?_put_self _ _ _)]
    exact ExpiryIndex.refiled_attach hf
  | foreign type payload =>
    rw [KeySpace.fieldsAt_of_foreign (SortedTable.get?_put_self _ _ _)]
    exact ⟨rfl, fun e => by
      have hfree := ExpiryIndex.files_empty_iff.mp hf
      simpa [ExpiryIndex.attachValue] using hfree e⟩

/-- The entries held are those that the containers call for, in the same order. -/
theorem entries_eq_owed (h : d.InStep l) : d.index.entries = d.owed := by
  refine (IndexEntry.mergeSort_eq ?_ d.index.pairwise_entries fun e => ?_).symm
  · refine List.pairwise_flatMap.mpr ⟨fun c _ => Layout.nodup_owed _ _ _, ?_⟩
    refine h.tidy.pairwise_containers.imp fun {c c'} hne e he e' he' heq => hne ?_
    rw [← Layout.key_of_mem_owed he, ← Layout.key_of_mem_owed he', heq]
  · rw [h.mem_entries_iff, List.mem_flatMap, h.layout]
    constructor
    · rintro ⟨c, hc, he⟩
      obtain ⟨key, hk⟩ := KeySpace.mem_containers_iff.mp hc
      have hkey := Layout.key_of_mem_owed he
      rw [h.tidy.key_eq hk] at hkey he
      rw [hkey, KeySpace.fieldsAt_of_get? hk]
      exact he
    · intro he
      unfold KeySpace.fieldsAt at he
      split at he
      · next c hc =>
        refine ⟨c, KeySpace.mem_containers_iff.mpr ⟨_, hc⟩, ?_⟩
        rw [h.tidy.key_eq hc]
        exact he
      · rw [Fields.expiring_empty, Layout.owed_empty] at he
        cases he

theorem verify_eq_ok (h : d.InStep l) (db : Nat) : d.verify db = .ok () :=
  if_pos h.entries_eq_owed

end InStep

end Database
end ExpiringHash
