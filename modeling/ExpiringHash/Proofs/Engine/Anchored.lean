import ExpiringHash.Proofs.Database.DrainOrder
import ExpiringHash.Proofs.Engine.Keys

/-!
# Anchored indexes

A notice that a key has come to another place is believed, even where no key has moved: entries are
then taken out of an index that belong there. What such an index still holds is right. A database is
anchored if its index holds no entry that its containers do not call for, that is, if the index of a
database in step with the same keys holds all of its entries. Whatever is done to both indexes alike
leaves the one within the other.
-/
namespace ExpiringHash

open DatabaseM

theorem DeadlineSet.refile_subset {α : Type} [Ord α] [Std.TransOrd α] [Std.LawfulEqOrd α]
    {s t : DeadlineSet α} (h : ∀ e ∈ s, e ∈ t) (item : α) (old new : Option UInt64) :
    ∀ e ∈ s.refile item old new, e ∈ t.refile item old new := by
  intro e he
  rw [mem_refile] at he ⊢
  exact he.imp_right (And.imp_left (h e))

namespace ExpiryIndex

/-- The second index has the layout of the first and lacks none of its entries. -/
inductive Within : ExpiryIndex → ExpiryIndex → Prop
  | coarse {s t : DeadlineSet Bytes} (h : ∀ e ∈ s, e ∈ t) : Within (.coarse s) (.coarse t)
  | fine {s t : DeadlineSet FieldRef} (h : ∀ e ∈ s, e ∈ t) : Within (.fine s) (.fine t)

namespace Within

variable {i j : ExpiryIndex} {key : Bytes}

theorem refl (i : ExpiryIndex) : Within i i := by
  cases i with
  | coarse s => exact .coarse fun _ => id
  | fine s => exact .fine fun _ => id

theorem layout (h : Within i j) : i.layout = j.layout := by
  cases h <;> rfl

theorem mem_entries (h : Within i j) {e : IndexEntry} (he : e ∈ i.entries) : e ∈ j.entries := by
  cases h with
  | coarse h =>
    rw [mem_entries_coarse] at he ⊢
    exact ⟨he.1, h _ he.2⟩
  | fine h =>
    rw [mem_entries_fine] at he ⊢
    obtain ⟨field, hf, hm⟩ := he
    exact ⟨field, hf, h _ hm⟩

theorem apply (h : Within i j) (key : Bytes) (s : ExpiryShift) :
    Within (i.apply key s) (j.apply key s) := by
  cases h with
  | coarse h =>
    simp only [ExpiryIndex.apply]
    split
    · exact .coarse h
    · exact .coarse (DeadlineSet.refile_subset h _ _ _)
  | fine h =>
    simp only [ExpiryIndex.apply]
    split
    · exact .fine h
    · exact .fine (DeadlineSet.refile_subset h _ _ _)

theorem attach (h : Within i j) (key : Bytes) (expiring : List (Ranked Bytes)) :
    Within (i.attach key expiring) (j.attach key expiring) := by
  cases h with
  | coarse h => exact .coarse (DeadlineSet.refile_subset h _ _ _)
  | fine h =>
    exact .fine (List.foldl_rel (r := fun s t => ∀ e ∈ s, e ∈ t) h fun _ _ _ _ h =>
      DeadlineSet.refile_subset h _ _ _)

theorem detach (h : Within i j) (key : Bytes) (expiring : List (Ranked Bytes)) :
    Within (i.detach key expiring) (j.detach key expiring) := by
  cases h with
  | coarse h => exact .coarse (DeadlineSet.refile_subset h _ _ _)
  | fine h =>
    exact .fine (List.foldl_rel (r := fun s t => ∀ e ∈ s, e ∈ t) h fun _ _ _ _ h =>
      DeadlineSet.refile_subset h _ _ _)

/-- Dropping entries adds none. -/
theorem detach_left (h : Within i j) (key : Bytes) (expiring : List (Ranked Bytes)) :
    Within (i.detach key expiring) j := by
  have hdrop {α : Type} [Ord α] [Std.TransOrd α] [Std.LawfulEqOrd α] {s t : DeadlineSet α}
      (h : ∀ e ∈ s, e ∈ t) (item : α) (old : Option UInt64) :
      ∀ e ∈ s.refile item old none, e ∈ t := by
    intro e he
    rcases DeadlineSet.mem_refile.mp he with ⟨time, hnew, -⟩ | ⟨hs, -⟩
    · cases hnew
    · exact h e hs
  cases h with
  | coarse h => exact .coarse (hdrop h _ _)
  | @fine s t h =>
    exact .fine (List.foldlRecOn (motive := fun s => ∀ e ∈ s, e ∈ t) _ _ h fun _ h _ _ =>
      hdrop h _ _)

/-- Taking in a container adds no entry to those of an index that files it right. -/
theorem attach_left {expiring : DeadlineSet Bytes} (h : Within i j) (hj : j.Files key expiring) :
    Within (i.attach key expiring.toList) j := by
  cases h with
  | @coarse s t h =>
    refine .coarse fun e he => ?_
    rw [DeadlineSet.min?_rank] at he
    rcases DeadlineSet.mem_refile.mp he with ⟨due, hdue, rfl⟩ | ⟨hs, -⟩
    · exact (hj.mem_coarse due).mpr hdue
    · exact h e hs
  | @fine s t h =>
    refine .fine (List.foldlRecOn (motive := fun s => ∀ e ∈ s, e ∈ t) _ _ h fun s h r hr e he => ?_)
    rcases DeadlineSet.mem_refile.mp he with ⟨due, hdue, rfl⟩ | ⟨hs, -⟩
    · cases hdue
      exact (hj.mem_fine r.rank r.item).mpr hr
    · exact h e hs

end Within

end ExpiryIndex

namespace Database

variable {l : Layout} {d : Database} {e : IndexEntry}

/-- A database in step has the same keys, and its index lacks none of the entries. -/
def Anchored (l : Layout) (d : Database) : Prop :=
  ∃ full : Database, full.InStep l ∧ full.keys = d.keys ∧ d.index.Within full.index

namespace Anchored

theorem of_inStep (h : d.InStep l) : d.Anchored l := ⟨d, h, rfl, .refl _⟩

theorem tidy (h : d.Anchored l) : d.keys.Tidy := by
  obtain ⟨full, hfull, hk, -⟩ := h
  exact hk ▸ hfull.tidy

theorem layout (h : d.Anchored l) : d.index.layout = l := by
  obtain ⟨full, hfull, -, hi⟩ := h
  exact hi.layout.trans hfull.layout

/-- Every entry is one that a container calls for. -/
theorem owes (h : d.Anchored l) (he : e ∈ d.index.entries) : d.keys.Owes l e := by
  obtain ⟨full, hfull, hk, hi⟩ := h
  exact hk ▸ (hfull.mem_entries_iff_owes e).mp (hi.mem_entries he)

/-- Entries may be dropped, whatever they are. -/
theorem detach (h : d.Anchored l) (key : Bytes) (expiring : List (Ranked Bytes)) :
    Anchored l { d with index := d.index.detach key expiring } := by
  obtain ⟨full, hfull, hk, hi⟩ := h
  exact ⟨full, hfull, hk, hi.detach_left key expiring⟩

/-- The entries of a container that is there may be taken in. -/
theorem reattach (h : d.Anchored l) {key : Bytes} {c : Container}
    (hc : d.keys.get? key = some (.container c)) :
    Anchored l { d with index := d.index.attach key c.fields.expiring.toList } := by
  obtain ⟨full, hfull, hk, hi⟩ := h
  have hf := hfull.files key
  rw [hk, KeySpace.fieldsAt_of_get? hc] at hf
  exact ⟨full, hfull, hk, hi.attach_left hf⟩

theorem change {key : Bytes} {g : Fields} {s : ExpiryShift} (h : d.Anchored l)
    (hs : (d.keys.fieldsAt key).Shifted g s) (hg : g.Consistent) :
    Anchored l { d with
      keys := d.keys.putContainer key ⟨key, g⟩, index := d.index.apply key s } := by
  obtain ⟨full, hfull, hk, hi⟩ := h
  exact ⟨_, hfull.change (hk ▸ hs) hg, congrArg (·.putContainer key ⟨key, g⟩) hk, hi.apply key s⟩

theorem deleteKey (h : d.Anchored l) (key : Bytes) : (d.deleteKey key).2.Anchored l := by
  obtain ⟨full, hfull, hk, hi⟩ := h
  refine ⟨_, hfull.deleteKey key, ?_, ?_⟩
  · rw [keys_deleteKey, keys_deleteKey, hk]
  · unfold Database.deleteKey
    rw [hk]
    cases d.keys.get? key with
    | none => exact hi
    | some v =>
      cases v with
      | container c => exact hi.detach _ _
      | foreign type payload => exact hi

theorem attach {key : Bytes} {v : Value} (h : d.Anchored l) (hfree : d.keys.get? key = none)
    (hv : v.Tidy key) : (d.attach key v).Anchored l := by
  obtain ⟨full, hfull, hk, hi⟩ := h
  refine ⟨_, hfull.attach (hk ▸ hfree) hv, congrArg (SortedTable.put · key v) hk, ?_⟩
  cases v with
  | container c => exact hi.attach _ _
  | foreign type payload => exact hi

theorem clear (h : d.Anchored l) : d.clear.Anchored l := by
  obtain ⟨full, hfull, hk, hi⟩ := h
  refine ⟨_, hfull.clear, rfl, ?_⟩
  change (ExpiryIndex.new d.index.layout).Within (.new full.index.layout)
  rw [hi.layout]
  exact .refl _

theorem lasting (l : Layout) : Lasting (Anchored l) where
  tidy h := h.tidy
  step {w w'} h hstep := by
    rcases hstep.effect_or (.of_tidy h.tidy) with ⟨c, he⟩ | ⟨t, rfl⟩
    · cases he with
      | say => exact h
      | rewrite hs hg => exact h.change hs hg
      | deleteKey => exact h.deleteKey _
    · obtain ⟨full, hfull, hk, hi⟩ := h
      exact ⟨full, hfull, hk, hi⟩
  deleteKey h key := h.deleteKey key
  attach h hfree hv := h.attach hfree hv
  clear h := h.clear

/-- The first entry stands for a field that is there and expires when the entry says. -/
theorem run_fieldOf {w : Work} (h : w.database.Anchored l)
    (he : w.database.index.first? = some e) (s : Scope) :
    ∃ field r, (s.fieldOf e).run w = .ok field w ∧ (w.fieldsAt e.key).get? field = some r ∧
      r.expireAt = e.due ∧ 0 < e.due := by
  obtain ⟨c, hc, ho⟩ := h.owes (ExpiryIndex.first?_eq_some_iff.mp he).1
  have hf : w.fieldsAt e.key = c.fields := KeySpace.fieldsAt_of_get? hc
  rw [hf]
  obtain ⟨due, key, name⟩ := e
  cases l with
  | coarse =>
    obtain ⟨rfl, hmin⟩ := ho
    have hcons : c.fields.Consistent := (h.tidy key _ hc).2
    obtain ⟨⟨rank, field⟩, hfirst, rfl⟩ :=
      Option.map_eq_some_iff.mp (hcons.minExpiry?_eq_some_iff.mpr hmin)
    obtain ⟨hpos, r, hr, hx⟩ :=
      hcons.mem_expiring.mp (SortedTable.first?_eq_some_iff.mp hfirst).1
    exact ⟨field, r, LayoutTwins.run_fieldOf s hc hfirst, hr, hx, hpos⟩
  | fine =>
    obtain ⟨field, rfl, hpos, r, hr, hx⟩ := ho
    exact ⟨field, r, rfl, hr, hx, hpos⟩

end Anchored

end Database

namespace Engine

open Database

variable {l : Layout} {e : Engine}

/-- A relocation that has not taken place costs entries of the index, but puts no wrong ones there. -/
theorem keeps_anchored_relocate (l : Layout) (r : Relocation) (e : Engine) :
    Keeps (Anchored l) e (relocate r e) := by
  have hrefl := refl_of (Keeps (Anchored l)) e
  obtain ⟨fromDb, fromKey, toDb, toKey⟩ := r
  cases hd : e.databases[toDb]? with
  | none =>
    rw [relocate, hd]
    exact hrefl
  | some d =>
    cases hv : d.keys.get? toKey with
    | none =>
      rw [relocate, hd, Option.bind_some, hv]
      exact hrefl
    | some v =>
      cases v with
      | foreign type payload =>
        rw [relocate, hd, Option.bind_some, hv]
        exact hrefl
      | container c =>
        intro h
        obtain rfl : c.key = toKey := (h d (List.mem_of_getElem? hd)).tidy.key_eq hv
        have hput {d' : Database} (hk : d'.keys = d.keys) : d'.putContainer c.key c = d' := by
          have hsame : d'.keys.putContainer c.key c = d'.keys := SortedTable.put_of_get? (hk ▸ hv)
          rw [Database.putContainer, hsame]
        have hdropped : ∀ d' ∈ e.databases.modify fromDb fun d =>
            { d with index := d.index.detach fromKey c.fields.expiring.toList }, d'.Anchored l :=
          forall_mem_modify h fun _ hd => hd.detach _ _
        -- the container is still where the notice says
        obtain ⟨d', hd', hk⟩ : ∃ d', (e.databases.modify fromDb fun d =>
            { d with index := d.index.detach fromKey c.fields.expiring.toList })[toDb]? =
              some d' ∧ d'.keys = d.keys := by
          rw [List.getElem?_modify, hd]
          refine ⟨_, rfl, ?_⟩
          split <;> rfl
        rw [relocate_eq hd hv]
        refine ⟨rfl, (List.length_modify ..).trans (List.length_modify ..), fun d'' hm => ?_⟩
        rw [modify_of_getElem? hd', hput hk] at hm
        rcases List.mem_or_eq_of_mem_set hm with hm | rfl
        · exact hdropped d'' hm
        · exact (hdropped d' (List.mem_of_getElem? hd')).reattach (hk ▸ hv)

/-- Whatever is asked of an engine, its databases stay anchored. -/
theorem anchored_of_reaches {config : Config} {now : UInt64}
    (h : (Engine.new config now).Reaches (fun _ _ => True) e) :
    ∀ d ∈ e.databases, d.Anchored config.layout :=
  (keeps_reaches (fun _ r _ => keeps_perform_of_relocate (Anchored.lasting _)
    (keeps_anchored_relocate _) r) h (forall_mem_new now (.of_inStep (InStep.new _)))).2.2

end Engine

end ExpiringHash
