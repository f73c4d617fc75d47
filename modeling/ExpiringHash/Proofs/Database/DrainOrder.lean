import ExpiringHash.Proofs.Database.Blindness
import ExpiringHash.Proofs.Database.Owed

/-!
# The order of active expiry

The two layouts name their victims differently, a coarse index by container and a fine index by
field. Both picks are the first in one order of all expiries, by time, then key, then field, so
databases with the same keys are drained of the same fields in the same order.
-/
namespace ExpiringHash

open Std DatabaseM

namespace IndexEntry

theorem due_le_of_cmp {a b : IndexEntry} (h : cmp a b ≠ .gt) : a.due ≤ b.due := by
  refine Ranked.rank_le_of_compare_ne_gt (a := ⟨a.due, a.key⟩) (b := ⟨b.due, b.key⟩) ?_
  rw [Ranked.compare_def]
  unfold cmp at h
  cases hd : compare a.due b.due <;> cases hk : compare a.key b.key <;> simp_all

/-- Entries that leave their fields out keep their order. -/
theorem cmp_withoutField {a b : IndexEntry} (h : cmp a b ≠ .gt) :
    cmp ⟨a.due, a.key, none⟩ ⟨b.due, b.key, none⟩ ≠ .gt := by
  have hnone : compare (none : Option Bytes) none = .eq := ReflCmp.compare_self
  unfold cmp at h ⊢
  rw [hnone]
  cases hd : compare a.due b.due <;> cases hk : compare a.key b.key <;> simp_all

end IndexEntry

theorem ExpiryIndex.first?_eq_some_iff {i : ExpiryIndex} {e : IndexEntry} :
    i.first? = some e ↔ e ∈ i.entries ∧ ∀ a ∈ i.entries, IndexEntry.cmp e a ≠ .gt := by
  rw [i.first?_eq_head?]
  exact SortedTable.head?_eq_some_iff i.pairwise_entries

theorem ExpiryIndex.first?_eq_none_iff {i : ExpiryIndex} :
    i.first? = none ↔ ∀ e, e ∉ i.entries := by
  rw [i.first?_eq_head?, List.head?_eq_none_iff]
  exact List.eq_nil_iff_forall_not_mem

namespace Database

variable {d d' : Database} {e : IndexEntry}

theorem mem_fine (h' : d'.InStep .fine) {due : UInt64} {key field : Bytes} {c : Container}
    (hc : d'.keys.get? key = some (.container c)) (hx : c.fields.ExpiresAt field due) :
    ⟨due, key, some field⟩ ∈ d'.index.entries :=
  (h'.mem_entries_iff_owes _).mpr ⟨c, hc, field, rfl, hx⟩

/-- The first entry of the fine layout is the first field of the container that comes first in the
coarse layout. -/
theorem first?_coarse (h : d.InStep .coarse) (h' : d'.InStep .fine) (hk : d'.keys = d.keys)
    (he : d'.index.first? = some e) :
    ∃ field c, e.field = some field ∧ d.index.first? = some ⟨e.due, e.key, none⟩ ∧
      d.keys.get? e.key = some (.container c) ∧ c.fields.earliest? = some ⟨e.due, field⟩ := by
  obtain ⟨hmem, hmin⟩ := ExpiryIndex.first?_eq_some_iff.mp he
  obtain ⟨c, hc, field, hf, hx⟩ := (h'.mem_entries_iff_owes e).mp hmem
  obtain ⟨due, key, f⟩ := e
  obtain rfl : f = some field := hf
  dsimp only at hc hx ⊢
  rw [hk] at hc
  have hcons : c.fields.Consistent := (h.tidy key _ hc).2
  refine ⟨field, c, rfl, ?_, hc, ?_⟩
  · refine ExpiryIndex.first?_eq_some_iff.mpr ⟨(h.mem_entries_iff_owes _).mpr ?_, fun a ha => ?_⟩
    · refine ⟨c, hc, rfl, ⟨field, hx⟩, fun other time hx' => ?_⟩
      exact IndexEntry.due_le_of_cmp (hmin _ (mem_fine h' (hk ▸ hc) hx'))
    · obtain ⟨c', hc', ha', ⟨other, hx'⟩, -⟩ := (h.mem_entries_iff_owes a).mp ha
      have hle := hmin _ (mem_fine h' (hk ▸ hc') hx')
      have ha : a = ⟨a.due, a.key, none⟩ := by rw [← ha']
      rw [ha]
      exact IndexEntry.cmp_withoutField hle
  · refine SortedTable.first?_eq_some_iff.mpr ⟨hcons.mem_expiring.mpr hx, fun r hr => ?_⟩
    have hle := hmin _ (mem_fine h' (hk ▸ hc) (hcons.mem_expiring.mp hr))
    have hkey : compare key key = .eq := ReflCmp.compare_self
    unfold IndexEntry.cmp at hle
    rw [hkey] at hle
    rw [id, id, Ranked.compare_def]
    exact hle

theorem first?_coarse_none (h : d.InStep .coarse) (h' : d'.InStep .fine) (hk : d'.keys = d.keys)
    (he : d'.index.first? = none) : d.index.first? = none := by
  rw [ExpiryIndex.first?_eq_none_iff] at he ⊢
  intro a ha
  obtain ⟨c, hc, -, ⟨field, hx⟩, -⟩ := (h.mem_entries_iff_owes a).mp ha
  exact he _ (mem_fine h' (hk ▸ hc) hx)

end Database

/-- The keys, the tallies and the commands sent are the same, and the indexes of either layout are
in step. -/
def LayoutTwins (w w' : Work) : Prop :=
  SameKeys Eq Eq w w' ∧ w.database.InStep .coarse ∧ w'.database.InStep .fine

namespace LayoutTwins

variable {w w' : Work}

/-- An action that does not look at the index keeps both indexes in step. -/
theorem of_tidyTwins {α β : Type} {S : α → β → Prop} {x : DatabaseM α} {y : DatabaseM β}
    (h : Related TidyTwins S x y) (hx : Leads (Work.Traces fun _ => True) x)
    (hy : Leads (Work.Traces fun _ => True) y) : Related LayoutTwins S x y := by
  refine (h.and_leads (Work.keeps_inStep .coarse hx) (Work.keeps_inStep .fine hy)).of_iff fun w w' => ?_
  exact ⟨fun ⟨hs, hc, hf⟩ => ⟨⟨hs, hc.tidy, hf.tidy⟩, hc, hf⟩, fun ⟨⟨hs, _⟩, hc, hf⟩ => ⟨hs, hc, hf⟩⟩

theorem reclaim (s : Scope) (key field : Bytes) (t : Trigger) :
    Related LayoutTwins (· = ·) (s.reclaim key field t) (s.reclaim key field t) :=
  (SameKeys.reclaim s key field t).and_leads
    (Work.keeps_inStep .coarse (Work.traces_reclaim s key field t))
    (Work.keeps_inStep .fine (Work.traces_reclaim s key field t))

/-- The first field of a container is the one that an entry of the coarse layout stands for. -/
theorem run_fieldOf (s : Scope) {due : UInt64} {key field : Bytes} {c : Container}
    (hc : w.database.keys.get? key = some (.container c))
    (hf : c.fields.earliest? = some ⟨due, field⟩) :
    (s.fieldOf ⟨due, key, none⟩).run w = .ok field w := by
  have hbind : ((w.database.keys.get? key).bind Value.container?).bind (·.fields.earliest?) =
      some ⟨due, field⟩ := by
    rw [hc]
    exact hf
  rw [Scope.fieldOf]
  dsimp only
  rw [EStateM.run_bind, run_database]
  dsimp only
  rw [hbind]
  dsimp only
  rw [if_pos rfl]
  rfl

/-- What an expiry does at an entry that is due. -/
def drainAt (s : Scope) (budget : Nat) (key field : Bytes) : DatabaseM Nat := do
  s.reclaim key field .active
  return (← s.drain budget) + 1

theorem run_drain (s : Scope) (budget : Nat) (w : Work) :
    (s.drain (budget + 1)).run w = match w.database.index.first? with
      | none => .ok 0 w
      | some e => if s.now < e.due then .ok 0 w
        else (s.fieldOf e >>= fun field => drainAt s budget e.key field).run w := by
  change EStateM.run (match w.database.index.first? with
    | none => pure 0
    | some e => if s.now < e.due then pure 0
      else s.fieldOf e >>= fun field => drainAt s budget e.key field) w = _
  cases w.database.index.first? with
  | none => rfl
  | some e =>
    dsimp only
    split <;> rfl

/-- Databases that differ in their layouts alone are drained alike. -/
theorem drain (s : Scope) (budget : Nat) :
    Related LayoutTwins (· = ·) (s.drain budget) (s.drain budget) := by
  induction budget with
  | zero => exact Related.pure rfl
  | succ budget ih =>
    have hat (key field : Bytes) :
        Related LayoutTwins (· = ·) (drainAt s budget key field) (drainAt s budget key field) :=
      Related.bind_eq (reclaim s key field .active) fun _ =>
        Related.bind_eq ih fun _ => Related.pure rfl
    intro w w' hw
    obtain ⟨hsame, hcoarse, hfine⟩ := hw
    rw [run_drain, run_drain]
    cases he : w'.database.index.first? with
    | none =>
      rw [Database.first?_coarse_none hcoarse hfine hsame.keys he]
      exact .ok rfl ⟨hsame, hcoarse, hfine⟩
    | some e =>
      obtain ⟨field, c, hf, hfirst, hc, hc'⟩ :=
        Database.first?_coarse hcoarse hfine hsame.keys he
      rw [hfirst]
      dsimp only
      split
      · exact .ok rfl ⟨hsame, hcoarse, hfine⟩
      · obtain ⟨due, key, f⟩ := e
        obtain rfl : f = some field := hf
        rw [EStateM.run_bind, run_fieldOf s hc hc']
        exact hat key field w w' ⟨hsame, hcoarse, hfine⟩

end LayoutTwins

end ExpiringHash
