import ExpiringHash.Proofs.Engine.FullScan
import Mathlib.Data.List.Nodup
import Mathlib.Data.List.Perm.Subperm
import Mathlib.Data.Nat.ModEq

/-!
# Visits of the active cycle

The active cycle looks at one database after the other, in the order of their numbers and the first
one again after the last. Visits are logged here: which database was looked at, and how many of its
fields were deleted. The logged visits are the visits of a tick, and what they have come to by
themselves (`Visited`) adds up over any number of them.
-/
namespace ExpiringHash

/-- The databases whose turn it is, from a cursor on. -/
def Cycle.turns (cursor databases count : Nat) : List Nat :=
  (List.range count).map fun i => (cursor + i) % databases

namespace Cycle

variable {databases count cursor db : Nat}

@[simp] theorem length_turns (cursor databases count : Nat) :
    (turns cursor databases count).length = count := by
  rw [turns, List.length_map, List.length_range]

theorem turns_add (cursor databases count more : Nat) :
    turns cursor databases (count + more) =
      turns cursor databases count ++ turns (cursor + count) databases more := by
  simp only [turns, List.range_add, List.map_append, List.map_map, Function.comp_def, Nat.add_assoc]

/-- Only the place of the cursor among the databases matters. -/
theorem turns_congr {cursor' : Nat} (h : cursor % databases = cursor' % databases) :
    turns cursor databases count = turns cursor' databases count :=
  List.map_congr_left fun i _ => Nat.ModEq.add_right i h

/-- No database has its turn again before all others have had theirs. -/
theorem nodup_turns (h : count ≤ databases) : (turns cursor databases count).Nodup := by
  refine List.pairwise_map.mpr (List.nodup_range.imp_of_mem fun {i j} hi hj hne he => hne ?_)
  have hmod : i ≡ j [MOD databases] := Nat.ModEq.add_left_cancel' cursor he
  have hi' : i < databases := Nat.lt_of_lt_of_le (List.mem_range.mp hi) h
  have hj' : j < databases := Nat.lt_of_lt_of_le (List.mem_range.mp hj) h
  exact hmod.eq_of_lt_of_lt hi' hj'

/-- In as many visits as there are databases, each has one turn. -/
theorem count_turns_self (hdb : db < databases) :
    (turns cursor databases databases).count db = 1 := by
  have hnodup : (turns cursor databases databases).Nodup := nodup_turns (Nat.le_refl _)
  have hsubset : turns cursor databases databases ⊆ List.range databases := fun x hx => by
    obtain ⟨i, -, rfl⟩ := List.mem_map.mp hx
    exact List.mem_range.mpr (Nat.mod_lt _ (Nat.zero_lt_of_lt hdb))
  have hperm : (turns cursor databases databases).Perm (List.range databases) :=
    (List.subperm_of_subset hnodup hsubset).perm_of_length_le (by
      rw [length_turns, List.length_range])
  rw [hperm.count_eq]
  exact List.count_eq_one_of_mem List.nodup_range (List.mem_range.mpr hdb)

/-- A database has a turn for every round that is complete. -/
theorem le_count_turns (hdb : db < databases) {rounds : Nat} (h : rounds * databases ≤ count) :
    rounds ≤ (turns cursor databases count).count db := by
  obtain ⟨rest, rfl⟩ := Nat.exists_eq_add_of_le h
  have hrounds : rounds = (turns cursor databases (rounds * databases)).count db := by
    clear h
    induction rounds with
    | zero => rw [Nat.zero_mul]; rfl
    | succ rounds ih =>
      rw [Nat.succ_mul, turns_add, List.count_append, ← ih, count_turns_self hdb]
  rw [turns_add, List.count_append, ← hrounds]
  exact Nat.le_add_right _ _

end Cycle

namespace Engine

variable {e f g : Engine} {l : Layout} {log log' : List (Nat × Nat)}

/-- Visits the next database; the answer is its number and how many fields were deleted there. -/
def visitNext : EngineM (Nat × Nat) := do
  let e ← get
  let (db, cycle) := e.cycle.next e.databases.length
  set { e with cycle }
  let idle := (e.databases[db]?).all fun d => d.keys.isEmpty
  let deleted ← if idle then pure 0 else activeExpire db e.config.activeBudget
  return (db, deleted)

/-- Visits of databases, logged. -/
def visitLog : Nat → EngineM (List (Nat × Nat))
  | 0 => return []
  | visits + 1 => return (← visitNext) :: (← visitLog visits)

/-- How many fields logged visits have deleted. -/
def deleted (log : List (Nat × Nat)) : Nat := (log.map (·.2)).sum

/-- The visits of a tick are the logged ones. -/
theorem visit_eq (visits : Nat) : visit visits = deleted <$> visitLog visits := by
  induction visits with
  | zero => rfl
  | succ visits ih =>
    rw [visit, ih, visitLog, visitNext]
    simp only [map_eq_pure_bind, bind_assoc, pure_bind]
    refine bind_congr fun e => bind_congr fun _ => ?_
    -- a database that is passed over and one that is not
    split <;> simp only [bind_assoc, pure_bind, deleted, List.map_cons, List.sum_cons]

/-- How many records there are in all databases, expired or not. -/
def size (e : Engine) : Nat := (e.databases.map (·.records.size)).sum

/-- What visits of databases have come to: the databases had their turns, each was relieved of what
was overdue, up to the budget at each of its turns, and nothing else was done. -/
structure Visited (l : Layout) (log : List (Nat × Nat)) (e f : Engine) : Prop where
  config : f.config = e.config
  now : f.now = e.now
  role : f.role = e.role
  length : f.databases.length = e.databases.length
  inStep : ∀ d ∈ f.databases, d.InStep l
  cursor : f.cycle.cursor % e.databases.length = (e.cycle.cursor + log.length) % e.databases.length
  turns : log.map (·.1) = Cycle.turns e.cycle.cursor e.databases.length log.length
  deleted_le : ∀ v ∈ log, v.2 ≤ e.config.activeBudget
  relieved : ∀ {db : Nat} {d : Database}, e.databases[db]? = some d → ∃ d', f.databases[db]? = some d' ∧
    d.Relieved e.now ((log.map (·.1)).count db * e.config.activeBudget) d'
  size : f.size + deleted log = e.size

namespace Visited

/-- Nothing but the cycle changes, and not its cursor. -/
theorem of_cycle (h : ∀ d ∈ e.databases, d.InStep l) {cycle : Cycle}
    (hc : cycle.cursor = e.cycle.cursor) : Visited l [] e { e with cycle } where
  config := rfl
  now := rfl
  role := rfl
  length := rfl
  inStep := h
  cursor := congrArg (· % e.databases.length) hc
  turns := rfl
  deleted_le := nofun
  relieved {_ d} hd := by
    refine ⟨d, hd, ?_⟩
    rw [List.map_nil, List.count_nil, Nat.zero_mul]
    exact .refl e.now d
  size := rfl

theorem trans (h : Visited l log e f) (h' : Visited l log' f g) :
    Visited l (log ++ log') e g where
  config := h'.config.trans h.config
  now := h'.now.trans h.now
  role := h'.role.trans h.role
  length := h'.length.trans h.length
  inStep := h'.inStep
  cursor := by
    have hcursor := h'.cursor
    rw [h.length] at hcursor
    rw [hcursor, List.length_append, ← Nat.add_assoc, Nat.add_mod, h.cursor, ← Nat.add_mod]
  turns := by
    have hturns := h'.turns
    rw [h.length, Cycle.turns_congr h.cursor] at hturns
    rw [List.map_append, List.length_append, Cycle.turns_add, h.turns, hturns]
  deleted_le := List.forall_mem_append.mpr ⟨h.deleted_le, h.config ▸ h'.deleted_le⟩
  relieved {db d} hd := by
    obtain ⟨d₁, hd₁, hrelieved⟩ := h.relieved hd
    obtain ⟨d₂, hd₂, hrelieved'⟩ := h'.relieved hd₁
    refine ⟨d₂, hd₂, ?_⟩
    rw [h.now, h.config] at hrelieved'
    rw [List.map_append, List.count_append, Nat.add_mul]
    exact hrelieved.trans hrelieved'
  size := by
    have hdeleted : deleted (log ++ log') = deleted log + deleted log' := by
      rw [deleted, List.map_append, List.sum_append]
      rfl
    rw [hdeleted, ← h.size, ← h'.size]
    omega

end Visited

theorem sum_map_set {α : Type} {xs : List α} {i : Nat} {a b : α} (count : α → Nat)
    (h : xs[i]? = some b) :
    ((xs.set i a).map count).sum + count b = (xs.map count).sum + count a := by
  induction xs generalizing i with
  | nil => cases h
  | cons x xs ih =>
    cases i with
    | zero =>
      obtain rfl := Option.some.inj h
      simp only [List.set_cons_zero, List.map_cons, List.sum_cons]
      omega
    | succ i =>
      have hrest := ih h
      simp only [List.set_cons_succ, List.map_cons, List.sum_cons]
      omega

/-- A visit of one database is over once that is relieved. -/
theorem Visited.single {db : Nat} {d : Database} {w : Work} (h : ∀ d ∈ e.databases, d.InStep l)
    (hdb : db = e.cycle.cursor % e.databases.length) (hd : e.databases[db]? = some d)
    (hw : d.Relieved e.now e.config.activeBudget w.database) (hstep : w.database.InStep l)
    {cycle : Cycle} (hc : cycle.cursor = (db + 1) % e.databases.length) :
    Visited l [(db, min e.config.activeBudget (d.overdue e.now).size)] e
      (absorb { e with cycle } db w) where
  config := rfl
  now := rfl
  role := rfl
  length := length_databases_absorb ..
  inStep d' hm := (mem_absorb hm).elim (h d') fun he => he ▸ hstep
  cursor := by
    change cycle.cursor % _ = (e.cycle.cursor + 1) % _
    rw [hc, hdb, Nat.mod_mod, Nat.mod_add_mod]
  turns := by rw [hdb]; rfl
  deleted_le := List.forall_mem_singleton.mpr (Nat.min_le_left _ _)
  relieved {other d'} hd' := by
    by_cases hne : other = db
    · subst hne
      obtain rfl := Option.some.inj (hd.symm.trans hd')
      refine ⟨w.database, getElem?_absorb_self (e := { e with cycle }) hd w, ?_⟩
      rw [List.map_singleton, List.count_singleton_self, Nat.one_mul]
      exact hw
    · refine ⟨d', (getElem?_absorb_of_ne (e := { e with cycle }) hne w).trans hd', ?_⟩
      rw [List.map_singleton, List.count_singleton, beq_false_of_ne (Ne.symm hne)]
      exact (Nat.zero_mul _).symm ▸ .refl e.now d'
  size := by
    have hset := sum_map_set (a := w.database) (·.records.size) hd
    have hsize := hw.size_add
    change ((e.databases.set db w.database).map (·.records.size)).sum +
      (min e.config.activeBudget (d.overdue e.now).size + 0) = (e.databases.map (·.records.size)).sum
    omega

/-- A visit never fails; it relieves the database whose turn it is, and no other. -/
theorem visited_next (hp : e.role = .primary) (hn : 0 < e.databases.length)
    (h : ∀ d ∈ e.databases, d.InStep l) :
    ∃ v f, visitNext.run e = .ok v f ∧ Visited l [v] e f := by
  have hmax : max e.databases.length 1 = e.databases.length := Nat.max_eq_left hn
  have hdb : (e.cycle.next e.databases.length).1 = e.cycle.cursor % e.databases.length := by
    rw [Cycle.next, hmax]
  have hc : (e.cycle.next e.databases.length).2.cursor =
      ((e.cycle.next e.databases.length).1 + 1) % e.databases.length := by
    rw [Cycle.next, hmax]
  obtain ⟨d, hd⟩ : ∃ d, e.databases[(e.cycle.next e.databases.length).1]? = some d :=
    ⟨_, List.getElem?_eq_getElem (e.cycle.next_lt hn)⟩
  have hstep : d.InStep l := h d (List.mem_of_getElem? hd)
  change ∃ v f, EStateM.run (do
      let deleted ← if (e.databases[(e.cycle.next e.databases.length).1]?).all fun d =>
          d.keys.isEmpty then pure 0
        else activeExpire (e.cycle.next e.databases.length).1 e.config.activeBudget
      return ((e.cycle.next e.databases.length).1, deleted))
    { e with cycle := (e.cycle.next e.databases.length).2 } = .ok v f ∧ _
  rw [hd, Option.all_some]
  cases hk : SortedTable.isEmpty d.keys with
  | true =>
    have hnone : (d.overdue e.now).toList = [] := Database.overdue_eq_nil_of_isEmpty hk
    have hvisited := Visited.single (w := { database := d }) h hdb hd
      (.of_overdue_eq_nil hnone _) hstep hc
    rw [absorb_self (e := { e with cycle := (e.cycle.next e.databases.length).2 }) hd,
      SortedTable.size, hnone, List.length_nil, Nat.min_zero] at hvisited
    exact ⟨_, _, rfl, hvisited⟩
  | false =>
    obtain ⟨w, hrun, hlogs, hrest, hstep'⟩ := logs_activeExpire
      (e := { e with cycle := (e.cycle.next e.databases.length).2 }) hp hd hstep
      e.config.activeBudget
    refine ⟨_, _, ?_, .single h hdb hd ⟨hlogs.course.records_reclaims.1, hrest⟩ hstep' hc⟩
    rw [if_neg Bool.false_ne_true, EStateM.run_bind, hrun]
    rfl

theorem visited_log (hp : e.role = .primary) (hn : 0 < e.databases.length)
    (h : ∀ d ∈ e.databases, d.InStep l) (visits : Nat) :
    ∃ log f, (visitLog visits).run e = .ok log f ∧ log.length = visits ∧ Visited l log e f := by
  induction visits generalizing e with
  | zero => exact ⟨[], e, rfl, rfl, .of_cycle h rfl⟩
  | succ visits ih =>
    obtain ⟨v, f, hrun, hvisited⟩ := visited_next hp hn h
    obtain ⟨log, g, hrun', hlength, hvisited'⟩ := ih (hvisited.role.trans hp)
      (hvisited.length.symm ▸ hn) hvisited.inStep
    refine ⟨v :: log, g, ?_, congrArg (· + 1) hlength, hvisited.trans hvisited'⟩
    rw [visitLog, EStateM.run_bind, hrun]
    dsimp only
    rw [EStateM.run_bind, hrun']
    rfl

end Engine

end ExpiringHash
