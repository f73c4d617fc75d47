import ExpiringHash.Proofs.Engine.Visits
import Mathlib.Algebra.Order.BigOperators.Group.List
import Mathlib.Algebra.Order.Floor.Div
import Mathlib.Data.List.MinMax
import Mathlib.GroupTheory.GroupAction.Ring

/-!
# Rounds of the active cycle

Ticks of the active cycle, one after the other while the clock stands still. Each takes up the turns
where the one before has left off, whether the databases in between had anything to delete or not, so
every database has its turn once in a round, and after enough rounds nothing that has expired is left.
-/
namespace ExpiringHash

theorem run_map {ε σ α β : Type} (f : α → β) (x : EStateM ε σ α) (s : σ) :
    (f <$> x).run s = match x.run s with
      | .ok a t => .ok (f a) t
      | .error e t => .error e t := rfl

/-- An effect that succeeds, and then those that follow. -/
theorem run_mapM_cons {ε σ α β : Type} {f : β → EStateM ε σ α} {b : β} {l : List β} {s t u : σ}
    {a : α} {as : List α} (h : (f b).run s = .ok a t) (hl : (l.mapM f).run t = .ok as u) :
    ((b :: l).mapM f).run s = .ok (a :: as) u := by
  rw [List.mapM_cons, EStateM.run_bind, h]
  dsimp only
  rw [EStateM.run_bind, hl]
  rfl

namespace Engine

variable {e f g : Engine} {l : Layout} {log : List (Nat × Nat)} {elapsed : UInt64}

/-- The number of databases that a tick visits. -/
def visits (e : Engine) : Nat := min e.config.activeDatabases e.databases.length

/-- A tick of the active cycle with its visits logged. -/
def tickLog (elapsed : UInt64) : EngineM (List (Nat × Nat)) := fun e =>
  if e.role = .replica then .ok [] e
  else match (visitLog e.visits).run { e with cycle := e.cycle.start } with
    | .ok log e => .ok log { e with cycle := e.cycle.finish (some elapsed) }
    | .error err e => .error err { e with cycle := e.cycle.finish none }

/-- What a tick does is what it logs. -/
theorem tick_eq (elapsed : UInt64) : tick elapsed = deleted <$> tickLog elapsed := by
  funext e
  change tick elapsed e = EStateM.map deleted (tickLog elapsed) e
  unfold tick EStateM.map tickLog
  split
  · rfl
  · dsimp only
    rw [visit_eq, run_map, visits]
    cases (visitLog (min e.config.activeDatabases e.databases.length)).run
      { e with cycle := e.cycle.start } <;> rfl

theorem run_tick (h : (tickLog elapsed).run e = .ok log f) :
    (tick elapsed).run e = .ok (deleted log) f := by
  rw [tick_eq, run_map, h]

/-- A tick of a primary never fails; the databases have their turns, as many as a tick visits. -/
theorem visited_tick (hp : e.role = .primary) (hn : 0 < e.databases.length)
    (h : ∀ d ∈ e.databases, d.InStep l) (elapsed : UInt64) :
    ∃ log f, (tickLog elapsed).run e = .ok log f ∧ log.length = e.visits ∧ Visited l log e f := by
  have hstart : Visited l [] e { e with cycle := e.cycle.start } := .of_cycle h rfl
  obtain ⟨log, f, hrun, hlength, hvisited⟩ :=
    visited_log (e := { e with cycle := e.cycle.start }) hp hn h e.visits
  have hfinish : Visited l [] f { f with cycle := f.cycle.finish (some elapsed) } :=
    .of_cycle hvisited.inStep rfl
  have hprimary : e.role ≠ .replica := by
    rw [hp]
    nofun
  refine ⟨log, { f with cycle := f.cycle.finish (some elapsed) }, ?_, hlength, ?_⟩
  · change tickLog elapsed e = _
    rw [tickLog, if_neg hprimary, hrun]
  · rw [← List.append_nil log]
    exact (hstart.trans hvisited).trans hfinish

theorem visited_ticks (hp : e.role = .primary) (hn : 0 < e.databases.length)
    (h : ∀ d ∈ e.databases, d.InStep l) (ticks : List UInt64) :
    ∃ logs f, (ticks.mapM tickLog).run e = .ok logs f ∧
      (ticks.mapM tick).run e = .ok (logs.map deleted) f ∧
      logs.flatten.length = ticks.length * e.visits ∧ Visited l logs.flatten e f := by
  induction ticks generalizing e with
  | nil => exact ⟨[], e, rfl, rfl, (Nat.zero_mul _).symm, .of_cycle h rfl⟩
  | cons elapsed ticks ih =>
    obtain ⟨log, f, hrun, hlength, hvisited⟩ := visited_tick hp hn h elapsed
    obtain ⟨logs, g, hlogs, hticks, hlength', hvisited'⟩ := ih (hvisited.role.trans hp)
      (hvisited.length.symm ▸ hn) hvisited.inStep
    have hsame : f.visits = e.visits := by rw [visits, visits, hvisited.config, hvisited.length]
    refine ⟨log :: logs, g, run_mapM_cons hrun hlogs, run_mapM_cons (run_tick hrun) hticks, ?_,
      hvisited.trans hvisited'⟩
    rw [List.flatten_cons, List.length_append, hlength, hlength', hsame, List.length_cons,
      Nat.succ_mul, Nat.add_comm]

/-- How many rounds it takes to delete everything that has expired. -/
def rounds (e : Engine) : Nat :=
  (e.databases.map fun d => (d.records.toList.countP fun r => r.2.isExpired e.now) ⌈/⌉
    e.config.activeBudget).foldr max 0

theorem size_overdue_le (hbudget : 1 ≤ e.config.activeBudget) {d : Database}
    (hd : d ∈ e.databases) : (d.overdue e.now).size ≤ e.config.activeBudget * e.rounds := by
  rw [d.size_overdue, ← ceilDiv_le_iff_le_mul hbudget]
  exact List.le_max_of_le (List.mem_map.mpr ⟨d, hd, rfl⟩) (le_refl _)

namespace Visited

theorem deleted_le_mul (h : Visited l log e f) :
    deleted log ≤ log.length * e.config.activeBudget := by
  have hsum := List.sum_le_card_nsmul (log.map (·.2)) e.config.activeBudget fun n hn => by
    obtain ⟨v, hv, rfl⟩ := List.mem_map.mp hn
    exact h.deleted_le v hv
  rw [List.length_map] at hsum
  exact hsum

/-- Within a round a database loses no more records than the budget of one visit. -/
theorem exists_gone (h : Visited l log e f) (hround : log.length ≤ e.databases.length) {db : Nat}
    {d : Database} (hd : e.databases[db]? = some d) :
    ∃ d', ∃ gone : List FieldRef, f.databases[db]? = some d' ∧
      gone.length ≤ e.config.activeBudget ∧ d'.records = d.records.select (·.1 ∉ gone) := by
  obtain ⟨d', hd', hrelieved⟩ := h.relieved hd
  refine ⟨d', _, hd', ?_, hrelieved.records⟩
  have honce : (log.map (·.1)).count db ≤ 1 := by
    rw [h.turns]
    exact List.nodup_iff_count_le_one.mp (Cycle.nodup_turns hround) db
  rw [List.length_map, List.length_take]
  calc min ((log.map (·.1)).count db * e.config.activeBudget) (d.overdue e.now).toList.length
      ≤ (log.map (·.1)).count db * e.config.activeBudget := Nat.min_le_left _ _
    _ ≤ 1 * e.config.activeBudget := Nat.mul_le_mul_right _ honce
    _ = e.config.activeBudget := Nat.one_mul _

/-- After enough rounds nothing that has expired is left. -/
theorem cleared (h : Visited l log e f) (hbudget : 1 ≤ e.config.activeBudget)
    (henough : e.databases.length * e.rounds ≤ log.length) {d' : Database}
    (hm : d' ∈ f.databases) {row : FieldRef × Record} (hrow : row ∈ d'.records) :
    row.2.isExpired e.now = false := by
  obtain ⟨db, hd'⟩ := List.mem_iff_getElem?.mp hm
  have hdb : db < e.databases.length := h.length ▸ (List.getElem?_eq_some_iff.mp hd').1
  have hd : e.databases[db]? = some e.databases[db] := List.getElem?_eq_getElem hdb
  obtain ⟨d'', hd'', hrelieved⟩ := h.relieved hd
  obtain rfl := Option.some.inj (hd''.symm.trans hd')
  have hturns : e.rounds ≤ (log.map (·.1)).count db := by
    rw [h.turns]
    exact Cycle.le_count_turns hdb (Nat.mul_comm .. ▸ henough)
  refine hrelieved.not_expired_of_size_le ?_ hrow
  calc (e.databases[db].overdue e.now).size
      ≤ e.config.activeBudget * e.rounds := size_overdue_le hbudget (List.mem_of_getElem? hd)
    _ ≤ e.config.activeBudget * (log.map (·.1)).count db := Nat.mul_le_mul_left _ hturns
    _ = (log.map (·.1)).count db * e.config.activeBudget := Nat.mul_comm ..

end Visited

/-- What ticks have come to that took place one after the other. -/
structure Ticked (ticks : List UInt64) (logs : List (List (Nat × Nat))) (e f : Engine) : Prop where
  /-- Every tick succeeds, and answers how many records it has deleted. -/
  run : (ticks.mapM fun elapsed => (Request.tick elapsed).perform).run e = .ok (logs.map deleted) f
  logged : (ticks.mapM tickLog).run e = .ok logs f
  /-- The databases are visited in turn, from where the cursor was left on. -/
  turns : logs.flatten.map (·.1) =
    Cycle.turns e.cycle.cursor e.databases.length (ticks.length * e.visits)
  cursor : f.cycle.cursor % e.databases.length =
    (e.cycle.cursor + ticks.length * e.visits) % e.databases.length
  /-- No tick takes more from a database, or from all of them, than the budgets allow. -/
  tick : ∀ done elapsed todo, ticks = done ++ elapsed :: todo → ∃ counts g n g',
    (done.mapM fun elapsed => (Request.tick elapsed).perform).run e = .ok counts g ∧
      (Request.tick elapsed).perform.run g = .ok n g' ∧
      g'.size + n = g.size ∧ n ≤ e.visits * e.config.activeBudget ∧
      ∀ {db : Nat} {d : Database}, g.databases[db]? = some d → ∃ d', ∃ gone : List FieldRef,
        g'.databases[db]? = some d' ∧ gone.length ≤ e.config.activeBudget ∧
          d'.records = d.records.select (·.1 ∉ gone)
  /-- As many records are gone as the answers say. -/
  size : f.size + (logs.map deleted).sum = e.size
  /-- No record is there that was not there before, and those that have not expired all are. -/
  spared : ∀ {db : Nat} {d : Database}, e.databases[db]? = some d → ∃ d',
    f.databases[db]? = some d' ∧ ∀ row, (row ∈ d'.records → row ∈ d.records) ∧
      (row.2.isExpired e.now = false → row ∈ d.records → row ∈ d'.records)
  /-- After enough ticks nothing that has expired is there any more. -/
  cleared : (e.databases.length * e.rounds) ⌈/⌉ e.visits ≤ ticks.length →
    ∀ d' ∈ f.databases, ∀ row ∈ d'.records, row.2.isExpired e.now = false

/-- Whatever a primary has been asked before, ticks of its active cycle take the databases in turn,
keep to their budgets, and clear away all that has expired in as many rounds as it takes. -/
theorem ticks_fair {config : Config} {now : UInt64}
    (h : (new config now).Reaches (fun _ r => ¬r.IsSecondNotice) e) (hp : e.role = .primary)
    (hbudget : 1 ≤ e.config.activeBudget) (hvisits : 1 ≤ e.visits) (ticks : List UInt64) :
    ∃ logs f, Ticked ticks logs e f := by
  have hstep : ∀ d ∈ e.databases, d.InStep config.layout :=
    (keeps_reaches (fun _ _ hr => keeps_perform (Database.InStep.lasting config.layout) hr) h
      (forall_mem_new now (Database.InStep.new config.layout))).2.2
  have hn : 0 < e.databases.length := Nat.lt_of_lt_of_le hvisits (Nat.min_le_right _ _)
  obtain ⟨logs, f, hlogs, hticks, hlength, hvisited⟩ := visited_ticks hp hn hstep ticks
  refine ⟨logs, f, hticks, hlogs, ?_, ?_, ?_, ?_, ?_, ?_⟩
  · rw [hvisited.turns, hlength]
  · rw [hvisited.cursor, hlength]
  · intro done elapsed todo _
    obtain ⟨_, g, -, hdone, -, hvisited⟩ := visited_ticks hp hn hstep done
    obtain ⟨log, g', hrun, hlength, hvisited'⟩ := visited_tick (hvisited.role.trans hp)
      (hvisited.length.symm ▸ hn) hvisited.inStep elapsed
    have hsame : g.visits = e.visits := by
      rw [visits, visits, hvisited.config, hvisited.length]
    have hle := hvisited'.deleted_le_mul
    rw [hlength, hsame, hvisited.config] at hle
    refine ⟨_, g, _, g', hdone, run_tick hrun, hvisited'.size, hle, fun hd => ?_⟩
    rw [← hvisited.config]
    exact hvisited'.exists_gone (hlength ▸ Nat.min_le_right _ _) hd
  · have hsum : (logs.map deleted).sum = deleted logs.flatten := by
      rw [deleted, List.map_flatten, List.sum_flatten, List.map_map]
      rfl
    rw [hsum]
    exact hvisited.size
  · intro db d hd
    obtain ⟨d', hd', hrelieved⟩ := hvisited.relieved hd
    refine ⟨d', hd', fun row => ⟨fun hm => ?_, fun hx => (hrelieved.mem_iff_of_not_expired hx).mpr⟩⟩
    rw [hrelieved.records, SortedTable.mem_select] at hm
    exact hm.1
  · intro henough d' hm row hrow
    refine hvisited.cleared hbudget ?_ hm hrow
    rw [hlength, Nat.mul_comm ticks.length]
    exact (ceilDiv_le_iff_le_mul hvisits).mp henough

/-- Two of three databases have records that expired, two and one of them, and another tick has been
before. A tick visits two databases and deletes one record of each, so two rounds take three ticks. -/
theorem ticks_fair_three :
    let config : Config := { activeBudget := 1, activeDatabases := 2, databases := 3 }
    let new := Engine.new config 1000
    let e := (((((new.after (.tick 0)).after
      (.write 0 (.set [1] [10] [7] { ttl := .set (.moment 1500) }))).after
      (.write 0 (.set [2] [11] [8] { ttl := .set (.moment 1600) }))).after
      (.write 1 (.set [3] [12] [9] { ttl := .set (.moment 1700) }))).after
      (.write 1 (.set [3] [13] [6] {}))).after (.setClock 2000)
    new.Reaches (fun _ r => ¬r.IsSecondNotice) e ∧ e.role = .primary ∧
      1 ≤ e.config.activeBudget ∧ 1 ≤ e.visits ∧
      (e.databases.length * e.rounds) ⌈/⌉ e.visits = 3 ∧
      ∃ f, Ticked [0, 0, 0] [[(2, 0), (0, 1)], [(1, 1), (2, 0)], [(0, 1), (1, 0)]] e f ∧
        f.databases.map (·.records.toList) = [[], [(⟨[3], [13]⟩, ⟨[6], 1, 0⟩)], []] := by
  intro config new e
  have h : new.Reaches (fun _ r => ¬r.IsSecondNotice) e :=
    .step _ (.step _ (.step _ (.step _ (.step _ (.step _ .refl id) id) id) id) id) id
  have hp : e.role = .primary := by decide +kernel
  have hbudget : 1 ≤ e.config.activeBudget := by decide +kernel
  have hvisits : 1 ≤ e.visits := by decide +kernel
  have hcleared : (match ([0, 0, 0].mapM tickLog).run e with
      | .ok logs f => some (logs, f.databases.map (·.records.toList))
      | .error .. => none) = some ([[(2, 0), (0, 1)], [(1, 1), (2, 0)], [(0, 1), (1, 0)]],
        [[], [(⟨[3], [13]⟩, ⟨[6], 1, 0⟩)], []]) := by decide +kernel
  obtain ⟨logs, f, hticked⟩ := ticks_fair h hp hbudget hvisits [0, 0, 0]
  rw [hticked.logged] at hcleared
  obtain ⟨rfl, hrecords⟩ := Prod.mk.inj (Option.some.inj hcleared)
  exact ⟨h, hp, hbudget, hvisits, by decide +kernel, f, hticked, hrecords⟩

end Engine

end ExpiringHash
