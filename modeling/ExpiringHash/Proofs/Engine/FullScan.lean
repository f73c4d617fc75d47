import ExpiringHash.Proofs.Database.Draining
import ExpiringHash.Proofs.Engine.Accounts

/-!
# Active expiry is a full scan

Active expiry of a database deletes what a scan of all its records would: of those that have expired
the first ones by expiry, then key, then field, up to the budget. It never fails, its answer is their
number, and its commands tell of them in this order, each key after its last record.
-/
namespace ExpiringHash.Engine

variable {e : Engine} {db : Nat} {d : Database} {l : Layout}

/-- A primary reclaims the first records that a scan finds overdue. -/
theorem logs_activeExpire (hp : e.role = .primary) (hd : e.databases[db]? = some d)
    (h : d.InStep l) (budget : Nat) :
    ∃ w, (activeExpire db budget).run e = .ok (min budget (d.overdue e.now).size) (e.absorb db w) ∧
      Work.Logs e.now { database := d }
        (Database.reclaims d.records (((d.overdue e.now).toList.take budget).map (·.item))) w ∧
      (w.database.overdue e.now).toList = (d.overdue e.now).toList.drop budget ∧
      w.database.InStep l := by
  have hprimary : (e.scope db).isPrimary = true := decide_eq_true hp
  obtain ⟨w, hrun, hlogs, hstep⟩ :=
    logs_drain_overdue (w := { database := d }) hprimary h budget
  refine ⟨w, ?_, hlogs, hstep⟩
  rw [activeExpire, run_onDatabase, hd]
  dsimp only
  rw [if_pos hprimary, hrun]
  rfl

/-- Whatever a primary has been asked before, active expiry of one of its databases deletes the first
records that have expired, by expiry, then key, then field, as many as the budget allows, and nothing
else. -/
theorem activeExpire_eq_scan {config : Config} {now : UInt64}
    (h : (new config now).Reaches (fun _ r => ¬r.IsSecondNotice) e) (hp : e.role = .primary)
    (hd : e.databases[db]? = some d) (budget : Nat) :
    let found := d.records.toList.countP fun r => r.2.isExpired e.now
    let victims := ((d.overdue e.now).toList.take budget).map (·.item)
    ∃ d' e', (Request.expire db budget).perform.run e = .ok (min budget found) e' ∧
      e'.databases = e.databases.set db d' ∧
      d'.records = d.records.select (·.1 ∉ victims) ∧
      (∀ key, (∀ ref ∈ victims, ref.key ≠ key) → d'.keys.get? key = d.keys.get? key) ∧
      e'.sent = e.sent ++ commandsOf ((Database.reclaims d.records victims).map (db, ·)) ∧
      d'.tally.active = d.tally.active + UInt64.ofNat (min budget found) ∧
      d'.tally.passive = d.tally.passive := by
  intro found victims
  have hfound : (d.overdue e.now).size = found := d.size_overdue e.now
  have hvictims : victims.length = min budget found := by
    rw [List.length_map, List.length_take, ← hfound]
    rfl
  have hstep : d.InStep config.layout :=
    (keeps_reaches (fun _ _ hr => keeps_perform (Database.InStep.lasting config.layout) hr) h
      (forall_mem_new now (Database.InStep.new config.layout))).2.2 d (List.mem_of_getElem? hd)
  obtain ⟨w, hrun, hlogs, -⟩ := logs_activeExpire hp hd hstep budget
  obtain ⟨hrecords, hkeys⟩ := hlogs.course.records_reclaims
  obtain ⟨hactive, hpassive⟩ := hlogs.course.tally
  obtain ⟨hca, hcp⟩ := Database.countP_reclaims d.records victims
  rw [hfound] at hrun
  refine ⟨w.database, e.absorb db w, hrun, rfl, hrecords, hkeys, ?_, ?_, ?_⟩
  · exact (Accounts.absorb hd hlogs).sent
  · rw [hactive, hca, hvictims]
  · rw [hpassive, hcp]
    exact UInt64.add_zero _

/-- Three records of two keys have expired, two of them at the same time; the budget is two, which are
the records of one key. -/
theorem activeExpire_eq_scan_ties :
    let new (layout : Layout) := Engine.new { layout } 1000
    let e (layout : Layout) := (((((new layout).after
      (.write 0 (.set [2] [10] [7] { ttl := .set (.moment 2000) }))).after
      (.write 0 (.set [1] [11] [8] { ttl := .set (.moment 2000) }))).after
      (.write 0 (.set [1] [12] [9] { ttl := .set (.moment 1500) }))).after
      (.write 0 (.set [3] [13] [6] {}))).after (.setClock 2500)
    ∀ layout, (new layout).Reaches (fun _ r => ¬r.IsSecondNotice) (e layout) ∧
      (e layout).role = .primary ∧
      ∃ d d' e', (e layout).databases[0]? = some d ∧
        (Request.expire 0 2).perform.run (e layout) = .ok 2 e' ∧
        e'.databases = (e layout).databases.set 0 d' ∧
        d'.records.toList = [(⟨[2], [10]⟩, ⟨[7], 1, 2000⟩), (⟨[3], [13]⟩, ⟨[6], 1, 0⟩)] ∧
        e'.sent = (e layout).sent ++
          [(0, .delete [1] [12]), (0, .delete [1] [11]), (0, .deleteKey [1])] ∧
        d'.tally.active = 2 := by
  intro new e layout
  have h : (new layout).Reaches (fun _ r => ¬r.IsSecondNotice) (e layout) :=
    .step _ (.step _ (.step _ (.step _ (.step _ .refl id) id) id) id) id
  let d := ((e layout).databases[0]?).getD (.new layout)
  have hp : (e layout).role = .primary := by cases layout <;> decide +kernel
  have hd : (e layout).databases[0]? = some d := by cases layout <;> decide +kernel
  have hvictims : ((d.overdue (e layout).now).toList.take 2).map (·.item) =
      [⟨[1], [12]⟩, ⟨[1], [11]⟩] := by
    cases layout <;> decide +kernel
  obtain ⟨d', e', hrun, hdatabases, hrecords, -, hsent, hactive, -⟩ :=
    activeExpire_eq_scan h hp hd 2
  rw [hvictims] at hrecords hsent
  have hfound : min 2 (d.records.toList.countP fun r => r.2.isExpired (e layout).now) = 2 := by
    cases layout <;> decide +kernel
  rw [hfound] at hrun hactive
  refine ⟨h, hp, d, d', e', hd, hrun, hdatabases, ?_, ?_, ?_⟩
  · rw [hrecords]
    cases layout <;> decide +kernel
  · rw [hsent]
    cases layout <;> decide +kernel
  · rw [hactive]
    cases layout <;> decide +kernel

end ExpiringHash.Engine
