import ExpiringHash.Proofs.Engine.Keys
import ExpiringHash.Timer

/-!
# One timer for an engine

Whoever holds the handle of a timer may ask it to stop, and lets it stop by letting go of the handle.
That is no more than a request: the timer is set until it runs next, ends and clears the flag of the
cycle itself. Requests to the engine leave the flag alone, and a timer that has ended does nothing any
more, so the flag always tells whether there is a timer that has not ended, and there is never more
than one.
-/
namespace ExpiringHash

open Relation

variable {α : Type}

/-- A tick leaves the flag of the timer alone. -/
theorem Cycle.armed_finish (c : Cycle) (elapsed : Option UInt64) :
    (c.finish elapsed).armed = c.armed := by
  cases elapsed <;> rfl

namespace Engine

variable {e e' : Engine}

/-- Neither the flag of the timer nor the settings have changed. -/
structure SparesTimer (e e' : Engine) : Prop where
  armed : e'.cycle.armed = e.cycle.armed
  config : e'.config = e.config

instance : IsPreorder Engine SparesTimer where
  refl _ := ⟨rfl, rfl⟩
  trans _ _ _ h h' := ⟨h'.armed.trans h.armed, h'.config.trans h.config⟩

theorem sparesTimer_onDatabase (db : Nat) (action : Scope → DatabaseM α) :
    Leads SparesTimer (onDatabase db action) := by
  intro e
  cases hd : e.databases[db]? with
  | none =>
    rw [run_onDatabase, hd]
    exact refl_of SparesTimer e
  | some d =>
    rw [stateOf_onDatabase hd]
    exact ⟨rfl, rfl⟩

theorem sparesTimer_activeExpire (db budget : Nat) : Leads SparesTimer (activeExpire db budget) :=
  sparesTimer_onDatabase db _

theorem sparesTimer_visit (visits : Nat) : Leads SparesTimer (visit visits) := by
  induction visits with
  | zero => exact Leads.pure _
  | succ visits ih =>
    have hnext (deleted : Nat) : Leads SparesTimer (do return deleted + (← visit visits)) :=
      Leads.bind ih fun _ => Leads.pure _
    refine fun e => ?_
    have hrest : Leads SparesTimer (do
        let deleted ← if (e.databases[(e.cycle.next e.databases.length).1]?).all fun d =>
            d.keys.isEmpty then pure 0
          else activeExpire (e.cycle.next e.databases.length).1 e.config.activeBudget
        return deleted + (← visit visits)) := by
      dsimp only
      split
      · exact Leads.bind (Leads.pure _) hnext
      · exact Leads.bind (sparesTimer_activeExpire _ _) hnext
    have hcursor : SparesTimer e { e with cycle := (e.cycle.next e.databases.length).2 } := ⟨rfl, rfl⟩
    exact trans_of SparesTimer hcursor (hrest _)

theorem sparesTimer_tick (elapsed : UInt64) : Leads SparesTimer (tick elapsed) := by
  intro e
  change SparesTimer e (stateOf (tick elapsed e))
  unfold tick
  split
  · exact refl_of SparesTimer e
  · have hvisit := sparesTimer_visit (min e.config.activeDatabases e.databases.length)
      { e with cycle := e.cycle.start }
    dsimp only
    split <;> next hr =>
      rw [hr] at hvisit
      exact ⟨(Cycle.armed_finish _ _).trans hvisit.armed, hvisit.config⟩

theorem sparesTimer_relocate (r : Relocation) (e : Engine) : SparesTimer e (relocate r e) := by
  unfold relocate
  split <;> exact ⟨rfl, rfl⟩

theorem sparesTimer_checkDatabase (db : Nat) : Leads SparesTimer (checkDatabase db) :=
  Leads.bind Leads.get fun _ => (Leads.ofExcept _).discard

theorem sparesTimer_receive (n : Notice) : Leads SparesTimer (receive n) := by
  refine Leads.bind (sparesTimer_checkDatabase _) fun _ => Leads.modifies fun e => ?_
  dsimp only
  cases (n.receive e.pending).1 with
  | none => exact ⟨rfl, rfl⟩
  | some r =>
    have h := sparesTimer_relocate r { e with pending := (n.receive e.pending).2 }
    exact ⟨h.armed, h.config⟩

theorem sparesTimer_change (db : Nat) (f : Database → Database) : Leads SparesTimer (change db f) :=
  Leads.modifies fun _ => ⟨rfl, rfl⟩

theorem sparesTimer_deleteKey (db : Nat) (key : Bytes) : Leads SparesTimer (deleteKey db key) := by
  refine Leads.bind Leads.get fun _ => Leads.bind (Leads.ofExcept _) fun _ => ?_
  exact Leads.bind (Leads.modifies fun _ => ⟨rfl, rfl⟩) fun _ => Leads.pure _

theorem sparesTimer_replace (db : Nat) (key : Bytes) (f : Database → Database) :
    Leads SparesTimer (do discard (deleteKey db key); change db f : EngineM Unit) :=
  Leads.bind (sparesTimer_deleteKey db key).discard fun _ => sparesTimer_change db f

/-- Whether something is announced first or not. -/
theorem sparesTimer_announced {x : EngineM α} (hx : Leads SparesTimer x) (isContainer : Bool)
    (n : Notice) : Leads SparesTimer (if isContainer then receive n >>= fun _ => x else x) := by
  split
  · exact Leads.bind (sparesTimer_receive n) fun _ => hx
  · exact hx

theorem sparesTimer_key (k : KeyRequest α) : Leads SparesTimer k.perform := by
  cases k with
  | insertForeign db key type payload => exact sparesTimer_replace db key _
  | delete db key => exact sparesTimer_deleteKey db key
  | rename db source target =>
    refine Leads.bind Leads.get fun _ => Leads.bind (Leads.ofExcept _) fun d => ?_
    cases d.keys.get? source with
    | none => exact Leads.throw _
    | some value =>
      dsimp only
      split
      · refine sparesTimer_announced ?_ value.container?.isSome (.renameFrom db source)
        refine Leads.bind (sparesTimer_deleteKey db target).discard fun _ =>
          Leads.bind (sparesTimer_change db _) fun _ => ?_
        split
        · exact sparesTimer_receive _
        · exact Leads.pure _
      · exact Leads.pure _
  | move fromDb key toDb =>
    refine Leads.bind Leads.get fun _ => Leads.bind (Leads.ofExcept _) fun sourceDb => ?_
    refine Leads.bind Leads.get fun _ => Leads.bind (Leads.ofExcept _) fun targetDb => ?_
    dsimp only
    split
    · exact Leads.throw _
    · cases sourceDb.keys.get? key with
      | none => exact Leads.pure _
      | some value =>
        dsimp only
        split
        · exact Leads.pure _
        · refine sparesTimer_announced ?_ value.container?.isSome (.moveFrom fromDb key)
          refine Leads.bind (sparesTimer_change fromDb _) fun _ =>
            Leads.bind (sparesTimer_change toDb _) fun _ => ?_
          exact sparesTimer_announced (Leads.pure _) _ _
  | copy fromDb source toDb target replace =>
    refine Leads.bind Leads.get fun _ => Leads.bind (Leads.ofExcept _) fun sourceDb => ?_
    refine Leads.bind Leads.get fun _ => Leads.bind (Leads.ofExcept _) fun targetDb => ?_
    dsimp only
    split
    · exact Leads.throw _
    · cases sourceDb.keys.get? source with
      | none => exact Leads.pure _
      | some value =>
        dsimp only
        split
        · exact Leads.pure _
        · exact Leads.bind (sparesTimer_deleteKey toDb target).discard fun _ =>
            Leads.bind (sparesTimer_change toDb _) fun _ => Leads.pure _
  | flush db => exact Leads.bind (sparesTimer_checkDatabase db) fun _ => sparesTimer_change db _
  | flushAll => exact Leads.modifies fun _ => ⟨rfl, rfl⟩
  | swap a b =>
    exact Leads.bind Leads.get fun _ => Leads.bind (Leads.ofExcept _) fun _ =>
      Leads.bind Leads.get fun _ => Leads.bind (Leads.ofExcept _) fun _ =>
        Leads.modifies fun _ => ⟨rfl, rfl⟩
  | load db dump =>
    refine Leads.bind (sparesTimer_checkDatabase db) fun _ => ?_
    cases Container.ofDump dump with
    | error fault => exact Leads.throw _
    | ok c =>
      exact Leads.bind (sparesTimer_deleteKey db c.key).discard fun _ =>
        Leads.bind (sparesTimer_change db _) fun _ => Leads.pure _

/-- No request sets a timer or ends one. -/
theorem sparesTimer_perform (r : Request α) : Leads SparesTimer r.perform := by
  cases r with
  | write db w => exact Leads.bind (Leads.ofExcept _) fun _ => sparesTimer_onDatabase db _
  | delete db d => exact Leads.bind (Leads.ofExcept _) fun _ => sparesTimer_onDatabase db _
  | read db r => exact sparesTimer_onDatabase db fun s => r.action s
  | query db q => exact Leads.bind Leads.get fun _ => Leads.ofExcept _
  | expire db budget => exact sparesTimer_activeExpire db budget
  | tick elapsed => exact sparesTimer_tick elapsed
  | key k => exact sparesTimer_key k
  | notice n => exact sparesTimer_receive n
  | apply db c => exact sparesTimer_onDatabase db fun _ => Scope.apply c
  | setClock now => exact Leads.modifies fun _ => ⟨rfl, rfl⟩
  | setRole role => exact Leads.modifies fun _ => ⟨rfl, rfl⟩

theorem sparesTimer_after (e : Engine) (r : Request α) : SparesTimer e (e.after r) := by
  rw [after_eq]
  exact sparesTimer_perform r e

end Engine

namespace TimerHost

variable {h h' : TimerHost} {t u : Handle} {alive : Option Handle}

/-- The timer that has not ended, if there is one, is the only one, and the flag tells of it. -/
structure Sole (h : TimerHost) (alive : Option Handle) : Prop where
  isRunning_iff : ∀ t, h.isRunning t = true ↔ alive = some t
  armed : h.engine.cycle.armed = alive.isSome

/-- The timer has been asked to stop. -/
def Stopped (h : TimerHost) (t : Handle) : Prop :=
  ∃ timer, h.timers[t]? = some timer ∧ timer.stopRequested = true

/-- No timer was set, none has ended, and what was asked of them stands. -/
structure Spares (h h' : TimerHost) : Prop where
  engine : h.engine.SparesTimer h'.engine
  length : h'.timers.length = h.timers.length
  isRunning : ∀ t, h'.isRunning t = h.isRunning t
  stopped : ∀ t, h.Stopped t → h'.Stopped t

theorem Spares.of_engine {e : Engine} (he : h.engine.SparesTimer e) (time : Nat) :
    h.Spares { h with engine := e, time } where
  engine := he
  length := rfl
  isRunning _ := rfl
  stopped _ ht := ht

theorem Spares.refl (h : TimerHost) : h.Spares h := .of_engine (refl_of Engine.SparesTimer _) h.time

theorem Spares.modifyTimer {f : Timer → Timer} (hs : h.Spares h')
    (hrunning : ∀ timer, (f timer).running = timer.running)
    (hstop : ∀ timer, timer.stopRequested = true → (f timer).stopRequested = true) (t : Handle) :
    h.Spares (h'.modifyTimer t f) where
  engine := hs.engine
  length := (List.length_modify ..).trans hs.length
  isRunning u := by
    rw [← hs.isRunning, TimerHost.isRunning, TimerHost.modifyTimer, List.getElem?_modify,
      TimerHost.isRunning]
    cases h'.timers[u]? with
    | none => rfl
    | some timer => by_cases htu : t = u <;> simp [htu, hrunning]
  stopped u hu := by
    obtain ⟨timer, htimer, hasked⟩ := hs.stopped u hu
    refine ⟨if t = u then f timer else timer, ?_, ?_⟩
    · rw [TimerHost.modifyTimer, List.getElem?_modify, htimer]
      rfl
    · split
      · exact hstop timer hasked
      · exact hasked

/-- To ask a timer to stop does not end it. -/
theorem spares_stop (h : TimerHost) (t : Handle) : h.Spares (h.stop t) :=
  (Spares.refl h).modifyTimer (f := fun timer => { timer with stopRequested := true })
    (fun _ => rfl) (fun _ _ => rfl) t

theorem Spares.postpone (hs : h.Spares h') (t : Handle) (due : Timer → Nat) :
    h.Spares (h'.modifyTimer t fun timer => { timer with due := due timer }) :=
  hs.modifyTimer (f := fun timer => { timer with due := due timer }) (fun _ => rfl)
    (fun _ hasked => hasked) t

theorem stopped_stop (ht : t < h.timers.length) : (h.stop t).Stopped t := by
  refine ⟨{ h.timers[t] with stopRequested := true }, ?_, rfl⟩
  rw [stop, modifyTimer, List.getElem?_modify, List.getElem?_eq_getElem ht]
  simp

theorem isRunning_finish (h : TimerHost) (t u : Handle) :
    (h.finish t).isRunning u = (h.isRunning u && decide (t ≠ u)) := by
  change ((h.timers.modify t _)[u]?).any (·.running) = _
  rw [List.getElem?_modify, isRunning]
  cases h.timers[u]? with
  | none => rfl
  | some timer => by_cases htu : t = u <;> simp [htu]

theorem stopped_finish (hu : h.Stopped u) : (h.finish t).Stopped u := by
  obtain ⟨timer, htimer, hasked⟩ := hu
  refine ⟨if t = u then { timer with running := false } else timer, ?_, ?_⟩
  · change (h.timers.modify t _)[u]? = _
    rw [List.getElem?_modify, htimer]
    rfl
  · split <;> exact hasked

/-- A tick leaves the timers as they are, but for the end of its own. -/
theorem fire_cases (h : TimerHost) (t : Handle) (elapsed : UInt64) :
    ∃ h', h.Spares h' ∧ (h.fire t elapsed = h' ∨ h.fire t elapsed = h'.finish t) := by
  have htick := Engine.sparesTimer_tick elapsed h.engine
  unfold fire
  cases hr : (Engine.tick elapsed).run h.engine with
  | ok n engine =>
    rw [hr] at htick
    exact ⟨_, (Spares.of_engine htick h.time).postpone t _, .inl rfl⟩
  | error err engine =>
    rw [hr] at htick
    dsimp only
    split
    · exact ⟨_, .of_engine htick h.time, .inr rfl⟩
    · exact ⟨_, (Spares.of_engine htick h.time).postpone t _, .inl rfl⟩

/-- A timer that has ended does nothing. -/
theorem run_of_ended (ht : h.isRunning t = false) (elapsed : UInt64) : h.run t elapsed = h := by
  unfold run
  rw [isRunning] at ht
  cases htimer : h.timers[t]? with
  | none => rfl
  | some timer =>
    rw [htimer] at ht
    dsimp only
    rw [show timer.running = false from ht]
    rfl

/-- A timer that was asked to stop ends when it runs next, even if a tick is due. -/
theorem run_of_stopped (ht : h.Stopped t) (elapsed : UInt64) :
    h.run t elapsed = if h.isRunning t then h.finish t else h := by
  obtain ⟨timer, htimer, hasked⟩ := ht
  rw [run, isRunning, htimer]
  cases hrunning : timer.running <;> simp [hrunning, hasked]

/-- A timer that runs leaves the others as they are, and may come to its end. -/
theorem run_cases (h : TimerHost) (t : Handle) (elapsed : UInt64) :
    ∃ h', h.Spares h' ∧
      (h.run t elapsed = h' ∨ h.isRunning t = true ∧ h.run t elapsed = h'.finish t) := by
  cases ht : h.isRunning t with
  | false => exact ⟨h, .refl h, .inl (run_of_ended ht elapsed)⟩
  | true =>
    obtain ⟨timer, htimer, hrunning⟩ := (Option.any_eq_true ..).mp ht
    unfold run
    rw [htimer]
    dsimp only
    rw [hrunning]
    split
    · next hnot => cases hnot
    · split
      · exact ⟨h, .refl h, .inr ⟨rfl, rfl⟩⟩
      · split
        · obtain ⟨h', hs, hfire⟩ := fire_cases h t elapsed
          exact ⟨h', hs, hfire.imp_right fun hended => ⟨rfl, hended⟩⟩
        · exact ⟨h, .refl h, .inl rfl⟩

/-- A timer is set exactly if the flag is clear. -/
theorem startWith_eq (h : TimerHost) (period : UInt64) :
    h.startWith period = if h.engine.cycle.armed then (none, h) else
      (some h.timers.length, { h with
        engine := { h.engine with cycle := { h.engine.cycle with armed := true } }
        timers := h.timers ++ [{ period, due := h.time + step period }] }) := by
  rw [startWith, Cycle.arm]
  cases h.engine.cycle.armed <;> rfl

namespace Sole

theorem of_spares (hh : h.Sole alive) (hs : h.Spares h') : h'.Sole alive where
  isRunning_iff t := by rw [hs.isRunning, hh.isRunning_iff]
  armed := hs.engine.armed.trans hh.armed

theorem armed_iff (hh : h.Sole alive) :
    h.engine.cycle.armed = true ↔ ∃ t, h.isRunning t = true := by
  rw [hh.armed, Option.isSome_iff_exists]
  exact exists_congr fun t => (hh.isRunning_iff t).symm

theorem unique (hh : h.Sole alive) (t u : Handle) (ht : h.isRunning t = true)
    (hu : h.isRunning u = true) : t = u :=
  Option.some.inj (((hh.isRunning_iff t).mp ht).symm.trans ((hh.isRunning_iff u).mp hu))

theorem finish (hh : h.Sole alive) (ht : h.isRunning t = true) : (h.finish t).Sole none where
  isRunning_iff u := by
    rw [isRunning_finish]
    refine iff_of_false (fun hu => ?_) nofun
    obtain ⟨hu, htu⟩ := Bool.and_eq_true_iff.mp hu
    exact of_decide_eq_true htu (hh.unique t u ht hu)
  armed := rfl

/-- Where no timer is left, one is set. -/
theorem start (hh : h.Sole none) (period : UInt64) :
    (h.startWith period).1 = some h.timers.length ∧
      (h.startWith period).2.Sole (some h.timers.length) := by
  rw [startWith_eq, hh.armed]
  refine ⟨rfl, fun t => ?_, rfl⟩
  change ((h.timers ++ [_])[t]?).any (·.running) = true ↔ _
  rcases Nat.lt_trichotomy t h.timers.length with hlt | rfl | hgt
  · rw [List.getElem?_append_left hlt]
    exact iff_of_false (fun ht => nomatch (hh.isRunning_iff t).mp ht)
      fun ht => Nat.ne_of_gt hlt (Option.some.inj ht)
  · rw [List.getElem?_concat_length]
    exact iff_of_true rfl rfl
  · rw [List.getElem?_eq_none (by rw [List.length_append]; exact hgt)]
    exact iff_of_false nofun fun ht => Nat.ne_of_lt hgt (Option.some.inj ht)

/-- While there is a timer, none is set. -/
theorem startWith_eq_none (hh : h.Sole alive) (ha : alive.isSome) (period : UInt64) :
    h.startWith period = (none, h) := by
  rw [startWith_eq, hh.armed, ha]
  rfl

theorem isSome_startWith_iff (hh : h.Sole alive) (period : UInt64) :
    (h.startWith period).1.isSome = true ↔ ∀ t, h.isRunning t = false := by
  cases alive with
  | none =>
    rw [(hh.start period).1]
    refine iff_of_true rfl fun t => Bool.eq_false_iff.mpr fun ht => ?_
    cases (hh.isRunning_iff t).mp ht
  | some t =>
    rw [hh.startWith_eq_none rfl]
    refine iff_of_false nofun fun hnone => ?_
    exact Bool.false_ne_true ((hnone t).symm.trans ((hh.isRunning_iff t).mpr rfl))

end Sole

/-- A timer that is set leaves what the others were asked as it is. -/
theorem stopped_startWith (hu : h.Stopped u) (period : UInt64) :
    (h.startWith period).2.Stopped u := by
  rw [startWith_eq]
  split
  · exact hu
  · obtain ⟨timer, htimer, hasked⟩ := hu
    refine ⟨timer, ?_, hasked⟩
    rw [List.getElem?_append_left (List.getElem?_eq_some_iff.mp htimer).1]
    exact htimer

end TimerHost

/-- A timer host with the handles that are still held. -/
structure TimerDesk where
  host : TimerHost
  held : List TimerHost.Handle := []

namespace TimerDesk

open TimerHost

variable {config : Config} {now : UInt64} {s s' : TimerDesk} {t : Handle}

/-- A new engine, for which no timer has been set. -/
def opened (config : Config) (now : UInt64) : TimerDesk := { host := { engine := .new config now } }

/-- Keeps the handle of a timer that was set, if one was. -/
def keep (s : TimerDesk) (started : Option Handle × TimerHost) : TimerDesk :=
  { host := started.2, held := started.1.toList ++ s.held }

def stop (s : TimerDesk) (t : Handle) : TimerDesk := { s with host := s.host.stop t }

/-- Lets go of a handle, which stops its timer. -/
def drop (s : TimerDesk) (t : Handle) : TimerDesk :=
  { host := s.host.stop t, held := s.held.filter (· ≠ t) }

def ask (s : TimerDesk) (r : Request α) : TimerDesk :=
  { s with host := { s.host with engine := s.host.engine.after r } }

def pass (s : TimerDesk) (time : Nat) : TimerDesk := { s with host := { s.host with time } }

def run (s : TimerDesk) (t : Handle) (elapsed : UInt64) : TimerDesk :=
  { s with host := s.host.run t elapsed }

/-- Whatever can happen to an engine and its timers, one at a time. -/
inductive Step (s : TimerDesk) : TimerDesk → Prop
  | start : Step s (s.keep s.host.start)
  | startWith (period : UInt64) : Step s (s.keep (s.host.startWith period))
  | stop {t : Handle} (ht : t ∈ s.held) : Step s (s.stop t)
  | drop {t : Handle} (ht : t ∈ s.held) : Step s (s.drop t)
  /-- A timer runs; if it ticks, the tick takes some milliseconds. -/
  | run (t : Handle) (elapsed : UInt64) : Step s (s.run t elapsed)
  /-- A timer to which the engine is barred ends. -/
  | giveUp {t : Handle} (ht : s.host.isRunning t = true) : Step s { s with host := s.host.finish t }
  | pass (time : Nat) : Step s (s.pass time)
  | ask {α : Type} (r : Request α) : Step s (s.ask r)

/-- There is at most one timer that has not ended, and handles are of timers that were set. -/
structure Sound (config : Config) (s : TimerDesk) : Prop where
  sole : ∃ alive, s.host.Sole alive
  held : ∀ t ∈ s.held, t < s.host.timers.length
  config : s.host.engine.config = config

theorem sound_opened (config : Config) (now : UInt64) : (opened config now).Sound config where
  sole := ⟨none, fun _ => iff_of_false nofun nofun, rfl⟩
  held := nofun
  config := rfl

namespace Sound

theorem of_spares (hs : s.Sound config) {h : TimerHost} (hh : s.host.Spares h) :
    Sound config { s with host := h } where
  sole := hs.sole.imp fun _ hsole => hsole.of_spares hh
  held t ht := by
    rw [hh.length]
    exact hs.held t ht
  config := hh.engine.config.trans hs.config

theorem finish (hs : s.Sound config) (ht : s.host.isRunning t = true) :
    Sound config { s with host := s.host.finish t } where
  sole := by
    obtain ⟨alive, hsole⟩ := hs.sole
    exact ⟨none, hsole.finish ht⟩
  held u hu := by
    change u < (s.host.timers.modify t _).length
    rw [List.length_modify]
    exact hs.held u hu
  config := hs.config

theorem startWith (hs : s.Sound config) (period : UInt64) :
    (s.keep (s.host.startWith period)).Sound config := by
  obtain ⟨_ | t, hsole⟩ := hs.sole
  · refine ⟨⟨_, (hsole.start period).2⟩, ?_, ?_⟩ <;> rw [startWith_eq, hsole.armed]
    · intro t ht
      change t < (s.host.timers ++ [_]).length
      rw [List.length_append]
      rcases List.mem_cons.mp ht with rfl | ht
      · exact Nat.lt_succ_self _
      · exact Nat.lt_succ_of_lt (hs.held t ht)
    · exact hs.config
  · rw [hsole.startWith_eq_none rfl]
    exact hs

theorem step (hs : s.Sound config) (hstep : s.Step s') : s'.Sound config := by
  cases hstep with
  | start =>
    rw [TimerHost.start]
    split
    · exact hs.startWith _
    · exact hs
  | startWith period => exact hs.startWith period
  | stop ht => exact hs.of_spares (spares_stop _ _)
  | @drop t _ =>
    have hstop := hs.of_spares (spares_stop s.host t)
    exact ⟨hstop.sole, fun u hu => hstop.held u (List.mem_filter.mp hu).1, hstop.config⟩
  | run t elapsed =>
    obtain ⟨h', hh, hrun | ⟨ht, hrun⟩⟩ := run_cases s.host t elapsed
    · rw [TimerDesk.run, hrun]
      exact hs.of_spares hh
    · rw [TimerDesk.run, hrun]
      exact (hs.of_spares hh).finish ((hh.isRunning t).trans ht)
  | giveUp ht => exact hs.finish ht
  | pass time => exact hs.of_spares (.of_engine (refl_of Engine.SparesTimer _) time)
  | ask r => exact hs.of_spares (.of_engine (Engine.sparesTimer_after _ r) _)

theorem of_steps (hs : s.Sound config) (hsteps : ReflTransGen Step s s') : s'.Sound config := by
  induction hsteps with
  | refl => exact hs
  | tail _ hstep ih => exact ih.step hstep

end Sound

/-- What a timer was asked stands. -/
theorem Step.stopped (hstep : s.Step s') (ht : s.host.Stopped t) : s'.host.Stopped t := by
  cases hstep with
  | start =>
    rw [TimerHost.start]
    split
    · exact stopped_startWith ht _
    · exact ht
  | startWith period => exact stopped_startWith ht period
  | stop => exact (spares_stop s.host _).stopped t ht
  | drop => exact (spares_stop s.host _).stopped t ht
  | run u elapsed =>
    obtain ⟨h', hh, hrun | ⟨-, hrun⟩⟩ := run_cases s.host u elapsed
    · rw [TimerDesk.run, hrun]
      exact hh.stopped t ht
    · rw [TimerDesk.run, hrun]
      exact stopped_finish (hh.stopped t ht)
  | giveUp => exact stopped_finish ht
  | pass => exact ht
  | ask => exact ht

theorem stopped_of_steps (hsteps : ReflTransGen Step s s') (ht : s.host.Stopped t) :
    s'.host.Stopped t := by
  induction hsteps with
  | refl => exact ht
  | tail _ hstep ih => exact hstep.stopped ih

/-- However timers are set, stopped, let go and run, and whatever else is asked of the engine: its flag
says whether a timer has not ended, and there is never a second one. A timer is set exactly if there is
none, and one that was asked to stop ends without another tick. No timer that ends clears the flag
under another. -/
theorem one_timer_at_a_time (hs : ReflTransGen Step (opened config now) s) :
    (s.host.engine.cycle.armed = true ↔ ∃ t, s.host.isRunning t = true) ∧
      (∀ t u, s.host.isRunning t = true → s.host.isRunning u = true → t = u) ∧
      (∀ period, (s.host.startWith period).1.isSome = true ↔ ∀ t, s.host.isRunning t = false) ∧
      (s.host.start.1.isSome = true ↔
        config.active = true ∧ ∀ t, s.host.isRunning t = false) ∧
      (∀ period t, (s.host.startWith period).1 = some t →
        (s.host.startWith period).2.isRunning t = true) ∧
      (∀ t ∈ s.held, ∀ s', ReflTransGen Step (s.stop t) s' ∨ ReflTransGen Step (s.drop t) s' →
        ∀ elapsed, s'.host.run t elapsed =
          if s'.host.isRunning t then s'.host.finish t else s'.host) ∧
      ∀ t u elapsed, t ≠ u → s.host.isRunning u = true →
        (s.host.run t elapsed).isRunning u = true ∧
          (s.host.run t elapsed).engine.cycle.armed = true := by
  obtain ⟨⟨alive, hsole⟩, hheld, hconfig⟩ := (sound_opened config now).of_steps hs
  refine ⟨hsole.armed_iff, hsole.unique, hsole.isSome_startWith_iff, ?_, fun period t ht => ?_,
    fun t ht s' hsteps elapsed => ?_, fun t u elapsed htu hu => ?_⟩
  · rw [TimerHost.start, hconfig]
    split
    · next hactive => rw [hsole.isSome_startWith_iff, and_iff_right hactive]
    · next hactive => exact iff_of_false nofun fun h => hactive h.1
  · cases alive with
    | none =>
      obtain ⟨hset, hsole'⟩ := hsole.start period
      exact (hsole'.isRunning_iff t).mpr (hset.symm.trans ht)
    | some u =>
      rw [hsole.startWith_eq_none rfl] at ht
      cases ht
  · have hasked := stopped_stop (hheld t ht)
    exact run_of_stopped (hsteps.elim (stopped_of_steps · hasked) (stopped_of_steps · hasked)) elapsed
  · have ht : s.host.isRunning t = false :=
      Bool.eq_false_iff.mpr fun ht => htu (hsole.unique t u ht hu)
    rw [run_of_ended ht elapsed]
    exact ⟨hu, hsole.armed_iff.mpr ⟨u, hu⟩⟩

/-- The handle of a timer is let go just before its first tick, which would find an expired field. -/
theorem one_timer_at_a_time_restarted :
    let new := opened {} 1000
    let started := new.keep new.host.start
    let s := (started.ask (.write 0 (.set [1] [10] [52] { ttl := .set (.after 5) }))).ask (.setClock 2000)
    let late := (s.drop 0).pass 500
    let ended := late.run 0 3
    let again := ended.keep (ended.host.startWith 7)
    ReflTransGen Step new s ∧ 0 ∈ s.held ∧ ReflTransGen Step (s.drop 0) late ∧
      ReflTransGen Step new again ∧
      (late.host.startWith 7).1 = none ∧ late.host.run 0 3 = late.host.finish 0 ∧
      ended.host.engine.cycle.armed = false ∧
      (ended.host.engine.answer 0 (.size [1])).toOption = some 1 ∧
      (ended.host.startWith 7).1 = some 1 ∧ (again.host.run 0 3).isRunning 1 = true := by
  intro new started s late ended again
  have hs : ReflTransGen Step new s :=
    (((ReflTransGen.refl.tail .start).tail (.ask _)).tail (.ask _))
  have hheld : 0 ∈ s.held := by decide +kernel
  have hlate : ReflTransGen Step (s.drop 0) late := .single (.pass 500)
  have hdropped : ReflTransGen Step new late := (hs.tail (.drop hheld)).trans hlate
  have hended : ReflTransGen Step new ended := hdropped.tail (.run 0 3)
  have hagain : ReflTransGen Step new again := hended.tail (.startWith 7)
  have hrunning : late.host.isRunning 0 = true := by decide +kernel
  have hnew : again.host.isRunning 1 = true := by decide +kernel
  obtain ⟨-, -, -, -, -, hstopped, -⟩ := one_timer_at_a_time hs
  obtain ⟨-, -, -, -, -, -, hothers⟩ := one_timer_at_a_time hagain
  refine ⟨hs, hheld, hlate, hagain, by decide +kernel, ?_, by decide +kernel, by decide +kernel,
    by decide +kernel, (hothers 0 1 3 (by decide) hnew).1⟩
  rw [hstopped 0 hheld late (.inr hlate) 3, if_pos hrunning]

end TimerDesk

end ExpiringHash
