import ExpiringHash.Engine.Tick

/-!
# Timers

A timer runs the ticks of the active cycle in the background, one period apart. At most one timer is
set for an engine. To stop a timer is a request: the timer sees it when it runs next, ends without
another tick, and only then can a new one be set. Time passes on a clock of its own and only while
the host sleeps; a tick takes none of it, whatever it is measured to take. No sleep is longer than
thirty years, be it that of the host or that of a timer between its ticks.
-/
namespace ExpiringHash

/-- A timer that was set, whether or not it still runs. -/
structure Timer where
  /-- The milliseconds asked for from one tick to the next. -/
  period : UInt64
  due : Nat
  stopRequested : Bool := false
  running : Bool := true
deriving DecidableEq, Repr, Inhabited

/-- An engine and the timers set for it. -/
structure TimerHost where
  engine : Engine
  time : Nat := 0
  /-- All timers ever set; a timer is named by its place. -/
  timers : List Timer := []
deriving DecidableEq

namespace TimerHost

abbrev Handle := Nat

/-- The longest sleep in milliseconds: thirty years of 365 days. -/
def maxSleep : Nat := 30 * 365 * 24 * 60 * 60 * 1000

/-- The time between ticks, for which the timer sleeps; it never ticks twice at one time. -/
def step (period : UInt64) : Nat := min (max period.toNat 1) maxSleep

/-- Sets a timer, unless one is set. -/
def startWith (h : TimerHost) (period : UInt64) : Option Handle × TimerHost :=
  let (free, cycle) := h.engine.cycle.arm
  if free then
    (some h.timers.length,
      { h with
        engine := { h.engine with cycle }
        timers := h.timers ++ [{ period, due := h.time + step period }] })
  else (none, h)

/-- Sets a timer with the period of the settings, unless they turn active expiry off. -/
def start (h : TimerHost) : Option Handle × TimerHost :=
  if h.engine.config.active then h.startWith h.engine.config.period else (none, h)

def modifyTimer (h : TimerHost) (t : Handle) (f : Timer → Timer) : TimerHost :=
  { h with timers := h.timers.modify t f }

def stop (h : TimerHost) (t : Handle) : TimerHost :=
  h.modifyTimer t fun timer => { timer with stopRequested := true }

/-- Whether a timer has not ended yet. -/
def isRunning (h : TimerHost) (t : Handle) : Bool := (h.timers[t]?).any (·.running)

def finish (h : TimerHost) (t : Handle) : TimerHost :=
  { h.modifyTimer t fun timer => { timer with running := false } with
    engine := { h.engine with cycle := h.engine.cycle.disarm } }

/-- A tick of the active cycle that takes some milliseconds. An engine that cannot be trusted any more
ends the timer. -/
def fire (h : TimerHost) (t : Handle) (elapsed : UInt64) : TimerHost :=
  match (Engine.tick elapsed).run h.engine with
  | .ok _ engine =>
    { h with engine }.modifyTimer t fun timer => { timer with due := h.time + step timer.period }
  | .error err engine =>
    if err.isFatal then { h with engine }.finish t
    else { h with engine }.modifyTimer t fun timer =>
      { timer with due := h.time + step timer.period }

/-- Lets a timer run: it ends if it was asked to, else it ticks if a tick is due. -/
def run (h : TimerHost) (t : Handle) (elapsed : UInt64) : TimerHost :=
  match h.timers[t]? with
  | none => h
  | some timer =>
    if !timer.running then h
    else if timer.stopRequested then h.finish t
    else if timer.due ≤ h.time then h.fire t elapsed
    else h

/-- Lets every timer run once; a tick takes some milliseconds. -/
def runAll (h : TimerHost) (elapsed : UInt64) : TimerHost :=
  (List.range h.timers.length).foldl (fun h t => h.run t elapsed) h

def nextDue? (h : TimerHost) : Option Nat :=
  ((h.timers.filter (·.running)).map (·.due)).min?

@[simp] theorem time_modifyTimer (h : TimerHost) (t : Handle) (f : Timer → Timer) :
    (h.modifyTimer t f).time = h.time := rfl

@[simp] theorem time_finish (h : TimerHost) (t : Handle) : (h.finish t).time = h.time := rfl

theorem time_fire (h : TimerHost) (t : Handle) (elapsed : UInt64) :
    (h.fire t elapsed).time = h.time := by
  unfold fire
  split
  · rfl
  · split <;> rfl

/-- No time passes while a timer runs. -/
theorem time_run (h : TimerHost) (t : Handle) (elapsed : UInt64) :
    (h.run t elapsed).time = h.time := by
  unfold run
  split
  · rfl
  · split
    · rfl
    · split
      · rfl
      · split
        · exact time_fire h t elapsed
        · rfl

theorem time_runAll (h : TimerHost) (elapsed : UInt64) : (h.runAll elapsed).time = h.time := by
  unfold runAll
  generalize List.range h.timers.length = ts
  induction ts generalizing h with
  | nil => rfl
  | cons t ts ih => rw [List.foldl_cons, ih, time_run]

/-- Lets time pass until `deadline`, stopping at every tick that is due by then; a tick at a time takes
some milliseconds. -/
def advance (h : TimerHost) (elapsed : Nat → UInt64) (deadline : Nat) : TimerHost :=
  match h.nextDue? with
  | none => { h with time := deadline }
  | some due =>
    if h.time < due ∧ due ≤ deadline then
      (({ h with time := due } : TimerHost).runAll (elapsed due)).advance elapsed deadline
    else { h with time := deadline }
termination_by deadline - h.time
decreasing_by
  simp only [time_runAll]
  omega

/-- Sleeps for some milliseconds, at most `maxSleep`; ticks due by then are run. -/
def sleep (h : TimerHost) (elapsed : Nat → UInt64) (ms : Nat) : TimerHost :=
  (h.runAll (elapsed h.time)).advance elapsed (h.time + min ms maxSleep)

end TimerHost
end ExpiringHash
