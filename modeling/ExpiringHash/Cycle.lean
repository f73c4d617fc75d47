import ExpiringHash.Ttl

/-!
# The active cycle

Where the active cycle stands: the database that its next tick starts from, whether a tick is under
way, whether a timer is set, and how long its ticks took. The average is that of the last complete
window of ticks, counted from the first tick.
-/
namespace ExpiringHash

/-- How long ticks took, in milliseconds. -/
structure CycleStats where
  last : UInt64 := 0
  max : UInt64 := 0
  /-- The average over the last complete window. -/
  average : UInt64 := 0
  /-- Number of ticks that were completed. -/
  ticks : UInt64 := 0
deriving DecidableEq, Repr, Inhabited

inductive CycleState where
  | idle
  | running
deriving DecidableEq, Repr, Inhabited

/-- The active cycle. -/
structure Cycle where
  /-- The database that the next tick starts from. -/
  cursor : Nat := 0
  state : CycleState := .idle
  /-- Whether a timer is set. -/
  armed : Bool := false
  stats : CycleStats := {}
  /-- Number of ticks in the window under way. -/
  windowTicks : UInt64 := 0
  /-- The time that these ticks took. -/
  windowTotal : UInt64 := 0
deriving DecidableEq, Repr, Inhabited

namespace Cycle

def window : UInt64 := 10

def start (c : Cycle) : Cycle := { c with state := .running }

/-- Counts the time that a tick took. -/
def record (c : Cycle) (elapsed : UInt64) : Cycle :=
  let ticks := c.windowTicks + 1
  let total := c.windowTotal + elapsed
  let full := ticks == window
  { c with
    stats :=
      { last := elapsed
        max := Max.max c.stats.max elapsed
        average := if full then total / ticks else c.stats.average
        ticks := c.stats.ticks + 1 }
    windowTicks := if full then 0 else ticks
    windowTotal := if full then 0 else total }

/-- Ends a tick; the time it took is given if it was completed. -/
def finish (c : Cycle) (elapsed : Option UInt64) : Cycle :=
  let c := { c with state := .idle }
  match elapsed with
  | none => c
  | some ms => c.record ms

/-- Sets the timer; the flag says whether none was set. -/
def arm (c : Cycle) : Bool × Cycle := (!c.armed, { c with armed := true })

def disarm (c : Cycle) : Cycle := { c with armed := false }

/-- The database to visit next, and the cycle gone past it. -/
def next (c : Cycle) (databases : Nat) : Nat × Cycle :=
  let n := Max.max databases 1
  let db := c.cursor % n
  (db, { c with cursor := (db + 1) % n })

/-- The database to visit is one that there is. -/
theorem next_lt (c : Cycle) {databases : Nat} (h : 0 < databases) :
    (c.next databases).1 < databases := by
  have hmax : Max.max databases 1 = databases := Nat.max_eq_left h
  simp only [next, hmax]
  exact Nat.mod_lt _ h

theorem ticks_finish_none (c : Cycle) : (c.finish none).stats = c.stats := rfl

end Cycle
end ExpiringHash
