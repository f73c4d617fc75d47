import ExpiringHash.Database.Expiry
import ExpiringHash.Engine.Basic

/-!
# Active expiry

Expired fields that nobody touches are deleted on request, database by database, or by ticks of the
active cycle. A tick visits the next few databases in turn and passes over those without keys. A
replica takes no part in this.
-/
namespace ExpiringHash.Engine

/-- Deletes expired fields of one database, earliest first; the answer is their number. -/
def activeExpire (db budget : Nat) : EngineM Nat :=
  onDatabase db fun s => if s.isPrimary then s.drain budget else return 0

/-- Visits databases in turn from the cursor on; the answer is the number of fields deleted. -/
def visit : Nat → EngineM Nat
  | 0 => return 0
  | visits + 1 => do
    let e ← get
    let (db, cycle) := e.cycle.next e.databases.length
    set { e with cycle }
    let idle := (e.databases[db]?).all fun d => d.keys.isEmpty
    let deleted ← if idle then pure 0 else activeExpire db e.config.activeBudget
    return deleted + (← visit visits)

/-- One tick of the active cycle; the answer is the number of fields deleted. The time that the tick
took is counted if it was completed. -/
def tick (elapsed : UInt64) : EngineM Nat := fun e =>
  if e.role = .replica then .ok 0 e
  else
    let visits := min e.config.activeDatabases e.databases.length
    match (visit visits).run { e with cycle := e.cycle.start } with
    | .ok n e => .ok n { e with cycle := e.cycle.finish (some elapsed) }
    | .error err e => .error err { e with cycle := e.cycle.finish none }

def report (e : Engine) : String :=
  Report.text e.config e.cycle.stats (e.databases.map (·.tally))

end ExpiringHash.Engine
