import ExpiringHash.Cycle
import ExpiringHash.Database.Action
import ExpiringHash.Relocation

/-!
# The engine

An engine holds numbered databases, its settings and its role, the time on its clock, the state of
the active cycle, and the notice of a relocation that waits for its second half. Commands go to the
outbox with the number of the database that they belong to, in the order of their effects. A request
that fails keeps what it did before it failed.
-/
namespace ExpiringHash

/-- A hash store whose fields expire. -/
structure Engine where
  config : Config
  now : UInt64
  role : Role := .primary
  databases : List Database
  cycle : Cycle := {}
  pending : PendingRelocation := .idle
  /-- The commands sent and not yet taken, last one first. -/
  outbox : List (Nat × Command) := []
deriving DecidableEq

abbrev EngineM := EStateM HashError Engine

namespace Engine

/-- An engine with empty databases. -/
def new (config : Config) (now : UInt64) : Engine :=
  { config, now, databases := List.replicate config.databases (.new config.layout) }

def database (e : Engine) (db : Nat) : Except HashError Database :=
  match e.databases[db]? with
  | some d => .ok d
  | none => .error (.invalidDatabase db)

/-- Refuses the number of no database. -/
def checkDatabase (db : Nat) : EngineM Unit := do
  discard (MonadExcept.ofExcept ((← get).database db))

/-- Puts a database in the place of another. -/
def setDatabase (e : Engine) (db : Nat) (d : Database) : Engine :=
  { e with databases := e.databases.set db d }

def change (db : Nat) (f : Database → Database) : EngineM Unit :=
  modify fun e => { e with databases := e.databases.modify db f }

/-- Where, when and in which role an action on a database takes place. -/
def scope (e : Engine) (db : Nat) : Scope :=
  { db, now := e.now, role := e.role, sweepBudget := e.config.passiveBudget }

/-- Takes over what an action has done to a database. -/
def absorb (e : Engine) (db : Nat) (w : Work) : Engine :=
  { e.setDatabase db w.database with outbox := w.emitted.map (db, ·) ++ e.outbox }

def onDatabase {α : Type} (db : Nat) (action : Scope → DatabaseM α) : EngineM α := fun e =>
  match e.database db with
  | .error err => .error err e
  | .ok d =>
    match (action (e.scope db)).run { database := d } with
    | .ok a w => .ok a (e.absorb db w)
    | .error err w => .error err (e.absorb db w)

/-- The commands sent and not yet taken, in the order they were sent. -/
def sent (e : Engine) : List (Nat × Command) := e.outbox.reverse

/-- Takes the commands sent so far. -/
def takeOutbox (e : Engine) : List (Nat × Command) × Engine := (e.sent, { e with outbox := [] })

/-- The commands of an action follow those sent before it. -/
theorem sent_absorb (e : Engine) (db : Nat) (w : Work) :
    (e.absorb db w).sent = e.sent ++ w.emitted.reverse.map (db, ·) := by
  simp [sent, absorb, setDatabase]

/-- An action on one database leaves the number of databases as it is. -/
theorem length_databases_absorb (e : Engine) (db : Nat) (w : Work) :
    (e.absorb db w).databases.length = e.databases.length := by
  simp [absorb, setDatabase]

end Engine
end ExpiringHash
