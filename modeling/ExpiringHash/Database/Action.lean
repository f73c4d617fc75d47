import ExpiringHash.Database.Basic

/-!
# Actions on a database

An action works on one database at one time and in one role, and sends a command for each of its
effects, so that a replica can follow. An action that fails keeps what it did before: expired fields
that it deleted stay deleted, and the commands that tell of them are sent.
-/
namespace ExpiringHash

/-- Whether an engine deletes expired fields by itself. -/
inductive Role where
  | primary
  /-- Expired fields are hidden, but only the primary deletes them. -/
  | replica
deriving DecidableEq, Repr, Inhabited

/-- Where, when and in which role an action takes place. -/
structure Scope where
  db : Nat
  now : UInt64
  role : Role
  /-- How many expired fields a write clears first at most. -/
  sweepBudget : Nat
deriving DecidableEq, Repr

/-- What an action has done so far. -/
structure Work where
  database : Database
  /-- The commands sent, last one first. -/
  emitted : List Command := []
deriving DecidableEq

abbrev DatabaseM := EStateM HashError Work

namespace DatabaseM

def emit (c : Command) : DatabaseM Unit := modify fun w => { w with emitted := c :: w.emitted }

def change (f : Database → Database) : DatabaseM Unit :=
  modify fun w => { w with database := f w.database }

def database : DatabaseM Database := return (← get).database

/-- The container under a key; a value of another type is refused. -/
def container? (key : Bytes) : DatabaseM (Option Container) := do
  MonadExcept.ofExcept ((← database).keys.container? key)

def checkType (key : Bytes) : DatabaseM Unit := discard (container? key)

/-- Follows a change of one field in the index. -/
def follow (key : Bytes) (shift : ExpiryShift) : DatabaseM Unit :=
  change fun d => { d with index := d.index.apply key shift }

/-- Changes the fields of a container. Without one, the change starts from no fields, and a new
container takes what it leaves, if it leaves any. -/
def write {α : Type} (key : Bytes) (op : Fields → Except HashError (α × Fields)) : DatabaseM α := do
  match ← container? key with
  | some c =>
    let (a, fields) ← MonadExcept.ofExcept (op c.fields)
    change (·.putContainer key { c with fields })
    return a
  | none =>
    let (a, fields) ← MonadExcept.ofExcept (op ∅)
    if !fields.isEmpty then change (·.putContainer key ⟨key, fields⟩)
    return a

/-- Changes the fields of a container, unless there is none. -/
def revise {α : Type} (key : Bytes) (absent : α)
    (op : Fields → Except HashError (α × Fields)) : DatabaseM α := do
  match ← container? key with
  | some c =>
    let (a, fields) ← MonadExcept.ofExcept (op c.fields)
    change (·.putContainer key { c with fields })
    return a
  | none => return absent

end DatabaseM
end ExpiringHash
