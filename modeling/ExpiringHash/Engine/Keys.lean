import ExpiringHash.Dump
import ExpiringHash.Engine.Basic

/-!
# Keys of an engine

Requests that deal with keys and their values as a whole. Whatever a value was filed under in an
index goes with it: to the trash, to another key, to another database. None of these requests sends
a command.
-/
namespace ExpiringHash.Engine

/-- Files the index entries of a container anew that has come to another place. -/
def relocate (r : Relocation) (e : Engine) : Engine :=
  match (e.databases[r.toDb]?.bind fun d => d.keys.get? r.toKey).bind Value.container? with
  | none => e
  | some c =>
    let expiring := c.fields.expiring.toList
    let databases := e.databases.modify r.fromDb fun d =>
      { d with index := d.index.detach r.fromKey expiring }
    let databases := databases.modify r.toDb fun d =>
      { d.putContainer r.toKey { c with key := r.toKey } with
        index := d.index.attach r.toKey expiring }
    { e with databases }

/-- Takes in a notice of the host. -/
def receive (n : Notice) : EngineM Unit := do
  checkDatabase n.db
  modify fun e =>
    let (relocation, pending) := n.receive e.pending
    let e := { e with pending }
    match relocation with
    | none => e
    | some r => e.relocate r

/-- Deletes a key; the answer is whether it was there. -/
def deleteKey (db : Nat) (key : Bytes) : EngineM Bool := do
  let (found, d) := (← MonadExcept.ofExcept ((← get).database db)).deleteKey key
  modify (·.setDatabase db d)
  return found

/-- Files a value of another type, in place of the one there was. -/
def insertForeign (db : Nat) (key : Bytes) (type : String) (payload : Bytes) : EngineM Unit := do
  discard (deleteKey db key)
  change db (·.attach key (.foreign type payload))

/-- Renames a key, in place of the one there was. -/
def renameKey (db : Nat) (source target : Bytes) : EngineM Unit := do
  let d ← MonadExcept.ofExcept ((← get).database db)
  match d.keys.get? source with
  | none => throw .notFound
  | some value =>
    if source ≠ target then
      let isContainer := value.container?.isSome
      if isContainer then receive (.renameFrom db source)
      discard (deleteKey db target)
      change db fun d => { d with keys := (d.keys.erase source).put target value }
      if isContainer then receive (.renameTo db target)

/-- Moves a key to a database that does not have it; the answer is whether it was moved. -/
def moveKey (fromDb : Nat) (key : Bytes) (toDb : Nat) : EngineM Bool := do
  let source ← MonadExcept.ofExcept ((← get).database fromDb)
  let target ← MonadExcept.ofExcept ((← get).database toDb)
  if fromDb = toDb then throw .badOption
  match source.keys.get? key with
  | none => return false
  | some value =>
    if target.keys.hasKey key then return false
    else
      let isContainer := value.container?.isSome
      if isContainer then receive (.moveFrom fromDb key)
      change fromDb fun d => { d with keys := d.keys.erase key }
      change toDb fun d => { d with keys := d.keys.put key value }
      if isContainer then receive (.moveTo toDb key)
      return true

/-- Copies a key, in place of the one there was only if that is asked for; the answer is whether it
was copied. -/
def copyKey (fromDb : Nat) (source : Bytes) (toDb : Nat) (target : Bytes) (replace : Bool) :
    EngineM Bool := do
  let sourceKeys := (← MonadExcept.ofExcept ((← get).database fromDb)).keys
  let targetKeys := (← MonadExcept.ofExcept ((← get).database toDb)).keys
  if fromDb = toDb ∧ source = target then throw .badOption
  match sourceKeys.get? source with
  | none => return false
  | some value =>
    if targetKeys.hasKey target && !replace then return false
    else
      discard (deleteKey toDb target)
      change toDb (·.attach target (value.relabel target))
      return true

def flush (db : Nat) : EngineM Unit := do
  checkDatabase db
  change db Database.clear

def flushAll : EngineM Unit := modify fun e => { e with databases := e.databases.map .clear }

def swap (a b : Nat) : EngineM Unit := do
  let first ← MonadExcept.ofExcept ((← get).database a)
  let second ← MonadExcept.ofExcept ((← get).database b)
  modify fun e => (e.setDatabase a second).setDatabase b first

/-- Loads a dump, in place of the value there was under its key; the answer is the key. -/
def load (db : Nat) (dump : Bytes) : EngineM Bytes := do
  checkDatabase db
  match Container.ofDump dump with
  | .error fault => throw (.corrupt fault)
  | .ok c =>
    discard (deleteKey db c.key)
    change db (·.attach c.key (.container c))
    return c.key

end ExpiringHash.Engine
