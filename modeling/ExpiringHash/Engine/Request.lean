import ExpiringHash.Database.Apply
import ExpiringHash.Database.Delete
import ExpiringHash.Database.Read
import ExpiringHash.Database.Write
import ExpiringHash.Engine.Keys
import ExpiringHash.Engine.Query
import ExpiringHash.Engine.Tick

/-!
# Requests

All that can be asked of an engine, each request with the type of its answer. Options of a write or
delete that are malformed in themselves are refused before anything else is looked at. What an
engine can come to (`Engine.Reaches`) is what a run of requests makes of it.
-/
namespace ExpiringHash

inductive FieldWrite : Type → Type
  | set (key field value : Bytes) (rule : WriteRule) : FieldWrite SetOutcome
  | setAll (key : Bytes) (entries : List (Bytes × Bytes)) : FieldWrite Unit
  | setAllChecked (key : Bytes) (updates : List FieldUpdate) : FieldWrite Unit
  | incrBy (key field : Bytes) (delta : Int) (bounds : Bounds Int) (version : VersionPolicy)
      (ttl : TtlUpdate) : FieldWrite Int
  | incrByFloat (key field : Bytes) (delta : Float) (bounds : Bounds Float)
      (version : VersionPolicy) (ttl : TtlUpdate) : FieldWrite Bytes
  | setVersion (key field : Bytes) (version : UInt64) : FieldWrite Bool
  | setExpiry (key field : Bytes) (time : ExpireTime) (version : VersionPolicy) : FieldWrite Bool
  | persist (key field : Bytes) : FieldWrite Bool

namespace FieldWrite

/-- Refuses options that are malformed in themselves. -/
def validate {α : Type} : FieldWrite α → Except HashError Unit
  | .set _ _ _ rule => discard rule.version.validate
  | .incrBy _ _ _ bounds version _ => do
    discard version.validate
    bounds.validate
  | .incrByFloat _ _ delta bounds version _ => do
    discard version.validate
    bounds.validate
    if !delta.isFinite then throw .notFloat
  | .setVersion _ _ version => if version = 0 then throw .badOption else return ()
  | .setExpiry _ _ _ version => discard version.validate
  | .setAll .. | .setAllChecked .. | .persist .. => return ()

def action {α : Type} (s : Scope) : FieldWrite α → DatabaseM α
  | .set key field value rule => s.setField key field value rule
  | .setAll key entries => s.setFields key entries
  | .setAllChecked key updates => s.setFieldsChecked key updates
  | .incrBy key field delta bounds version ttl => s.incrBy key field delta bounds version ttl
  | .incrByFloat key field delta bounds version ttl =>
    s.incrByFloat key field delta bounds version ttl
  | .setVersion key field version => s.setVersion key field version
  | .setExpiry key field time version => s.setExpiry key field time version
  | .persist key field => s.persist key field

end FieldWrite

inductive FieldDelete : Type → Type
  | one (key field : Bytes) (version : VersionPolicy) : FieldDelete Bool
  | all (key : Bytes) (fields : List Bytes) : FieldDelete Nat
  /-- Fields with the versions they must have, 0 for any. -/
  | allChecked (key : Bytes) (entries : List (Bytes × UInt64)) : FieldDelete Nat

namespace FieldDelete

/-- Refuses options that are malformed in themselves. -/
def validate {α : Type} : FieldDelete α → Except HashError Unit
  | .one _ _ version => discard version.validate
  | .all .. | .allChecked .. => return ()

def action {α : Type} (s : Scope) : FieldDelete α → DatabaseM α
  | .one key field version => s.deleteField key field version
  | .all key fields => s.deleteFields key fields
  | .allChecked key entries =>
    s.deleteFieldsChecked key (entries.map fun e => (e.1, .matching e.2))

end FieldDelete

/-- Reads of the fields of a database that clear away expired fields they meet. -/
inductive FieldRead : Type → Type
  | get (key field : Bytes) : FieldRead FieldView
  | getAll (key : Bytes) (fields : List Bytes) : FieldRead (List (Option FieldView))
  | version (key field : Bytes) : FieldRead UInt64
  | exist (key field : Bytes) : FieldRead Bool
  | valueLength (key field : Bytes) : FieldRead Nat
  | timeLeft (key field : Bytes) (unit : TimeUnit) : FieldRead TtlStatus
  | scan (key : Bytes) (cursor : UInt64) (pattern : Option Glob) (count : Nat) :
      FieldRead (UInt64 × List (Bytes × Bytes))

def FieldRead.action {α : Type} (s : Scope) : FieldRead α → DatabaseM α
  | .get key field => s.getField key field
  | .getAll key fields => s.getFields key fields
  | .version key field => return (← s.getField key field).version
  | .exist key field => s.fieldExists key field
  | .valueLength key field => s.valueLength key field
  | .timeLeft key field unit => s.timeLeft key field unit
  | .scan key cursor pattern count => s.scan key cursor pattern count

/-- Requests that deal with whole keys and whole databases. -/
inductive KeyRequest : Type → Type
  | insertForeign (db : Nat) (key : Bytes) (type : String) (payload : Bytes) : KeyRequest Unit
  | delete (db : Nat) (key : Bytes) : KeyRequest Bool
  | rename (db : Nat) (source target : Bytes) : KeyRequest Unit
  | move (fromDb : Nat) (key : Bytes) (toDb : Nat) : KeyRequest Bool
  | copy (fromDb : Nat) (source : Bytes) (toDb : Nat) (target : Bytes) (replace : Bool) :
      KeyRequest Bool
  | flush (db : Nat) : KeyRequest Unit
  | flushAll : KeyRequest Unit
  | swap (a b : Nat) : KeyRequest Unit
  | load (db : Nat) (dump : Bytes) : KeyRequest Bytes

def KeyRequest.perform {α : Type} : KeyRequest α → EngineM α
  | .insertForeign db key type payload => Engine.insertForeign db key type payload
  | .delete db key => Engine.deleteKey db key
  | .rename db source target => Engine.renameKey db source target
  | .move fromDb key toDb => Engine.moveKey fromDb key toDb
  | .copy fromDb source toDb target replace => Engine.copyKey fromDb source toDb target replace
  | .flush db => Engine.flush db
  | .flushAll => Engine.flushAll
  | .swap a b => Engine.swap a b
  | .load db dump => Engine.load db dump

/-- Anything that can be asked of an engine. -/
inductive Request : Type → Type 1
  | write {α : Type} (db : Nat) (w : FieldWrite α) : Request α
  | delete {α : Type} (db : Nat) (d : FieldDelete α) : Request α
  | read {α : Type} (db : Nat) (r : FieldRead α) : Request α
  | query {α : Type} (db : Nat) (q : Query α) : Request α
  | expire (db budget : Nat) : Request Nat
  /-- A tick of the active cycle that takes some milliseconds. -/
  | tick (elapsed : UInt64) : Request Nat
  | key {α : Type} (k : KeyRequest α) : Request α
  | notice (n : Notice) : Request Unit
  | apply (db : Nat) (c : Command) : Request Unit
  | setClock (now : UInt64) : Request Unit
  | setRole (role : Role) : Request Unit

def Request.perform {α : Type} : Request α → EngineM α
  | .write db w => do
    MonadExcept.ofExcept w.validate
    Engine.onDatabase db fun s => w.action s
  | .delete db d => do
    MonadExcept.ofExcept d.validate
    Engine.onDatabase db fun s => d.action s
  | .read db r => Engine.onDatabase db fun s => r.action s
  | .query db q => do MonadExcept.ofExcept ((← get).answer db q)
  | .expire db budget => Engine.activeExpire db budget
  | .tick elapsed => Engine.tick elapsed
  | .key k => k.perform
  | .notice n => Engine.receive n
  | .apply db c => Engine.onDatabase db fun _ => Scope.apply c
  | .setClock now => modify fun e => { e with now }
  | .setRole role => modify fun e => { e with role }

namespace Engine

/-- The engine after a request, whether it failed or not. -/
def after {α : Type} (e : Engine) (r : Request α) : Engine :=
  match r.perform.run e with
  | .ok _ e => e
  | .error _ e => e

/-- What an engine can come to by requests of a kind, whether they fail or not. -/
inductive Reaches (kind : ∀ α : Type, Request α → Prop) (e : Engine) : Engine → Prop
  | refl : Reaches kind e e
  | step {α : Type} {f : Engine} (r : Request α) :
      Reaches kind e f → kind α r → Reaches kind e (f.after r)

end Engine
end ExpiringHash
