import ExpiringHash.Database.Expiry
import ExpiringHash.Fields.Write

/-!
# Writing in a database

A write first clears some expired fields of its container and the field it names if that has
expired, then writes, and sends the record that it left with absolute version and expiry. A batch
that checks versions checks all of them before it writes anything.
-/
namespace ExpiringHash

/-- What a conditional write did. -/
inductive SetOutcome where
  | created
  | updated
  | conditionNotMet
deriving DecidableEq, Repr

/-- One field of a batch that checks versions. -/
structure FieldUpdate where
  field : Bytes
  value : Bytes
  /-- The version that the field must have, 0 for any. -/
  version : UInt64
  /-- The time to live in milliseconds. -/
  ttl : UInt64
deriving DecidableEq, Repr

namespace Scope

open DatabaseM

/-- Follows a write in the index and sends the record it left. -/
def publish (key field value : Bytes) (w : Written) : DatabaseM Unit := do
  follow key w.shift
  emit (.set key field value w.version w.expireAt)

/-- Writes a value into a container; `none` if the condition is not met. -/
def store (s : Scope) (key field value : Bytes) (rule : WriteRule) :
    DatabaseM (Option Written) := do
  let written ← write key fun f => f.set field value rule s.now
  match written with
  | some w =>
    publish key field value w
    return some w
  | none => return none

/-- What comes before a write to one field. -/
def prepare (s : Scope) (key field : Bytes) : DatabaseM Unit := do
  checkType key
  s.sweep key
  discard (s.expireIfDue key field)

def setField (s : Scope) (key field value : Bytes) (rule : WriteRule) : DatabaseM SetOutcome := do
  s.prepare key field
  match ← s.store key field value rule with
  | none => return .conditionNotMet
  | some w => return if w.created then .created else .updated

/-- Writes fields, which keep their expiries. -/
def setFields (s : Scope) (key : Bytes) (entries : List (Bytes × Bytes)) : DatabaseM Unit := do
  checkType key
  s.sweep key
  entries.forM fun (field, value) => do
    discard (s.expireIfDue key field)
    discard (s.store key field value { ttl := .keep })

/-- Checks the version of a field that a batch names. -/
def checkVersion (s : Scope) (key : Bytes) (u : FieldUpdate) : DatabaseM Unit := do
  let current ← s.liveField key u.field
  MonadExcept.ofExcept ((VersionPolicy.matching u.version).check (current.map (·.version)))

/-- Writes fields with a version check and a time to live each, if all versions are right. -/
def setFieldsChecked (s : Scope) (key : Bytes) (updates : List FieldUpdate) : DatabaseM Unit := do
  checkType key
  s.sweep key
  updates.forM (s.checkVersion key)
  updates.forM fun u => discard (s.store key u.field u.value { ttl := .set (.after u.ttl) })

/-- Adds to an integer field; the answer is the sum. -/
def incrBy (s : Scope) (key field : Bytes) (delta : Int) (bounds : Bounds Int)
    (version : VersionPolicy) (ttl : TtlUpdate) : DatabaseM Int := do
  s.prepare key field
  let (sum, w) ← write key fun f => f.incrBy field delta bounds version ttl s.now
  publish key field (Numeral.ofInt sum) w
  return sum

/-- Adds to a floating-point field; the answer is the text stored. -/
def incrByFloat (s : Scope) (key field : Bytes) (delta : Float) (bounds : Bounds Float)
    (version : VersionPolicy) (ttl : TtlUpdate) : DatabaseM Bytes := do
  s.prepare key field
  let (value, w) ← write key fun f => f.incrByFloat field delta bounds version ttl s.now
  publish key field value w
  return value

/-- Sets the version of a live field; the answer is whether there was one. -/
def setVersion (s : Scope) (key field : Bytes) (version : UInt64) : DatabaseM Bool := do
  checkType key
  s.sweep key
  if ← s.expireIfDue key field then return false
  else if ← revise key false fun f => f.setVersion field version s.now then
    emit (.setVersion key field version)
    return true
  else return false

/-- Gives a live field an expiry; the answer is whether there was one. -/
def setExpiry (s : Scope) (key field : Bytes) (time : ExpireTime) (version : VersionPolicy) :
    DatabaseM Bool := do
  if ← s.expireIfDue key field then return false
  else
    match ← revise key none fun f => f.setExpiry field time version s.now with
    | none => return false
    | some w =>
      follow key w.shift
      emit (.expireAt key field w.expireAt w.version)
      return true

/-- Takes the expiry off a live field; the answer is whether there was one. -/
def persist (s : Scope) (key field : Bytes) : DatabaseM Bool := do
  if ← s.expireIfDue key field then return false
  else
    match ← revise key none fun f => .ok (f.persist field s.now) with
    | none => return false
    | some shift =>
      follow key shift
      emit (.persist key field)
      return true

end Scope
end ExpiringHash
