import ExpiringHash.Database.Expiry
import ExpiringHash.Fields.Scan

/-!
# Reading a database

Reads of single fields and scans never show a field that has expired, and a primary deletes the
expired fields they meet.
-/
namespace ExpiringHash.Scope

open DatabaseM

/-- What a reader sees of a field. -/
def getField (s : Scope) (key field : Bytes) : DatabaseM FieldView := do
  match ← s.liveField key field with
  | some record => return record.view
  | none => throw .notFound

/-- What a reader sees of fields, `none` for those that are missing. -/
def getFields (s : Scope) (key : Bytes) (fields : List Bytes) :
    DatabaseM (List (Option FieldView)) := do
  checkType key
  fields.mapM fun field => return (← s.liveField key field).map Record.view

def fieldExists (s : Scope) (key field : Bytes) : DatabaseM Bool :=
  return (← s.liveField key field).isSome

def valueLength (s : Scope) (key field : Bytes) : DatabaseM Nat :=
  return ((← s.liveField key field).map (·.value.length)).getD 0

def timeLeft (s : Scope) (key field : Bytes) (unit : TimeUnit) : DatabaseM TtlStatus := do
  match ← container? key with
  | none => return .keyMissing
  | some _ =>
    match ← s.liveField key field with
    | none => return .fieldMissing
    | some record =>
      match record.remaining? s.now with
      | none => return .noExpiry
      | some ms => return .remaining (unit.ofMillis ms)

/-- One page of a scan: where the next one starts, and the fields found with their values. A scan
that breaks off has deleted nothing. -/
def scan (s : Scope) (key : Bytes) (cursor : UInt64) (pattern : Option Glob) (count : Nat) :
    DatabaseM (UInt64 × List (Bytes × Bytes)) := do
  match ← container? key with
  | none => return (0, [])
  | some c =>
    let page ← MonadExcept.ofExcept (c.fields.scan cursor count pattern s.now)
    if s.isPrimary then s.reclaimAll key page.expired
    let value (field : Bytes) : Option (Bytes × Bytes) :=
      (c.fields.get? field).map fun r => (field, r.value)
    return (page.cursor, page.fields.filterMap value)

end ExpiringHash.Scope
