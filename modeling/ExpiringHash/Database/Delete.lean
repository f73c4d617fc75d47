import ExpiringHash.Database.Expiry
import ExpiringHash.Fields.Write

/-!
# Deleting fields of a database

A field that has expired is not there to be deleted: the primary clears it away and the answer is
that nothing was deleted.
-/
namespace ExpiringHash.Scope

open DatabaseM

/-- Deletes one field and leaves a container without fields as it is. -/
def deleteOne (s : Scope) (key field : Bytes) (version : VersionPolicy) : DatabaseM Bool := do
  if ← s.expireIfDue key field then return false
  else
    match ← revise key none fun f => f.delete field version s.now with
    | none => return false
    | some (_, shift) =>
      follow key shift
      emit (.delete key field)
      return true

/-- Deletes one field unless a version check fails; the answer is the number of fields deleted. -/
def deleteIfMatching (s : Scope) (key field : Bytes) (version : VersionPolicy) : DatabaseM Nat :=
  tryCatch (return (← s.deleteOne key field version).toNat) fun e =>
    if e = .versionConflict then return 0 else throw e

/-- Deletes a field; the answer is whether it was there. -/
def deleteField (s : Scope) (key field : Bytes) (version : VersionPolicy) : DatabaseM Bool := do
  checkType key
  let deleted ← s.deleteOne key field version
  s.dropEmpty key
  return deleted

/-- Deletes fields whose versions are as given; the answer is the number of fields deleted. -/
def deleteFieldsChecked (s : Scope) (key : Bytes) (entries : List (Bytes × VersionPolicy)) :
    DatabaseM Nat := do
  checkType key
  let counts ← entries.mapM fun (field, version) => s.deleteIfMatching key field version
  s.dropEmpty key
  return counts.foldl (· + ·) 0

def deleteFields (s : Scope) (key : Bytes) (fields : List Bytes) : DatabaseM Nat :=
  s.deleteFieldsChecked key (fields.map fun field => (field, .next))

end ExpiringHash.Scope
