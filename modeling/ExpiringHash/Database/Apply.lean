import ExpiringHash.Database.Action

/-!
# Applying replicated commands

A command says what the primary has stored. It is applied as it is, without a version check and
without a look at the clock, and sent on. A command for a field that is missing changes nothing,
unless it stores one; it is sent on all the same.
-/
namespace ExpiringHash.Scope

open DatabaseM

/-- Follows a change in the index, if there was one. -/
def followAny (key : Bytes) : Option ExpiryShift → DatabaseM Unit
  | some shift => follow key shift
  | none => return ()

/-- Changes a record in place, if it is there. -/
def updateRecord (key field : Bytes) (change : Record → Record) : DatabaseM Unit := do
  followAny key (← revise key none fun f => .ok (f.update field change))

def perform : Command → DatabaseM Unit
  | .set key field value version expiry => do
    let shift ← write key fun f => .ok (f.put field { value, version, expireAt := expiry })
    follow key shift
  | .delete key field => do
    let removed ← revise key none fun f => .ok (f.remove field)
    followAny key (removed.map (·.2))
  | .expireAt key field expiry version =>
    updateRecord key field fun r => { r with version, expireAt := expiry }
  | .persist key field => updateRecord key field fun r => { r with expireAt := 0 }
  | .setVersion key field version => updateRecord key field fun r => { r with version }
  | .deleteKey key => change fun d => (d.deleteKey key).2

/-- Applies a command and sends it on. -/
def apply (c : Command) : DatabaseM Unit := do
  perform c
  emit c

end ExpiringHash.Scope
