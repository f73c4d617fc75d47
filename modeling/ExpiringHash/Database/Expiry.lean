import ExpiringHash.Database.Action

/-!
# Deleting what has expired

A primary deletes an expired field when an operation meets it, a few more before each write to its
container, and whatever the index names first when it is asked to. Each deletion is counted once and
told by one command; a container that is left without fields goes too, and a second command says so.
A replica reports expired fields but deletes none.
-/
namespace ExpiringHash.Scope

open DatabaseM

def isPrimary (s : Scope) : Bool := s.role = .primary

/-- Drops a container without fields and says so; a replica keeps it until it is told to drop it. -/
def dropEmpty (s : Scope) (key : Bytes) : DatabaseM Unit := do
  let (dropped, keys) := (← database).keys.dropEmpty key
  if s.isPrimary && dropped then
    change fun d => { d with keys }
    emit (.deleteKey key)

/-- Deletes a field that has expired. -/
def reclaim (s : Scope) (key field : Bytes) (trigger : Trigger) : DatabaseM Unit := do
  match ((← database).keys.get? key).bind Value.container? with
  | none => throw (.broken (.noContainer s.db key))
  | some c =>
    match c.fields.remove field with
    | (none, _) => throw (.broken (.noField s.db key))
    | (some (_, shift), fields) =>
      change (·.putContainer key { c with fields })
      follow key shift
      change fun d => { d with tally := d.tally.count trigger }
      emit (.delete key field)
      s.dropEmpty key

def reclaimAll (s : Scope) (key : Bytes) (fields : List Bytes) : DatabaseM Unit :=
  fields.forM fun field => s.reclaim key field .passive

/-- Whether a field has expired; if so, a primary deletes it. -/
def expireIfDue (s : Scope) (key field : Bytes) : DatabaseM Bool := do
  let record := (← container? key).bind fun c => c.fields.get? field
  let expired := record.any (·.isExpired s.now)
  if expired && s.isPrimary then s.reclaim key field .passive
  return expired

/-- The record of a field that is read, unless it has expired. -/
def liveField (s : Scope) (key field : Bytes) : DatabaseM (Option Record) := do
  if ← s.expireIfDue key field then return none
  else return (← container? key).bind fun c => c.fields.get? field

/-- Deletes some of the expired fields of a container, earliest first. -/
def sweep (s : Scope) (key : Bytes) : DatabaseM Unit := do
  if s.isPrimary then
    match ← container? key with
    | none => return ()
    | some c => s.reclaimAll key ((c.fields.expired s.now s.sweepBudget).map (·.item))

/-- The field that an index entry stands for. -/
def fieldOf (s : Scope) (e : IndexEntry) : DatabaseM Bytes := do
  match e.field with
  | some field => return field
  | none =>
    let c := ((← database).keys.get? e.key).bind Value.container?
    match c.bind (·.fields.earliest?) with
    | some r => if r.rank = e.due then return r.item else throw (.broken (.staleMinimum s.db e.key))
    | none => throw (.broken (.staleMinimum s.db e.key))

/-- Deletes expired fields in the order of the index, at most as many as the budget says; the answer
is their number. -/
def drain (s : Scope) : Nat → DatabaseM Nat
  | 0 => return 0
  | budget + 1 => do
    match (← database).index.first? with
    | none => return 0
    | some e =>
      if s.now < e.due then return 0
      else
        let field ← s.fieldOf e
        s.reclaim e.key field .active
        return (← s.drain budget) + 1

end ExpiringHash.Scope
