import ExpiringHash.Expiry.Index
import ExpiringHash.Hash.Sip
import ExpiringHash.Record

/-!
# Fields

The fields of one container: their records, the fields that expire in the order of their expiry,
and all fields in the order of their scan positions. Every change is told as an `ExpiryShift`, from
which an index of the database can follow it. The changes here obey no policy; the rules of writing
stand in `Fields.Write`.
-/
namespace ExpiringHash

/-- The fields of a container. -/
structure Fields where
  records : SortedMap Bytes Record := ∅
  /-- The fields that expire, by their expiry. -/
  expiring : DeadlineSet Bytes := ∅
  /-- All fields, by their scan position. -/
  positions : SortedSet (Ranked Bytes) := ∅
deriving DecidableEq

namespace Fields

instance : EmptyCollection Fields := ⟨{}⟩
instance : Inhabited Fields := ⟨∅⟩

/-- The place of a field in a scan; it depends on the name alone. -/
def position (field : Bytes) : UInt64 := Sip.hash (Sip.lengthFirst field)

def size (f : Fields) : Nat := f.records.size

def isEmpty (f : Fields) : Bool := f.records.isEmpty

/-- The record of a field, expired or not. -/
def get? (f : Fields) (field : Bytes) : Option Record := f.records.get? field

/-- The record of a field, unless it has expired. -/
def live? (f : Fields) (field : Bytes) (now : UInt64) : Option Record :=
  (f.get? field).filter fun r => !r.isExpired now

def live (f : Fields) (now : UInt64) : List (Bytes × Record) :=
  f.records.toList.filter fun r => !r.2.isExpired now

/-- Number of records that have not expired. -/
def liveSize (f : Fields) (now : UInt64) : Nat := f.size - (f.expiring.due now).length

def earliest? (f : Fields) : Option (Ranked Bytes) := f.expiring.first?

def minExpiry? (f : Fields) : Option UInt64 := f.earliest?.map (·.rank)

/-- At most `limit` fields that have expired, earliest first. -/
def expired (f : Fields) (now : UInt64) (limit : Nat) : List (Ranked Bytes) :=
  (f.expiring.due now).take limit

/-- The move of one field's expiry, between the fields before and after it. -/
def shiftTo (f g : Fields) (field : Bytes) (before after : UInt64) : ExpiryShift :=
  { field, before, after, minBefore := f.minExpiry?, minAfter := g.minExpiry? }

/-- The fields that expire, once one of them has a new expiry. -/
def moveExpiry (f : Fields) (field : Bytes) (before after : UInt64) : DeadlineSet Bytes :=
  if before = after then f.expiring
  else f.expiring.refile field (deadline? before) (deadline? after)

/-- Stores a record as it is, in place of the one there was. -/
def put (f : Fields) (field : Bytes) (record : Record) : ExpiryShift × Fields :=
  let before := ((f.get? field).map (·.expireAt)).getD 0
  let g : Fields :=
    { records := f.records.put field record
      expiring := f.moveExpiry field before record.expireAt
      positions := f.positions.insert ⟨position field, field⟩ }
  (f.shiftTo g field before record.expireAt, g)

@[simp] theorem records_put (f : Fields) (field : Bytes) (record : Record) :
    (f.put field record).2.records = f.records.put field record := rfl

theorem get?_put (f : Fields) (field other : Bytes) (record : Record) :
    (f.put field record).2.get? other =
      if compare other field = .eq then some record else f.get? other := by
  rw [get?, records_put, SortedTable.get?_put]
  rfl

/-- Takes a record out, if there is one. -/
def remove (f : Fields) (field : Bytes) : Option (Record × ExpiryShift) × Fields :=
  match f.get? field with
  | none => (none, f)
  | some record =>
    let g : Fields :=
      { records := f.records.erase field
        expiring := f.moveExpiry field record.expireAt 0
        positions := f.positions.erase ⟨position field, field⟩ }
    (some (record, f.shiftTo g field record.expireAt 0), g)

/-- A field that has been taken out is not there, and no other field is touched. -/
theorem get?_remove (f : Fields) (field other : Bytes) :
    (f.remove field).2.get? other =
      if compare other field = .eq then none else f.get? other := by
  unfold remove
  cases h : f.get? field with
  | none =>
    by_cases he : compare other field = .eq
    · have heq : other = field := Std.LawfulEqCmp.eq_of_compare he
      simp [heq, h]
    · simp [he]
  | some record => exact SortedTable.get?_erase

/-- Changes a record in place, if there is one. -/
def update (f : Fields) (field : Bytes) (change : Record → Record) :
    Option ExpiryShift × Fields :=
  match f.get? field with
  | none => (none, f)
  | some record =>
    let (shift, g) := f.put field (change record)
    (some shift, g)

/-- Gives a record another expiry, 0 for none. -/
def putExpiry (f : Fields) (field : Bytes) (expiry : UInt64) : Option ExpiryShift × Fields :=
  f.update field fun record => { record with expireAt := expiry }

/-- Fields holding the records given, later ones in place of earlier ones. -/
def ofList (records : List (Bytes × Record)) : Fields :=
  records.foldl (fun f r => (f.put r.1 r.2).2) ∅

end Fields
end ExpiringHash
