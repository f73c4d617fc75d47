import ExpiringHash.Error
import ExpiringHash.Fields.Basic
import ExpiringHash.Glob

/-!
# Scanning fields

A scan walks the fields in the order of their positions and can stop and resume: its cursor is the
position to go on from, 0 both at the start and at the end. Fields at one position are never split
between two pages, so each is visited once however the fields change in between. Room for all fields
asked for is made before any is visited, and a scan that asks for more than there can be breaks off.
-/
namespace ExpiringHash

structure ScanPage where
  /-- Where the next page starts, 0 if there is none. -/
  cursor : UInt64
  fields : List Bytes
  /-- The fields found that have expired. -/
  expired : List Bytes
deriving DecidableEq, Repr

namespace Fields

/-- Cuts a page of at least `count` entries from the front, without splitting a position. -/
def cutPage (count : Nat) (ahead : List (Ranked Bytes)) :
    List (Ranked Bytes) × List (Ranked Bytes) :=
  let (page, rest) := ahead.splitAt count
  match page.getLast? with
  | none => (page, rest)
  | some last =>
    let (more, rest) := rest.span fun e => e.rank == last.rank
    (page ++ more, rest)

/-- The most fields that there can be room for: a list takes fewer than 2 ^ 63 bytes, and a
reference to a field takes eight. Memory is taken to suffice for as many. -/
def maxRoom : Nat := (Nat.pow 2 63 - 1) / 8

/-- The page that starts at a cursor; a page visits at least one field. -/
def page (f : Fields) (cursor : UInt64) (count : Nat) (pattern : Option Glob) (now : UInt64) :
    ScanPage :=
  let (page, rest) := cutPage (max count 1) (f.positions.toList.dropWhile (·.rank < cursor))
  let found := (page.map (·.item)).filter fun field => pattern.all (·.isMatch field)
  let holds (state : Record → Bool) (field : Bytes) : Bool := (f.get? field).any state
  { cursor := (rest.head?.map (·.rank)).getD 0
    fields := found.filter (holds fun r => !r.isExpired now)
    expired := found.filter (holds fun r => r.isExpired now) }

/-- The page that starts at a cursor, if there is room for the fields asked for. -/
def scan (f : Fields) (cursor : UInt64) (count : Nat) (pattern : Option Glob) (now : UInt64) :
    Except HashError ScanPage :=
  if maxRoom < count then .error .noRoom else .ok (f.page cursor count pattern now)

end Fields
end ExpiringHash
