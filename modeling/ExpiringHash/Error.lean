import ExpiringHash.Text.Utf8

/-!
# Errors of the engine

An operation fails for one of the causes below. Each has one text, in the form of a reply that can
be sent to a client as it is; a call that breaks off for want of room is the exception, for it has no
reply.
-/
namespace ExpiringHash

/-- The parts of a container's dump, named as a truncated dump reports them. -/
inductive DumpPart where
  | fieldCount
  | key
  | fieldName
  | version
  | expireTime
  | value
deriving DecidableEq, Repr

/-- Why a dump is not that of a container. -/
inductive DumpFault where
  | truncated (part : DumpPart)
  | duplicateField (field : Bytes)
  | trailing (bytes : Nat)
deriving DecidableEq, Repr

/-- How an index can contradict the containers it describes. -/
inductive BrokenInvariant where
  /-- A field due for removal lies in no container. -/
  | noContainer (db : Nat) (key : Bytes)
  /-- A field due for removal is not in its container. -/
  | noField (db : Nat) (key : Bytes)
  /-- The first entry of a coarse index is not the earliest expiry of its container. -/
  | staleMinimum (db : Nat) (key : Bytes)
  /-- The index holds other entries than the containers call for. -/
  | entriesDiffer (db actual expected : Nat)
deriving DecidableEq, Repr

/-- Why an operation on fields, containers or keys fails. -/
inductive HashError where
  /-- Options that are malformed or contradict each other. -/
  | badOption
  /-- The key holds a value that is no container. -/
  | typeMismatch
  | versionConflict
  /-- A sum is out of range or out of its bounds. -/
  | overflow
  | notFound
  | notInteger
  | notFloat
  | invalidDatabase (db : Nat)
  | corrupt (fault : DumpFault)
  /-- The engine's structures contradict each other. -/
  | broken (invariant : BrokenInvariant)
  /-- A list was asked for that is longer than any can be. The call breaks off and has no answer. -/
  | noRoom
deriving DecidableEq, Repr

/-- Only a broken invariant means that the engine cannot be trusted any more. -/
def HashError.isFatal : HashError → Bool
  | .broken _ => true
  | _ => false

def DumpPart.name : DumpPart → String
  | .fieldCount => "field count"
  | .key => "key"
  | .fieldName => "field name"
  | .version => "version"
  | .expireTime => "expire time"
  | .value => "value"

def DumpFault.message : DumpFault → String
  | .truncated part => "truncated " ++ part.name
  | .duplicateField field => "duplicate field '" ++ Utf8.lossy field ++ "'"
  | .trailing bytes => toString bytes ++ " trailing bytes"

/-- A defect of one key, with the place where it was found. -/
def BrokenInvariant.locate (what : String) (db : Nat) (key : Bytes) : String :=
  what ++ " (db " ++ toString db ++ ", key '" ++ Utf8.lossy key ++ "')"

def BrokenInvariant.message : BrokenInvariant → String
  | .noContainer db key => locate "expired field has no container" db key
  | .noField db key => locate "expired field is missing from its container" db key
  | .staleMinimum db key => locate "index minimum does not match its container" db key
  | .entriesDiffer db actual expected =>
    "index of db " ++ toString db ++ " has " ++ toString actual ++
      " entries, containers call for " ++ toString expected

def HashError.message : HashError → String
  | .badOption => "ERR syntax error"
  | .typeMismatch => "WRONGTYPE Operation against a key holding the wrong kind of value"
  | .versionConflict => "ERR update version is stale"
  | .overflow => "ERR increment or decrement would overflow"
  | .notFound => "ERR no such field"
  | .notInteger => "ERR value is not an integer"
  | .notFloat => "ERR value is not a valid float"
  | .invalidDatabase _ => "ERR DB index is out of range"
  | .corrupt fault => "ERR corrupt container payload: " ++ fault.message
  | .broken invariant => "ERR internal error: " ++ invariant.message
  | .noRoom => "capacity overflow"

end ExpiringHash
