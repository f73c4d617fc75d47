import ExpiringHash.Container
import ExpiringHash.Error

/-!
# Key spaces

A key space gives values to keys. Only containers are looked into; a value of any other type is kept
so that operations on fields can refuse it.
-/
namespace ExpiringHash

/-- The value of a key. -/
inductive Value where
  | container (c : Container)
  /-- A value of another type. -/
  | foreign (type : String) (payload : Bytes)
deriving DecidableEq

namespace Value

/-- The type that is reported for containers. -/
def containerType : String := "fieldhash"

def type : Value → String
  | .container _ => containerType
  | .foreign type _ => type

def container? : Value → Option Container
  | .container c => some c
  | .foreign .. => none

/-- The value as it is filed under another key. -/
def relabel (key : Bytes) : Value → Value
  | .container c => .container { c with key }
  | .foreign type payload => .foreign type payload

end Value

/-- The keys of a database and their values. -/
abbrev KeySpace := SortedMap Bytes Value

namespace KeySpace

/-- The container under a key, if the key is present; a value of another type is refused. -/
def container? (ks : KeySpace) (key : Bytes) : Except HashError (Option Container) :=
  match ks.get? key with
  | none => .ok none
  | some (.container c) => .ok (some c)
  | some (.foreign ..) => .error .typeMismatch

/-- Refuses a key that holds a value of another type. -/
def checkType (ks : KeySpace) (key : Bytes) : Except HashError Unit :=
  (ks.container? key).map fun _ => ()

def putContainer (ks : KeySpace) (key : Bytes) (c : Container) : KeySpace :=
  ks.put key (.container c)

/-- The container under a key, a new one without fields if the key is absent. -/
def containerOrNew (ks : KeySpace) (key : Bytes) : Except HashError (Container × KeySpace) := do
  match ← ks.container? key with
  | some c => return (c, ks)
  | none => return (⟨key, ∅⟩, ks.putContainer key ⟨key, ∅⟩)

/-- Whether a key holds a container without fields. -/
def holdsEmpty (ks : KeySpace) (key : Bytes) : Bool :=
  ((ks.get? key).bind Value.container?).any fun c => c.fields.isEmpty

/-- Drops a key if it holds a container without fields; the flag says whether it did. -/
def dropEmpty (ks : KeySpace) (key : Bytes) : Bool × KeySpace :=
  if ks.holdsEmpty key then (true, ks.erase key) else (false, ks)

def containers (ks : KeySpace) : List Container := ks.values.filterMap Value.container?

end KeySpace
end ExpiringHash
