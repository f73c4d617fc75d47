import ExpiringHash.KeySpace
import ExpiringHash.Report

/-!
# Databases

A database is a key space, the index of all that can expire in it, and a tally of the fields that
have been deleted because they had expired. The index is to hold the entries that the containers
call for (`Database.owed`); `Database.verify` says whether it does.
-/
namespace ExpiringHash

/-- A numbered part of the engine with keys of its own. -/
structure Database where
  keys : KeySpace := ∅
  index : ExpiryIndex
  tally : Tally := {}
deriving DecidableEq

/-- Takes in the entries of a value. -/
def ExpiryIndex.attachValue (i : ExpiryIndex) : Value → ExpiryIndex
  | .container c => i.attach c.key c.fields.expiring.toList
  | .foreign .. => i

/-- Drops the entries of a value. -/
def ExpiryIndex.detachValue (i : ExpiryIndex) : Value → ExpiryIndex
  | .container c => i.detach c.key c.fields.expiring.toList
  | .foreign .. => i

namespace Database

def new (layout : Layout) : Database := { index := .new layout }

/-- Files a container; its index entries are left to the caller. -/
def putContainer (d : Database) (key : Bytes) (c : Container) : Database :=
  { d with keys := d.keys.putContainer key c }

/-- Files a value that comes from elsewhere, together with its index entries. -/
def attach (d : Database) (key : Bytes) (v : Value) : Database :=
  { d with keys := d.keys.put key v, index := d.index.attachValue v }

/-- Deletes a key together with its index entries; the flag says whether it was there. -/
def deleteKey (d : Database) (key : Bytes) : Bool × Database :=
  match d.keys.get? key with
  | none => (false, d)
  | some v => (true, { d with keys := d.keys.erase key, index := d.index.detachValue v })

/-- Deletes all keys. The tally is kept. -/
def clear (d : Database) : Database := { d with keys := ∅, index := d.index.clear }

/-- The entries that the containers call for, earliest first. -/
def owed (d : Database) : List IndexEntry :=
  (d.keys.containers.flatMap fun c => d.index.layout.owed c.key c.fields.expiring).mergeSort
    IndexEntry.isLE

/-- Fails unless the index holds the entries that the containers call for. -/
def verify (d : Database) (db : Nat) : Except HashError Unit :=
  if d.index.entries = d.owed then .ok ()
  else .error (.broken (.entriesDiffer db d.index.entries.length d.owed.length))

end Database
end ExpiringHash
