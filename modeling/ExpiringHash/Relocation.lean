import ExpiringHash.Bytes

/-!
# Relocations

The host tells of a renamed or moved key in two notices, one before and one after. The first is
remembered until the second arrives. Two notices belong together if a rename stays in its database
and a move keeps its key; any second notice ends the wait.
-/
namespace ExpiringHash

/-- A key that has gone to another place. -/
structure Relocation where
  fromDb : Nat
  fromKey : Bytes
  toDb : Nat
  toKey : Bytes
deriving DecidableEq, Repr

/-- The first notice waiting for its second, if any. -/
inductive PendingRelocation where
  | idle
  | rename (db : Nat) (key : Bytes)
  | move (db : Nat) (key : Bytes)
deriving DecidableEq, Repr, Inhabited

namespace PendingRelocation

/-- The rename that a second notice completes. -/
def renameTo? (p : PendingRelocation) (db : Nat) (key : Bytes) : Option Relocation :=
  match p with
  | .rename fromDb fromKey => if fromDb = db then some ⟨fromDb, fromKey, db, key⟩ else none
  | _ => none

/-- The move that a second notice completes. -/
def moveTo? (p : PendingRelocation) (db : Nat) (key : Bytes) : Option Relocation :=
  match p with
  | .move fromDb fromKey => if fromKey = key then some ⟨fromDb, fromKey, db, key⟩ else none
  | _ => none

end PendingRelocation

/-- What the host tells of a key that changes its place. -/
inductive Notice where
  | renameFrom (db : Nat) (key : Bytes)
  | renameTo (db : Nat) (key : Bytes)
  | moveFrom (db : Nat) (key : Bytes)
  | moveTo (db : Nat) (key : Bytes)
deriving DecidableEq, Repr

namespace Notice

def db : Notice → Nat
  | .renameFrom db _ | .renameTo db _ | .moveFrom db _ | .moveTo db _ => db

/-- Takes in a notice: the relocation it completes, and what waits from now on. -/
def receive (n : Notice) (p : PendingRelocation) : Option Relocation × PendingRelocation :=
  match n with
  | .renameFrom db key => (none, .rename db key)
  | .moveFrom db key => (none, .move db key)
  | .renameTo db key => (p.renameTo? db key, .idle)
  | .moveTo db key => (p.moveTo? db key, .idle)

/-- A second notice ends the wait, whether or not it completes a relocation. -/
theorem pending_renameTo (db : Nat) (key : Bytes) (p : PendingRelocation) :
    ((renameTo db key).receive p).2 = .idle := rfl

theorem pending_moveTo (db : Nat) (key : Bytes) (p : PendingRelocation) :
    ((moveTo db key).receive p).2 = .idle := rfl

end Notice
end ExpiringHash
