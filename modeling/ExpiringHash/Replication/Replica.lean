import ExpiringHash.Engine.Request
import ExpiringHash.Replication.Log

/-!
# Following a log

A follower takes in the log of another engine as it arrives, cut anywhere, and applies each command
to the database selected last. A frame that cannot be followed is taken from the stream when it is
refused; bytes that cannot start a frame stay. What came before is applied in either case.
-/
namespace ExpiringHash

/-- Where an engine stands in the log that it follows. -/
structure Replica where
  /-- Bytes that do not make a whole frame yet. -/
  pending : Bytes := []
  /-- The database that the next command belongs to. -/
  selected : Nat := 0
  applied : Nat := 0
deriving DecidableEq, Repr, Inhabited

inductive FollowError where
  | decode (error : DecodeError)
  | engine (error : HashError)
deriving DecidableEq, Repr

def FollowError.message : FollowError → String
  | .decode error => "malformed replication stream: " ++ error.message
  | .engine error => error.message

/-- An engine that follows a log. -/
structure Follower where
  replica : Replica
  engine : Engine
deriving DecidableEq

abbrev FollowerM := EStateM FollowError Follower

namespace Follower

def request {α : Type} (r : Request α) : FollowerM α := fun f =>
  match r.perform.run f.engine with
  | .ok a engine => .ok a { f with engine }
  | .error err engine => .error (.engine err) { f with engine }

def keep (bs : Bytes) : FollowerM Unit :=
  modify fun f => { f with replica := { f.replica with pending := bs } }

/-- Selects a database, if the engine has it. -/
def select (db : Nat) : FollowerM Unit := do
  if db < (← get).engine.databases.length then
    modify fun f => { f with replica := { f.replica with selected := db } }
  else throw (.engine (.invalidDatabase db))

def apply (c : Command) : FollowerM Unit := do
  request (.apply (← get).replica.selected c)
  modify fun f => { f with replica := { f.replica with applied := f.replica.applied + 1 } }

/-- Follows one frame of the log; the answer is the number of commands applied. -/
def follow (args : List Bytes) : FollowerM Nat := do
  match LogEntry.ofArgs args with
  | .error err => throw (.decode err)
  | .ok (.select db) =>
    select db
    return 0
  | .ok (.command c) =>
    apply c
    return 1

/-- Follows all whole frames at the front of a stream. -/
def followAll (bs : Bytes) : FollowerM Nat :=
  match _h : Pull.of bs with
  | .incomplete => do
    keep bs
    return 0
  | .fault err rest => do
    keep rest
    throw (.decode (.frame err))
  | .command args rest => do
    keep rest
    let n ← follow args
    return n + (← followAll rest)
termination_by bs.length
decreasing_by exact Pull.length_rest _h

/-- Takes in bytes; the answer is the number of commands applied. -/
def feed (data : Bytes) : FollowerM Nat := do
  followAll ((← get).replica.pending ++ data)

/-- Takes in pieces of a log one after the other, up to the first error. -/
def feedAll (pieces : List Bytes) : FollowerM Nat := do
  let counts ← pieces.mapM feed
  return counts.foldl (· + ·) 0

end Follower
end ExpiringHash
