import ExpiringHash.Replication.Command
import ExpiringHash.Wire.Stream

/-!
# The replication log

The log is a stream of frames. A frame that selects a database comes before the first command and
before every command whose database is not that of the command before it; draining the log does not
forget which database was selected last.
-/
namespace ExpiringHash

/-- One frame of the log. -/
inductive LogEntry where
  /-- The commands that follow belong to this database. -/
  | select (db : Nat)
  | command (c : Command)
deriving DecidableEq, Repr

namespace LogEntry

def selectWord : Bytes := Bytes.ofChars ['S', 'E', 'L', 'E', 'C', 'T']

def args : LogEntry → List Bytes
  | .select db => [selectWord, Numeral.ofNat db]
  | .command c => c.args

def ofArgs (args : List Bytes) : Except DecodeError LogEntry :=
  match args with
  | [word, db] =>
    if Bytes.sameFolded word selectWord then
      (Command.readNumber db).map fun n => .select n.toNat
    else (Command.ofArgs args).map .command
  | _ => (Command.ofArgs args).map .command

def frame (e : LogEntry) : Frame := .ofArgs e.args

end LogEntry

/-- The bytes written and not yet taken, and the database of the last command ever written. -/
structure ReplicationLog where
  bytes : Bytes := []
  selected : Option Nat := none
deriving DecidableEq, Repr

namespace ReplicationLog

/-- The entries that a command adds after the database `selected`. -/
def entriesFor (selected : Option Nat) (db : Nat) (c : Command) : List LogEntry :=
  if selected = some db then [.command c] else [.select db, .command c]

/-- The entries that commands add after the database `selected`. -/
def entriesForAll (selected : Option Nat) : List (Nat × Command) → List LogEntry
  | [] => []
  | (db, c) :: cs => entriesFor selected db c ++ entriesForAll (some db) cs

/-- Writes commands in order. -/
def emitAll (log : ReplicationLog) (commands : List (Nat × Command)) : ReplicationLog :=
  { bytes := log.bytes ++
      (entriesForAll log.selected commands).flatMap fun e => e.frame.serialize
    selected := (commands.getLast?.map (·.1)).or log.selected }

def emit (log : ReplicationLog) (db : Nat) (c : Command) : ReplicationLog :=
  log.emitAll [(db, c)]

theorem emitAll_nil (log : ReplicationLog) : log.emitAll [] = log := by
  simp [emitAll, entriesForAll]

/-- Commands may be written one by one. -/
theorem emitAll_cons (log : ReplicationLog) (db : Nat) (c : Command)
    (cs : List (Nat × Command)) : log.emitAll ((db, c) :: cs) = (log.emit db c).emitAll cs := by
  cases cs with
  | nil => simp [emit, emitAll_nil]
  | cons d ds =>
    simp [emit, emitAll, entriesForAll, List.getLast?_cons]

def isEmpty (log : ReplicationLog) : Bool := log.bytes.isEmpty

/-- Takes the bytes written so far. -/
def take (log : ReplicationLog) : Bytes × ReplicationLog := (log.bytes, { log with bytes := [] })

/-- The entries of a complete stream. The first frame that is no entry decides the error; a frame
that is cut off is one. -/
def decode (bs : Bytes) : Except DecodeError (List LogEntry) := do
  let d := drain bs
  let entries ← d.commands.mapM LogEntry.ofArgs
  match d.fault with
  | some e => throw (.frame e)
  | none =>
    if d.pending.isEmpty then return entries
    else throw (.frame (.protocol .truncatedStream))

end ReplicationLog
end ExpiringHash
