import ExpiringHash.Wire.Parser

/-!
# Streams of commands

Bytes arrive in pieces cut anywhere. Whatever does not yet make a whole frame is kept for the next
piece. A frame that is no command is taken from the stream when it is refused; bytes that cannot
start a frame stay where they are.
-/
namespace ExpiringHash

/-- What is at the front of a stream. -/
inductive Pull where
  /-- The bytes do not make a whole frame yet. -/
  | incomplete
  | command (args : List Bytes) (rest : Bytes)
  | fault (error : FrameError) (rest : Bytes)
deriving DecidableEq, Repr

/-- Looks for a command at the front of a stream. -/
def Pull.of (bs : Bytes) : Pull :=
  match Frame.read bs with
  | .error e => .fault e bs
  | .ok none => .incomplete
  | .ok (some (f, rest)) =>
    match f.args? with
    | some args => .command args rest
    | none => .fault (.protocol .notACommand) rest

theorem Pull.length_rest {bs rest : Bytes} {args : List Bytes}
    (h : Pull.of bs = .command args rest) : rest.length < bs.length := by
  unfold Pull.of at h
  split at h
  · cases h
  · cases h
  · next hr =>
    split at h
    · cases h
      exact Frame.length_read hr
    · cases h

/-- All that can be taken from a stream for now. -/
structure Drained where
  commands : List (List Bytes)
  /-- Why the stream could not be read on, if it could not. -/
  fault : Option FrameError
  /-- The bytes left in the stream. -/
  pending : Bytes
deriving DecidableEq, Repr

def Drained.cons (args : List Bytes) (d : Drained) : Drained :=
  { d with commands := args :: d.commands }

/-- Takes commands from the front of a stream until one is incomplete or at fault. -/
def drain (bs : Bytes) : Drained :=
  match _h : Pull.of bs with
  | .incomplete => ⟨[], none, bs⟩
  | .fault e rest => ⟨[], some e, rest⟩
  | .command args rest => (drain rest).cons args
termination_by bs.length
decreasing_by exact Pull.length_rest _h

end ExpiringHash
