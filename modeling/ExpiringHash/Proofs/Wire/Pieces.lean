import ExpiringHash.Proofs.Wire.Settled

/-!
# Streams in pieces

A parser that takes in a stream piece by piece, and each time takes all commands it can, has come to
what it comes to if all bytes arrive at once. In whatever order bytes arrive and commands are asked
for, the bytes taken off and the bytes kept make up what has arrived.
-/
namespace ExpiringHash

variable {bs rest : Bytes} {args : List Bytes} {e : FrameError}

theorem drain_of_incomplete (h : Pull.of bs = .incomplete) : drain bs = ⟨[], none, bs⟩ := by
  rw [drain]
  split
  · rfl
  · next he => cases h.symm.trans he
  · next he => cases h.symm.trans he

theorem drain_of_fault (h : Pull.of bs = .fault e rest) : drain bs = ⟨[], some e, rest⟩ := by
  rw [drain]
  split
  · next he => cases h.symm.trans he
  · next he =>
    obtain ⟨rfl, rfl⟩ := Pull.fault.inj (he.symm.trans h)
    rfl
  · next he => cases h.symm.trans he

theorem drain_of_command (h : Pull.of bs = .command args rest) :
    drain bs = (drain rest).cons args := by
  rw [drain]
  split
  · next he => cases h.symm.trans he
  · next he => cases h.symm.trans he
  · next he =>
    obtain ⟨rfl, rfl⟩ := Pull.command.inj (he.symm.trans h)
    rfl

namespace Drained

/-- Takes in a piece of the stream and all commands that can be taken then. After a fault no command
is taken any more. -/
def feed (d : Drained) (piece : Bytes) : Drained :=
  match d.fault with
  | some _ => { d with pending := d.pending ++ piece }
  | none =>
    let next := drain (d.pending ++ piece)
    { next with commands := d.commands ++ next.commands }

theorem feed_cons (d : Drained) (args : List Bytes) (piece : Bytes) :
    (d.cons args).feed piece = (d.feed piece).cons args := by
  unfold feed cons
  dsimp only
  split <;> rfl

end Drained

/-- Bytes that arrive later are taken in as if they had been there at once. -/
theorem drain_append (bs more : Bytes) : drain (bs ++ more) = (drain bs).feed more := by
  cases h : Pull.of bs with
  | incomplete =>
    rw [drain_of_incomplete h]
    rfl
  | fault e rest =>
    rw [drain_of_fault h, drain_of_fault (Pull.fault_append h more)]
    rfl
  | command args rest =>
    have hlt := Pull.length_rest h
    rw [drain_of_command h, drain_of_command (Pull.command_append h more), drain_append rest more,
      Drained.feed_cons]
termination_by bs.length

/-- Takes in the pieces of a stream one after the other. -/
def drainPieces (pieces : List Bytes) : Drained := pieces.foldl Drained.feed ⟨[], none, []⟩

/-- It makes no difference in which pieces a stream arrives. -/
theorem drainPieces_eq (pieces : List Bytes) : drainPieces pieces = drain pieces.flatten := by
  have hfrom (bs : Bytes) : pieces.foldl Drained.feed (drain bs) = drain (bs ++ pieces.flatten) := by
    induction pieces generalizing bs with
    | nil => rw [List.foldl_nil, List.flatten_nil, List.append_nil]
    | cons piece pieces ih =>
      rw [List.foldl_cons, ← drain_append, ih, List.flatten_cons, List.append_assoc]
  have hnone : drain [] = ⟨[], none, []⟩ := drain_of_incomplete rfl
  rw [drainPieces, ← hnone]
  exact hfrom []

/-- What a parser can come to when bytes arrive and commands are asked for in any order: the bytes
that have arrived, and what was taken of them. -/
inductive Parsed : Bytes → Drained → Prop
  | new : Parsed [] ⟨[], none, []⟩
  | feed {fed : Bytes} {d : Drained} (piece : Bytes) :
      Parsed fed d → Parsed (fed ++ piece) { d with pending := d.pending ++ piece }
  | command {fed rest : Bytes} {d : Drained} {args : List Bytes} :
      Parsed fed d → d.fault = none → Pull.of d.pending = .command args rest →
      Parsed fed { d with commands := d.commands ++ [args], pending := rest }
  | fault {fed rest : Bytes} {d : Drained} {e : FrameError} :
      Parsed fed d → d.fault = none → Pull.of d.pending = .fault e rest →
      Parsed fed { d with fault := some e, pending := rest }

/-- What was taken are whole frames in front of what is pending, and the commands are those of them
that are commands. -/
def Drained.AccountsFor (d : Drained) (fed : Bytes) : Prop :=
  ∃ taken, Frame.Span taken fed d.pending ∧ d.commands = taken.filterMap fun p => p.2.args?

namespace Parsed

variable {fed : Bytes} {d : Drained}

/-- At every point, the frames taken and the bytes pending make up the bytes that have arrived. -/
theorem accountsFor (h : Parsed fed d) : d.AccountsFor fed := by
  induction h with
  | new => exact ⟨[], .nil [], rfl⟩
  | feed piece _ ih =>
    obtain ⟨taken, hspan, hcommands⟩ := ih
    exact ⟨taken, hspan.append piece, hcommands⟩
  | command _ _ hpull ih =>
    obtain ⟨taken, hspan, hcommands⟩ := ih
    obtain ⟨p, hnext, hargs⟩ := Pull.span_of_command hpull
    refine ⟨taken ++ [p], hspan.trans hnext, ?_⟩
    simp only [hcommands, List.filterMap_append, List.filterMap_cons, List.filterMap_nil, hargs]
  | fault _ _ hpull ih =>
    obtain ⟨taken, hspan, hcommands⟩ := ih
    obtain ⟨refused, hnext, hargs⟩ := Pull.span_of_fault hpull
    refine ⟨taken ++ refused, hspan.trans hnext, ?_⟩
    rw [List.filterMap_append, ← hcommands, List.filterMap_eq_nil_iff.mpr hargs, List.append_nil]

/-- All commands that can be taken are taken. -/
theorem drained {d : Drained} (h : Parsed fed d) (hfault : d.fault = none) :
    Parsed fed { drain d.pending with commands := d.commands ++ (drain d.pending).commands } := by
  cases hpull : Pull.of d.pending with
  | incomplete =>
    rw [drain_of_incomplete hpull, List.append_nil, ← hfault]
    exact h
  | fault e rest =>
    rw [drain_of_fault hpull, List.append_nil]
    exact h.fault hfault hpull
  | command args rest =>
    have hlt := Pull.length_rest hpull
    have hnext := drained (h.command hfault hpull) hfault
    rw [List.append_assoc] at hnext
    rw [drain_of_command hpull]
    exact hnext
termination_by d.pending.length

theorem after_feed (h : Parsed fed d) (piece : Bytes) : Parsed (fed ++ piece) (d.feed piece) := by
  have hfeed := h.feed piece
  unfold Drained.feed
  split
  · exact hfeed
  · next hfault => exact hfeed.drained hfault

/-- Taking in pieces one after the other is one way for bytes to arrive. -/
theorem of_pieces (pieces : List Bytes) : Parsed pieces.flatten (drainPieces pieces) := by
  have hfrom {fed : Bytes} {d : Drained} (h : Parsed fed d) :
      Parsed (fed ++ pieces.flatten) (pieces.foldl Drained.feed d) := by
    induction pieces generalizing fed d with
    | nil => exact (List.append_nil fed).symm ▸ h
    | cons piece pieces ih =>
      rw [List.flatten_cons, ← List.append_assoc]
      exact ih (h.after_feed piece)
  exact hfrom .new

end Parsed

end ExpiringHash
