import ExpiringHash.Proofs.Replication.Convergence
import ExpiringHash.Proofs.Wire.Pieces

/-!
# Following a log in pieces

A follower never looks back at the bytes that it keeps, except to put those in front that arrive
next. So up to its first error it comes to the same in whatever pieces a log arrives.
-/
namespace ExpiringHash

namespace Follower

/-- The followers differ at most in the bytes that wait for the rest of their frame. -/
structure Agree (f g : Follower) : Prop where
  engine : f.engine = g.engine
  selected : f.replica.selected = g.replica.selected
  applied : f.replica.applied = g.replica.applied

theorem Agree.refl (f : Follower) : f.Agree f := ⟨rfl, rfl, rfl⟩

instance : Std.Symm Agree := ⟨fun _ _ h => ⟨h.engine.symm, h.selected.symm, h.applied.symm⟩⟩

instance : IsTrans Follower Agree := ⟨fun _ _ _ h h' =>
  ⟨h.engine.trans h'.engine, h.selected.trans h'.selected, h.applied.trans h'.applied⟩⟩

theorem related_keep (bs bs' : Bytes) : Related Agree (· = ·) (keep bs) (keep bs') :=
  .modifies fun _ _ h => ⟨h.engine, h.selected, h.applied⟩

theorem related_request {α : Type} (r : Request α) :
    Related Agree (· = ·) (request r) (request r) := by
  intro f g h
  change Matches Agree (· = ·) (request r f) (request r g)
  unfold request
  rw [h.engine]
  cases r.perform.run g.engine with
  | ok a engine => exact .ok rfl ⟨rfl, h.selected, h.applied⟩
  | error e engine => exact .error _ ⟨rfl, h.selected, h.applied⟩

theorem related_select (db : Nat) : Related Agree (· = ·) (select db) (select db) := by
  refine .bind .get fun f g h => ?_
  rw [h.engine]
  split
  · exact .modifies fun _ _ h => ⟨h.engine, rfl, h.applied⟩
  · exact .throw _

theorem related_apply (c : Command) : Related Agree (· = ·) (apply c) (apply c) := by
  refine .bind .get fun f g h => ?_
  rw [h.selected]
  exact (related_request _).bind fun _ _ _ =>
    .modifies fun _ _ h => ⟨h.engine, h.selected, congrArg (· + 1) h.applied⟩

/-- What a frame does has nothing to do with the bytes after it. -/
theorem related_follow (args : List Bytes) : Related Agree (· = ·) (follow args) (follow args) := by
  unfold follow
  split
  · exact .throw _
  · exact (related_select _).bind fun _ _ _ => .pure rfl
  · exact (related_apply _).bind fun _ _ _ => .pure rfl

variable {bs rest : Bytes}

theorem followAll_of_incomplete (h : Pull.of bs = .incomplete) :
    followAll bs = (do
      keep bs
      return 0 : FollowerM Nat) :=
  funext fun g => run_followAll_incomplete h g

theorem followAll_of_fault {e : FrameError} (h : Pull.of bs = .fault e rest) :
    followAll bs = (do
      keep rest
      throw (.decode (.frame e)) : FollowerM Nat) := by
  rw [followAll]
  split
  · next he => cases h.symm.trans he
  · next he =>
    obtain ⟨rfl, rfl⟩ := Pull.fault.inj (he.symm.trans h)
    rfl
  · next he => cases h.symm.trans he

theorem followAll_of_command {args : List Bytes} (h : Pull.of bs = .command args rest) :
    followAll bs = (do
      keep rest
      let n ← follow args
      return n + (← followAll rest) : FollowerM Nat) :=
  funext fun g => run_followAll_command h g

theorem related_followAll (bs : Bytes) : Related Agree (· = ·) (followAll bs) (followAll bs) := by
  cases h : Pull.of bs with
  | incomplete =>
    rw [followAll_of_incomplete h]
    exact (related_keep _ _).bind fun _ _ _ => .pure rfl
  | fault e rest =>
    rw [followAll_of_fault h]
    exact (related_keep _ _).bind fun _ _ _ => .throw _
  | command args rest =>
    have hlt := Pull.length_rest h
    rw [followAll_of_command h]
    exact (related_keep _ _).bind fun _ _ _ => (related_follow args).bind_eq fun _ =>
      (related_followAll rest).bind_eq fun _ => .pure rfl
termination_by bs.length

/-- Bytes that arrive later are followed as if they had been there at once. -/
theorem related_followAll_append (bs more : Bytes) :
    Related Agree (· = ·) (followAll (bs ++ more)) (do
      let n ← followAll bs
      return n + (← feed more)) := by
  cases h : Pull.of bs with
  | incomplete =>
    intro f g hagree
    have hlater := related_followAll (bs ++ more) f
      { g with replica := { g.replica with pending := bs } }
      ⟨hagree.engine, hagree.selected, hagree.applied⟩
    rw [followAll_of_incomplete h, bind_assoc]
    simp only [pure_bind, Nat.zero_add, bind_pure]
    exact hlater
  | fault e rest =>
    rw [followAll_of_fault h, followAll_of_fault (Pull.fault_append h more)]
    exact fun f g hagree => .error _ ⟨hagree.engine, hagree.selected, hagree.applied⟩
  | command args rest =>
    have hlt := Pull.length_rest h
    rw [followAll_of_command h, followAll_of_command (Pull.command_append h more)]
    simp only [bind_assoc, pure_bind]
    refine (related_keep _ _).bind fun _ _ _ => (related_follow args).bind_eq fun n => ?_
    have hrest := (related_followAll_append rest more).bind_eq
      fun k => Related.pure (R := Agree) (rfl : n + k = n + k)
    simp only [bind_assoc, pure_bind, ← Nat.add_assoc] at hrest
    exact hrest
termination_by bs.length

/-- When all has been followed, the bytes that are kept are no whole frame. -/
theorem incomplete_of_followAll {bs : Bytes} {k : Nat} {g g' : Follower}
    (h : (followAll bs).run g = .ok k g') : Pull.of g'.replica.pending = .incomplete := by
  cases hpull : Pull.of bs with
  | incomplete =>
    rw [followAll_of_incomplete hpull] at h
    cases h
    exact hpull
  | fault e rest =>
    rw [followAll_of_fault hpull] at h
    cases h
  | command args rest =>
    have hlt := Pull.length_rest hpull
    rw [followAll_of_command hpull, EStateM.run_bind, run_keep] at h
    dsimp only at h
    rw [EStateM.run_bind] at h
    split at h
    · rw [EStateM.run_bind] at h
      split at h
      · next hrest =>
        cases h
        exact incomplete_of_followAll hrest
      · cases h
    · cases h
termination_by bs.length

theorem run_feed (data : Bytes) (g : Follower) :
    (feed data).run g = (followAll (g.replica.pending ++ data)).run g := rfl

theorem feedAll_cons (piece : Bytes) (pieces : List Bytes) :
    feedAll (piece :: pieces) = (do
      let n ← feed piece
      return n + (← feedAll pieces) : FollowerM Nat) := by
  have hsum (n : Nat) (counts : List Nat) :
      (n :: counts).foldl (· + ·) 0 = n + counts.foldl (· + ·) 0 := by
    rw [List.foldl_cons, Nat.add_comm 0 n]
    exact List.foldl_assoc
  simp only [feedAll, List.mapM_cons, bind_assoc, pure_bind, hsum]

/-- Following pieces one after the other comes to what following all bytes at once comes to. -/
theorem matches_feedAll (pieces : List Bytes) {g : Follower}
    (h : Pull.of g.replica.pending = .incomplete) :
    Matches Agree (· = ·) ((feedAll pieces).run g) ((feed pieces.flatten).run g) := by
  induction pieces generalizing g with
  | nil =>
    rw [List.flatten_nil, run_feed, List.append_nil, run_followAll_incomplete h]
    exact .ok rfl (.refl g)
  | cons piece pieces ih =>
    have hsplit := related_followAll_append (g.replica.pending ++ piece) pieces.flatten g g (.refl g)
    rw [List.append_assoc, ← List.flatten_cons] at hsplit
    refine Matches.trans ?_ hsplit.symm
    rw [feedAll_cons, EStateM.run_bind, EStateM.run_bind]
    rw [run_feed]
    cases hfirst : (followAll (g.replica.pending ++ piece)).run g with
    | error e g' => exact .error e (.refl g')
    | ok n g' =>
      dsimp only
      rw [EStateM.run_bind, EStateM.run_bind]
      have hlater := ih (incomplete_of_followAll hfirst)
      generalize (feedAll pieces).run g' = r, (feed pieces.flatten).run g' = r' at hlater ⊢
      cases hlater with
      | ok hcount hg => exact .ok (congrArg (n + ·) hcount) hg
      | error e hg => exact .error e hg

/-- For every stream, valid or not, and any two ways to cut it into pieces, the same commands are
decoded and the same first error ends decoding; at every point the frames taken and the bytes
pending make up the bytes that have arrived; and a follower that takes the stream in, up to its first
error, has applied as many commands, has selected the same database, and its engine, with all that it
has sent on, is the same. -/
theorem decoding_ignores_pieces {pieces pieces' : List Bytes}
    (h : pieces.flatten = pieces'.flatten) :
    drainPieces pieces = drainPieces pieces' ∧
      (∀ fed d, Parsed fed d → d.AccountsFor fed) ∧
      Parsed pieces.flatten (drainPieces pieces) ∧
      ∀ g : Follower, Pull.of g.replica.pending = .incomplete →
        Matches Agree (· = ·) ((feedAll pieces).run g) ((feedAll pieces').run g) := by
  refine ⟨?_, fun fed d => Parsed.accountsFor, .of_pieces pieces, fun g hg => ?_⟩
  · rw [drainPieces_eq, drainPieces_eq, h]
  · have hpieces := matches_feedAll pieces hg
    rw [h] at hpieces
    exact hpieces.trans (matches_feedAll pieces' hg).symm

/-- A command, and then a byte that starts no frame, arrive byte by byte and at once. -/
theorem decoding_ignores_pieces_bytewise :
    let set := LogEntry.command (.set [1] [10] [13, 10] 1 0)
    let stream := LogEntry.serializeAll [.select 3, set] ++ [Ascii.plus]
    let bytewise := stream.map fun b => [b]
    let f := Follower.new {} 1000
    bytewise.flatten = [stream].flatten ∧ Pull.of f.replica.pending = .incomplete ∧
      drainPieces bytewise = drainPieces [stream] ∧
      (drainPieces [stream]).fault = some (.unknownKind Ascii.plus) ∧
      (drainPieces bytewise).AccountsFor stream ∧
      Matches Agree (· = ·) ((feedAll bytewise).run f) ((feedAll [stream]).run f) ∧
      (stateOf ((feedAll [stream]).run f)).engine.sent.map (·.1) = [3] := by
  intro set stream bytewise f
  have hbytes : bytewise.flatten = [stream].flatten := by decide +kernel
  obtain ⟨hdrain, haccounts, hparsed, hfollow⟩ := decoding_ignores_pieces hbytes
  have hstream : bytewise.flatten = stream := by decide +kernel
  exact ⟨hbytes, rfl, hdrain, by decide +kernel, haccounts _ _ (hstream ▸ hparsed), hfollow f rfl,
    by decide +kernel⟩

end Follower
end ExpiringHash
