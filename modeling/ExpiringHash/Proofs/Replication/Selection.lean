import ExpiringHash.Proofs.Replication.Pieces

/-!
# Which database a command is applied to

A follower may be fed on after an error. Then what it has applied are the commands of the frames it
has taken, each to the database of the last selection before it that names one of its databases. A
selection that names none is refused and passed over: commands after it go where those before it
went.
-/
namespace ExpiringHash

/-- The entry that a frame holds, if it holds one. -/
def Frame.decoded? (f : Frame) : Option LogEntry :=
  f.args?.bind fun args => (LogEntry.ofArgs args).toOption

/-- Applies commands one after the other, each to its database, whether those before failed or
not. -/
def Engine.applyAll (e : Engine) (commands : List (Nat × Command)) : Engine :=
  commands.foldl (fun e (db, c) => e.after (.apply db c)) e

theorem Engine.length_databases_apply (e : Engine) (db : Nat) (c : Command) :
    (e.after (.apply db c)).databases.length = e.databases.length := by
  rw [after_eq]
  change (stateOf ((onDatabase db fun _ => Scope.apply c).run e)).databases.length = _
  rw [run_onDatabase]
  split
  · rfl
  · split <;> exact length_databases_absorb ..

namespace LogEntry

/-- The entry does not select a database that is none of `n`. -/
def Names (n : Nat) : LogEntry → Bool
  | .select db => db < n
  | .command _ => true

/-- The database that the last entries select, `selected` if they select none. -/
def lastSelected (selected : Nat) : List LogEntry → Nat
  | [] => selected
  | .select db :: es => lastSelected db es
  | .command _ :: es => lastSelected selected es

theorem lastSelected_append (selected : Nat) (es fs : List LogEntry) :
    lastSelected selected (es ++ fs) = lastSelected (lastSelected selected es) fs := by
  induction es generalizing selected with
  | nil => rfl
  | cons e es ih => cases e <;> exact ih _

theorem attributed_append (selected : Nat) (es fs : List LogEntry) :
    attributed selected (es ++ fs) =
      attributed selected es ++ attributed (lastSelected selected es) fs := by
  induction es generalizing selected with
  | nil => rfl
  | cons e es ih =>
    cases e with
    | select db => exact ih db
    | command c => exact congrArg ((selected, c) :: ·) (ih selected)

end LogEntry

namespace Follower

/-- Takes in pieces of a log one after the other, and goes on after errors. -/
def feedOn (f : Follower) (pieces : List Bytes) : Follower :=
  pieces.foldl (fun g data => stateOf ((feed data).run g)) f

variable {f g h : Follower} {bs : Bytes}

/-- The commands among the entries have been applied, each to the database selected last before it,
where selections of databases that do not exist are passed over. -/
structure Followed (f : Follower) (entries : List LogEntry) (g : Follower) : Prop where
  engine : g.engine = f.engine.applyAll (LogEntry.attributed f.replica.selected
    (entries.filter (LogEntry.Names f.engine.databases.length)))
  selected : g.replica.selected = LogEntry.lastSelected f.replica.selected
    (entries.filter (LogEntry.Names f.engine.databases.length))
  length : g.engine.databases.length = f.engine.databases.length

theorem Followed.nil (f : Follower) : f.Followed [] f := ⟨rfl, rfl, rfl⟩

theorem Followed.trans {es fs : List LogEntry} (hf : f.Followed es g) (hg : g.Followed fs h) :
    f.Followed (es ++ fs) h where
  engine := by
    rw [hg.engine, hf.length, hf.engine, hf.selected, List.filter_append,
      LogEntry.attributed_append, Engine.applyAll, Engine.applyAll, Engine.applyAll,
      List.foldl_append]
  selected := by
    rw [hg.selected, hf.selected, hf.length, List.filter_append, LogEntry.lastSelected_append]
  length := hg.length.trans hf.length

/-- What bytes wait for the rest of their frame makes no difference. -/
theorem Followed.of_pending {es : List LogEntry} (bs : Bytes)
    (hf : Followed { f with replica := { f.replica with pending := bs } } es g) : f.Followed es g :=
  ⟨hf.engine, hf.selected, hf.length⟩

theorem run_select (db : Nat) (f : Follower) :
    (select db).run f = if db < f.engine.databases.length then
        .ok () { f with replica := { f.replica with selected := db } }
      else .error (.engine (.invalidDatabase db)) f := by
  change EStateM.run (if db < f.engine.databases.length then modify _ else throw _) f = _
  split <;> rfl

/-- A selection of a database that there is not leaves a follower where it is. -/
theorem followed_select (db : Nat) (f : Follower) :
    f.Followed [.select db] (stateOf ((select db).run f)) := by
  rw [run_select]
  split
  · next hdb =>
    have hnames : [LogEntry.select db].filter (LogEntry.Names f.engine.databases.length) =
        [.select db] := List.filter_eq_self.mpr (by simpa [LogEntry.Names] using hdb)
    exact ⟨by rw [hnames]; rfl, by rw [hnames]; rfl, rfl⟩
  · next hdb =>
    have hnames : [LogEntry.select db].filter (LogEntry.Names f.engine.databases.length) = [] :=
      List.filter_eq_nil_iff.mpr (by simpa [LogEntry.Names] using hdb)
    exact ⟨by rw [hnames]; rfl, by rw [hnames]; rfl, rfl⟩

theorem run_apply_eq (c : Command) (f : Follower) :
    (apply c).run f = match (Request.apply f.replica.selected c).perform.run f.engine with
      | .ok _ engine => .ok () { f with
          replica := { f.replica with applied := f.replica.applied + 1 }, engine }
      | .error err engine => .error (.engine err) { f with engine } := by
  change EStateM.bind (request (.apply f.replica.selected c)) (fun _ => modify _) f = _
  rw [EStateM.bind, request]
  cases (Request.apply f.replica.selected c).perform.run f.engine <;> rfl

/-- A command goes to the database selected, whether it can be applied there or not. -/
theorem followed_apply (c : Command) (f : Follower) :
    f.Followed [.command c] (stateOf ((apply c).run f)) := by
  have hlength := f.engine.length_databases_apply f.replica.selected c
  have hengine : f.engine.after (.apply f.replica.selected c) =
      stateOf ((Request.apply f.replica.selected c).perform.run f.engine) := Engine.after_eq ..
  rw [hengine] at hlength
  rw [run_apply_eq]
  cases hrun : (Request.apply f.replica.selected c).perform.run f.engine <;>
    rw [hrun] at hengine hlength <;> exact ⟨hengine.symm, rfl, hlength⟩

/-- A frame is followed if it holds an entry, and else makes no difference. -/
theorem followed_follow (args : List Bytes) (f : Follower) :
    f.Followed (LogEntry.ofArgs args).toOption.toList (stateOf ((follow args).run f)) := by
  have hdrop {x : FollowerM Unit} (n : Nat) (f : Follower) :
      stateOf ((do x; return n : FollowerM Nat).run f) = stateOf (x.run f) := by
    rw [EStateM.run_bind]
    cases x.run f <;> rfl
  unfold follow
  split
  · next hargs =>
    rw [hargs]
    exact .nil f
  · next db hargs =>
    rw [hargs, hdrop]
    exact followed_select db f
  · next c hargs =>
    rw [hargs, hdrop]
    exact followed_apply c f

/-- The bytes that wait for the rest of their frame are the same. -/
def SamePending (f g : Follower) : Prop := g.replica.pending = f.replica.pending

instance : IsPreorder Follower SamePending where
  refl _ := rfl
  trans _ _ _ h h' := h'.trans h

/-- What a frame does has nothing to do with the bytes after it. -/
theorem leads_follow (args : List Bytes) : Leads SamePending (follow args) := by
  have hselect (db : Nat) : Leads SamePending (select db) := fun f => by
    rw [run_select]
    split <;> rfl
  have happly (c : Command) : Leads SamePending (apply c) := fun f => by
    rw [run_apply_eq]
    split <;> rfl
  unfold follow
  split
  · exact .throw _
  · exact (hselect _).bind fun _ => .pure _
  · exact (happly _).bind fun _ => .pure _

/-- What was taken off some bytes are whole frames, and the entries they hold have been followed. -/
def Takes (f : Follower) (bs : Bytes) (g : Follower) : Prop :=
  ∃ taken, Frame.Span taken bs g.replica.pending ∧
    f.Followed (taken.filterMap fun p => p.2.decoded?) g

/-- Bytes that arrive later are taken after those before. -/
theorem Takes.trans {more : Bytes} (hf : f.Takes bs g) (hg : g.Takes (g.replica.pending ++ more) h) :
    f.Takes (bs ++ more) h := by
  obtain ⟨taken, hspan, hfollowed⟩ := hf
  obtain ⟨taken', hspan', hfollowed'⟩ := hg
  refine ⟨taken ++ taken', (hspan.append more).trans hspan', ?_⟩
  rw [List.filterMap_append]
  exact hfollowed.trans hfollowed'

/-- A command frame is taken off and the entry it holds is followed. -/
theorem takes_follow {rest : Bytes} {args : List Bytes} (hpull : Pull.of bs = .command args rest)
    (f : Follower) :
    f.Takes bs (stateOf ((follow args).run
      { f with replica := { f.replica with pending := rest } })) := by
  obtain ⟨p, hspan, hargs⟩ := Pull.span_of_command hpull
  refine ⟨[p], ?_, ?_⟩
  · rw [leads_follow args]
    exact hspan
  · have hentry : [p].filterMap (fun p => p.2.decoded?) = (LogEntry.ofArgs args).toOption.toList := by
      have hp : p.2.decoded? = (LogEntry.ofArgs args).toOption := by
        rw [Frame.decoded?, hargs, Option.bind_some]
      simp only [List.filterMap_cons, List.filterMap_nil, hp]
      cases (LogEntry.ofArgs args).toOption <;> rfl
    rw [hentry]
    exact (followed_follow args _).of_pending rest

/-- A frame that cannot be followed ends it, and has been taken off all the same. -/
theorem takes_followAll (bs : Bytes) (f : Follower) :
    f.Takes bs (stateOf ((followAll bs).run f)) := by
  cases hpull : Pull.of bs with
  | incomplete =>
    rw [run_followAll_incomplete hpull]
    exact ⟨[], .nil bs, rfl, rfl, rfl⟩
  | fault e rest =>
    obtain ⟨taken, hspan, hargs⟩ := Pull.span_of_fault hpull
    refine ⟨taken, ?_, ?_⟩
    · rw [followAll_of_fault hpull]
      exact hspan
    · have hnone : taken.filterMap (fun p => p.2.decoded?) = [] :=
        List.filterMap_eq_nil_iff.mpr fun p hp => by rw [Frame.decoded?, hargs p hp]; rfl
      rw [followAll_of_fault hpull, hnone]
      exact ⟨rfl, rfl, rfl⟩
  | command args rest =>
    have hlt := Pull.length_rest hpull
    let kept : Follower := { f with replica := { f.replica with pending := rest } }
    have hfirst : f.Takes bs (stateOf ((follow args).run kept)) := takes_follow hpull f
    rw [run_followAll_command hpull, EStateM.run_bind, run_keep]
    dsimp only
    rw [EStateM.run_bind]
    cases hrun : (follow args).run kept with
    | error e g =>
      rw [hrun] at hfirst
      exact hfirst
    | ok n g =>
      rw [hrun] at hfirst
      -- following the frame has kept the bytes behind it, so the rest is followed from where it ends
      have hpending : g.replica.pending = rest := by
        have hsame := leads_follow args kept
        rwa [hrun] at hsame
      have hlater : g.Takes (g.replica.pending ++ []) (stateOf ((followAll rest).run g)) := by
        rw [hpending, List.append_nil]
        exact takes_followAll rest g
      have hboth := hfirst.trans hlater
      rw [List.append_nil] at hboth
      dsimp only
      rw [EStateM.run_bind]
      cases hrest : (followAll rest).run g <;> rw [hrest] at hboth <;> exact hboth
termination_by bs.length

/-- What has been fed, errors or not, has been taken as far as it goes. -/
theorem takes_feedOn (f : Follower) (pieces : List Bytes) :
    f.Takes (f.replica.pending ++ pieces.flatten) (f.feedOn pieces) := by
  have hfrom {bs : Bytes} {g : Follower} (hg : f.Takes bs g) :
      f.Takes (bs ++ pieces.flatten) (g.feedOn pieces) := by
    induction pieces generalizing bs g with
    | nil => exact (List.append_nil bs).symm ▸ hg
    | cons piece pieces ih =>
      rw [List.flatten_cons, ← List.append_assoc]
      exact ih (hg.trans (takes_followAll _ g))
  exact hfrom ⟨[], .nil _, .nil f⟩

/-- For every stream, in any pieces, fed on whatever errors there are: what was taken off it are
whole frames, and the engine is what it is after the commands among their entries, each applied to
the database of the last selection before it that names one of its databases (the one selected at
the start, if there is none). If every selection taken names one of its databases, that is the last
selection. -/
theorem applies_to_selected (f : Follower) (pieces : List Bytes) :
    ∃ taken, Frame.Span taken (f.replica.pending ++ pieces.flatten) (f.feedOn pieces).replica.pending ∧
      let entries := taken.filterMap fun p => p.2.decoded?
      let n := f.engine.databases.length
      (f.feedOn pieces).engine = f.engine.applyAll
        (LogEntry.attributed f.replica.selected (entries.filter (LogEntry.Names n))) ∧
      ((∀ db, .select db ∈ entries → db < n) →
        (f.feedOn pieces).engine =
          f.engine.applyAll (LogEntry.attributed f.replica.selected entries)) := by
  obtain ⟨taken, hspan, hfollowed⟩ := takes_feedOn f pieces
  refine ⟨taken, hspan, hfollowed.engine, fun hall => ?_⟩
  have hnames : (taken.filterMap fun p => p.2.decoded?).filter
      (LogEntry.Names f.engine.databases.length) = taken.filterMap fun p => p.2.decoded? := by
    refine List.filter_eq_self.mpr fun e he => ?_
    cases e with
    | select db => exact decide_eq_true (hall db he)
    | command c => rfl
  rw [hfollowed.engine, hnames]

/-- A selection that is refused is no selection for the commands after it: the engine does not have
the database 99, and the command meant for it goes to the database 0. -/
theorem applies_to_other_than_selected :
    let set := Command.set [1] [10] [7] 5 0
    let entries := [.select 99, .command set]
    let stream := LogEntry.serializeAll entries
    let taken := entries.map fun e => (e.frame.serialize, e.frame)
    let f := Follower.new {} 1000
    let g := f.feedOn [stream, []]
    Frame.Span taken (f.replica.pending ++ [stream, []].flatten) g.replica.pending ∧
      taken.filterMap (fun p => p.2.decoded?) = entries ∧
      (f.feedOn [stream]).engine = f.engine ∧
      LogEntry.attributed f.replica.selected entries = [(99, set)] ∧
      g.engine.sent = [(0, set)] ∧
      g.engine ≠ f.engine.applyAll (LogEntry.attributed f.replica.selected entries) := by
  intro set entries stream taken f g
  have hsent : g.engine.sent = [(0, set)] := by decide +kernel
  have hnone : (f.engine.applyAll (LogEntry.attributed f.replica.selected entries)).sent = [] := by
    decide +kernel
  refine ⟨⟨by decide +kernel, ?_⟩, by decide +kernel, by decide +kernel, rfl, hsent, fun he => ?_⟩
  · have hshort : ∀ e ∈ entries, e.Legible 100 := by
      intro e he
      simp only [entries, List.mem_cons, List.not_mem_nil, or_false] at he
      rcases he with rfl | rfl
      · exact Nat.lt_succ_self 99
      · exact (by decide : set.Within Bytes.Short)
    intro p hp
    obtain ⟨e, he, rfl⟩ := List.mem_map.mp hp
    have hread := (Frame.reads_ofArgs (LogEntry.short_of_mem_args (hshort e he) (by decide))
      e.length_args_le).whole []
    rwa [List.append_nil] at hread
  · rw [he, hnone] at hsent
    cases hsent

end Follower
end ExpiringHash
