import ExpiringHash.Proofs.Engine.Keys
import ExpiringHash.Proofs.Replication.Publishing
import ExpiringHash.Replication.Replica

/-!
# Replicas converge

A follower may get the log of a publisher in pieces cut anywhere. It never fails, whatever part of
the log has arrived, and once all of it has, the follower has the keys of the publisher, its
indexes verify, and it has sent on what the publisher sent.
-/
namespace ExpiringHash

namespace Follower

/-- An engine that has followed nothing yet. -/
def new (config : Config) (now : UInt64) : Follower :=
  { replica := {}, engine := .new config now }

/-- What a follower can come to when it is fed bytes, while its clock and role change. -/
inductive Fed (f : Follower) : Bytes → Follower → Prop
  | start : Fed f [] f
  | feed {bs : Bytes} {g : Follower} (data : Bytes) :
      Fed f bs g → Fed f (bs ++ data) (stateOf ((feed data).run g))
  | setClock {bs : Bytes} {g : Follower} (now : UInt64) :
      Fed f bs g → Fed f bs { g with engine := { g.engine with now } }
  | setRole {bs : Bytes} {g : Follower} (role : Role) :
      Fed f bs g → Fed f bs { g with engine := { g.engine with role } }

/-- Where a publisher of `n` databases has come to and what it has sent, and how many databases the
follower has and in which layout. -/
structure Goal where
  n : Nat
  keys : Nat → KeySpace
  sent : List (Nat × Command)
  databases : Nat
  layout : Layout

variable {t : Goal} {g : Follower} {e : LogEntry} {todo : List LogEntry}

/-- The entries still to come take a follower to the goal. -/
structure Awaits (t : Goal) (todo : List LogEntry) (g : Follower) : Prop where
  replays : Replays t.n g.engine.keysAt (LogEntry.attributed g.replica.selected todo) t.keys
  sent : g.engine.sent ++ LogEntry.attributed g.replica.selected todo = t.sent
  length : g.engine.databases.length = t.databases
  inStep : ∀ d ∈ g.engine.databases, d.InStep t.layout

/-- What bytes wait for the rest of their frame makes no difference. -/
theorem Awaits.pending (h : g.Awaits t todo) (bs : Bytes) :
    Awaits t todo { g with replica := { g.replica with pending := bs } } :=
  ⟨h.replays, h.sent, h.length, h.inStep⟩

theorem run_keep (bs : Bytes) (g : Follower) :
    (keep bs).run g = .ok () { g with replica := { g.replica with pending := bs } } := rfl

theorem run_apply {c : Command} {d : Database} {w : Work}
    (hd : g.engine.databases[g.replica.selected]? = some d)
    (hrun : (Scope.apply c).run { database := d } = .ok () w) :
    (apply c).run g = .ok ()
      { replica := { g.replica with applied := g.replica.applied + 1 }
        engine := g.engine.absorb g.replica.selected w } := by
  have hrequest : (Request.apply g.replica.selected c).perform.run g.engine =
      .ok () (g.engine.absorb g.replica.selected w) := Engine.run_perform_apply hd hrun
  have hfollow : (request (.apply g.replica.selected c)).run g = .ok ()
      { g with engine := g.engine.absorb g.replica.selected w } := by
    change request (.apply g.replica.selected c) g = _
    rw [request, hrequest]
  change EStateM.run (request (.apply g.replica.selected c) >>= fun _ => modify _) g = _
  rw [EStateM.run_bind, hfollow]
  rfl

/-- The next entry is followed. -/
theorem Awaits.follow (h : g.Awaits t (e :: todo)) (he : e.Legible t.n) (hn : t.n ≤ Numeral.wordBound)
    (hd : t.n ≤ t.databases) :
    ∃ k g', (follow e.args).run g = .ok k g' ∧ g'.Awaits t todo := by
  have hargs := LogEntry.ofArgs_args he hn
  cases e with
  | select db =>
    have hdb : db < g.engine.databases.length := h.length ▸ Nat.lt_of_lt_of_le he hd
    refine ⟨0, { g with replica := { g.replica with selected := db } }, ?_, ?_⟩
    · rw [follow, hargs]
      change EStateM.run ((if db < g.engine.databases.length then modify _ else throw _) >>= fun _ =>
        pure 0) g = _
      rw [if_pos hdb]
      rfl
    · exact ⟨h.replays, h.sent, h.length, h.inStep⟩
  | command c =>
    cases h.replays with
    | cons hdb hc hrest =>
      have hlt : g.replica.selected < g.engine.databases.length :=
        h.length ▸ Nat.lt_of_lt_of_le hdb hd
      have hget := List.getElem?_eq_getElem hlt
      obtain ⟨w, hrun, hkeys⟩ := hc.run (w := { database := g.engine.databases[g.replica.selected] })
        (Engine.keysAt_of_getElem? hget).symm
      have hin := h.inStep _ (List.getElem_mem hlt)
      have heffect := (Work.Sound.of_tidy hin.tidy).effect_of_run (fun _ _ => trivial) hrun
      refine ⟨1, { replica := { g.replica with applied := g.replica.applied + 1 }
                   engine := g.engine.absorb g.replica.selected w }, ?_, ?_⟩
      · rw [LogEntry.args] at hargs ⊢
        rw [follow, hargs]
        dsimp only
        rw [EStateM.run_bind, run_apply hget hrun]
        rfl
      · refine ⟨?_, ?_, ?_, fun d hm => ?_⟩
        · rw [Engine.keysAt_absorb hget, hkeys]
          exact hrest
        · rw [Engine.sent_absorb, heffect.emitted, ← h.sent, List.append_assoc]
          rfl
        · exact (Engine.length_databases_absorb ..).trans h.length
        · rcases Engine.mem_absorb hm with hm | rfl
          · exact h.inStep d hm
          · exact heffect.inStep hin

theorem run_followAll_incomplete {bs : Bytes} (h : Pull.of bs = .incomplete) (g : Follower) :
    (followAll bs).run g = .ok 0 { g with replica := { g.replica with pending := bs } } := by
  rw [followAll]
  split
  · rfl
  · next he => cases h.symm.trans he
  · next he => cases h.symm.trans he

theorem run_followAll_command {bs rest : Bytes} {args : List Bytes}
    (h : Pull.of bs = .command args rest) (g : Follower) :
    (followAll bs).run g =
      (do
        keep rest
        let n ← follow args
        return n + (← followAll rest) : FollowerM Nat).run g := by
  rw [followAll]
  split
  · next he => cases h.symm.trans he
  · next he => cases h.symm.trans he
  · next he =>
    obtain ⟨rfl, rfl⟩ := Pull.command.inj (he.symm.trans h)
    rfl

/-- Whatever part of the entries still to come has arrived is followed as far as it goes. -/
theorem Awaits.followAll (hn : t.n ≤ Numeral.wordBound) (hd : t.n ≤ t.databases)
    (hlegible : ∀ e ∈ todo, e.Legible t.n) {bs : Bytes} (hbs : bs <+: LogEntry.serializeAll todo)
    (h : g.Awaits t todo) :
    ∃ k g' done rest, (followAll bs).run g = .ok k g' ∧ todo = done ++ rest ∧
      bs = LogEntry.serializeAll done ++ g'.replica.pending ∧
      Pull.of g'.replica.pending = .incomplete ∧ g'.Awaits t rest := by
  have hstop {todo : List LogEntry} {bs : Bytes} {g : Follower} (h : g.Awaits t todo)
      (hcut : Pull.of bs = .incomplete) :
      ∃ k g' done rest, (Follower.followAll bs).run g = .ok k g' ∧ todo = done ++ rest ∧
        bs = LogEntry.serializeAll done ++ g'.replica.pending ∧
        Pull.of g'.replica.pending = .incomplete ∧ g'.Awaits t rest :=
    ⟨0, _, [], todo, run_followAll_incomplete hcut g, rfl, rfl, hcut, h.pending bs⟩
  induction todo generalizing bs g with
  | nil =>
    obtain rfl := List.prefix_nil.mp hbs
    exact hstop h rfl
  | cons e todo ih =>
    have he := hlegible e List.mem_cons_self
    have hshort := LogEntry.short_of_mem_args he hn
    rcases prefix_append_cases hbs with ⟨hcut, hne⟩ | ⟨rest, rfl, hrest⟩
    · exact hstop h (Pull.of_cut hshort e.length_args_le hcut hne)
    · obtain ⟨k, g', hfollow, hg'⟩ := (h.pending rest).follow he hn hd
      obtain ⟨k', g'', done, rest', hrun, htodo, hdone, hpending, hawaits⟩ :=
        ih (fun f hf => hlegible f (List.mem_cons_of_mem e hf)) hrest hg'
      refine ⟨k + k', g'', e :: done, rest', ?_, congrArg (e :: ·) htodo, ?_, hpending, hawaits⟩
      · have hpull := Pull.of_append hshort e.length_args_le rest
        refine (run_followAll_command hpull g).trans ?_
        rw [EStateM.run_bind, run_keep]
        dsimp only
        rw [EStateM.run_bind, hfollow]
        dsimp only
        rw [EStateM.run_bind, hrun]
        rfl
      · rw [hdone, LogEntry.serializeAll, LogEntry.serializeAll, List.flatMap_cons, List.append_assoc]

/-- A follower has taken in some bytes of the entries and awaits the rest. -/
def Reading (t : Goal) (entries : List LogEntry) (fed : Bytes) (g : Follower) : Prop :=
  ∃ done todo, entries = done ++ todo ∧
    fed = LogEntry.serializeAll done ++ g.replica.pending ∧
    Pull.of g.replica.pending = .incomplete ∧ g.Awaits t todo

variable {entries : List LogEntry} {fed : Bytes}

/-- More bytes of the entries are taken in without an error. -/
theorem Reading.feed (hn : t.n ≤ Numeral.wordBound) (hd : t.n ≤ t.databases)
    (hlegible : ∀ e ∈ entries, e.Legible t.n) (h : Reading t entries fed g) {data : Bytes}
    (hdata : fed ++ data <+: LogEntry.serializeAll entries) :
    ∃ k g', (feed data).run g = .ok k g' ∧ Reading t entries (fed ++ data) g' := by
  obtain ⟨done, todo, rfl, rfl, -, hawaits⟩ := h
  rw [LogEntry.serializeAll_append, List.append_assoc, List.prefix_append_right_inj] at hdata
  obtain ⟨k, g', done', rest, hrun, rfl, hbytes, hpending, hrest⟩ :=
    hawaits.followAll hn hd (fun e he => hlegible e (List.mem_append_right _ he)) hdata
  refine ⟨k, g', hrun, done ++ done', rest, (List.append_assoc ..).symm, ?_, hpending, hrest⟩
  rw [List.append_assoc, hbytes, LogEntry.serializeAll_append, List.append_assoc]

/-- Once all bytes have been taken in, nothing is left to come. -/
theorem Reading.awaits_nil (hn : t.n ≤ Numeral.wordBound) (hlegible : ∀ e ∈ entries, e.Legible t.n)
    (h : Reading t entries (LogEntry.serializeAll entries) g) : g.Awaits t [] := by
  obtain ⟨done, todo, rfl, hbytes, hpending, hawaits⟩ := h
  rw [LogEntry.serializeAll_append, List.append_cancel_left_eq] at hbytes
  cases todo with
  | nil => exact hawaits
  | cons e todo =>
    -- a whole frame would have been followed
    have he := hlegible e (List.mem_append_right _ List.mem_cons_self)
    have hwhole := Pull.of_append (LogEntry.short_of_mem_args he hn) e.length_args_le
      (LogEntry.serializeAll todo)
    rw [← hbytes] at hpending
    cases hwhole.symm.trans hpending

theorem Reading.of_fed {f : Follower} (hn : t.n ≤ Numeral.wordBound) (hd : t.n ≤ t.databases)
    (hlegible : ∀ e ∈ entries, e.Legible t.n) (h : f.Fed fed g)
    (hfed : fed <+: LogEntry.serializeAll entries) (hf : Reading t entries [] f) :
    Reading t entries fed g := by
  induction h with
  | start => exact hf
  | feed data _ ih =>
    obtain ⟨k, g', hrun, hg'⟩ :=
      (ih ((List.prefix_append ..).trans hfed)).feed hn hd hlegible hfed
    rw [hrun]
    exact hg'
  | setClock now _ ih =>
    obtain ⟨done, todo, hentries, hbytes, hpending, h⟩ := ih hfed
    exact ⟨done, todo, hentries, hbytes, hpending, h.replays, h.sent, h.length, h.inStep⟩
  | setRole role _ ih =>
    obtain ⟨done, todo, hentries, hbytes, hpending, h⟩ := ih hfed
    exact ⟨done, todo, hentries, hbytes, hpending, h.replays, h.sent, h.length, h.inStep⟩

/-- What a publisher has come to is where a follower is to come. -/
def Goal.of (p : Publisher) (n : Nat) (config : Config) : Goal :=
  ⟨n, p.engine.keysAt, p.sent, config.databases, config.layout⟩

variable {p : Publisher} {n : Nat}

/-- A new follower has all that was sent before it. -/
theorem Reading.new (hs : p.Sound n) (config : Config) (now : UInt64) :
    Reading (.of p n config) (ReplicationLog.entriesForAll none p.sent) [] (.new config now) := by
  have hattributed := @LogEntry.attributed_entriesForAll none 0 (fun db he => by cases he) p.sent
  refine ⟨[], _, rfl, rfl, rfl, ?_, hattributed, List.length_replicate,
    Engine.forall_mem_new now (.new config.layout)⟩
  change Replays n (Engine.new config now).keysAt (LogEntry.attributed 0 _) _
  rw [hattributed, Engine.keysAt_new]
  exact hs.replays

/-- With nothing left to come the follower is where it was to come. -/
theorem Awaits.arrived (h : g.Awaits t []) :
    g.engine.keysAt = t.keys ∧ g.engine.sent = t.sent := by
  have hreplays := h.replays
  refine ⟨?_, (List.append_nil _).symm.trans h.sent⟩
  generalize g.engine.keysAt = ks at hreplays ⊢
  cases hreplays
  rfl

/-- A follower that was fed all that a publisher sent has its keys, in databases of its own number. -/
theorem keysAt_of_fed {config config' : Config} {now now' : UInt64} {p : Publisher}
    (hp : (Publisher.new config now).Reaches p) (hn : config.databases ≤ Numeral.wordBound)
    (hd : config.databases ≤ config'.databases) (hg : (Follower.new config' now').Fed p.taken g)
    (hempty : p.log.bytes = []) :
    g.engine.keysAt = p.engine.keysAt ∧ g.engine.databases.length = config'.databases := by
  have hs := Publisher.Sound.of_reaches hp (.new config now)
  have hlegible := LogEntry.legible_entriesForAll none hs.within
  have hbytes := hs.bytes
  rw [hempty, List.append_nil] at hbytes
  have hreading :=
    Reading.of_fed hn hd hlegible hg (hbytes ▸ List.prefix_rfl) (.new hs config' now')
  rw [hbytes] at hreading
  have hdone := hreading.awaits_nil hn hlegible
  exact ⟨hdone.arrived.1, hdone.length⟩

/-- Feeding a follower any pieces of what a publisher has written never fails, and when all that the
publisher sent has been fed, the follower has the same keys, verifies, and has sent the same. The
number of a database travels as a word. -/
theorem converges_with_publisher {config config' : Config} {now now' : UInt64} {p : Publisher}
    (hp : (Publisher.new config now).Reaches p) (hn : config.databases ≤ Numeral.wordBound)
    (hd : config.databases ≤ config'.databases) (hg : (Follower.new config' now').Fed fed g)
    (hfed : fed <+: p.taken) :
    (∀ data, fed ++ data <+: p.taken → ∃ k g', (Follower.feed data).run g = .ok k g') ∧
      (fed = p.taken → p.log.bytes = [] →
        g.engine.sent = p.sent ∧ g.engine.databases.length = config'.databases ∧
        ∀ db d, g.engine.databases[db]? = some d →
          d.keys = p.engine.keysAt db ∧ g.engine.answer db .verify = .ok ()) := by
  have hs := Publisher.Sound.of_reaches hp (.new config now)
  have hlegible := LogEntry.legible_entriesForAll none hs.within
  have hprefix : p.taken <+: LogEntry.serializeAll (ReplicationLog.entriesForAll none p.sent) :=
    hs.bytes ▸ List.prefix_append ..
  have hreading := Reading.of_fed hn hd hlegible hg (hfed.trans hprefix) (.new hs config' now')
  refine ⟨fun data hdata => ?_, fun hall hempty => ?_⟩
  · obtain ⟨k, g', hrun, -⟩ := hreading.feed hn hd hlegible (hdata.trans hprefix)
    exact ⟨k, g', hrun⟩
  · have hbytes := hs.bytes
    rw [hempty, List.append_nil, ← hall] at hbytes
    rw [hbytes] at hreading
    have hdone := hreading.awaits_nil hn hlegible
    obtain ⟨hkeys, hsent⟩ := hdone.arrived
    refine ⟨hsent, hdone.length, fun db d hdb => ?_⟩
    have hd' := hdone.inStep d (List.mem_of_getElem? hdb)
    rw [Engine.answer, Engine.database, hdb, ← Engine.keysAt_of_getElem? hdb, hkeys]
    exact ⟨rfl, hd'.verify_eq_ok db⟩

/-- An expired field is reclaimed by a read between two drains, and the log arrives in two pieces of
which the first ends within a frame. -/
theorem converges_with_publisher_pieces :
    let new := Publisher.new {} 1000
    let written := (new.after (.write 0 (.set [1] [10] [7] { ttl := .set (.after 5) }))).after
      (.write 3 (.incrBy [2] [20] 41 {} .next .keep))
    let p := (((written.drain).after (.setClock 2000)).after (.read 0 (.get [1] [10]))).drain
    let f := Follower.new { layout := .fine } 0
    let half := stateOf ((feed (p.taken.take 30)).run f)
    let replica := { half with engine := { half.engine with role := .replica } }
    let g := stateOf ((feed (p.taken.drop 30)).run replica)
    new.Reaches p ∧ f.Fed p.taken g ∧ half.replica.pending ≠ [] ∧
      g.engine.sent = p.sent ∧
      p.sent.map (·.1) = [0, 3, 0, 0] ∧
      ∀ db d, g.engine.databases[db]? = some d →
        d.keys = p.engine.keysAt db ∧ g.engine.answer db .verify = .ok () := by
  intro new written p f half replica g
  have hp : new.Reaches p :=
    .drain (.step _ (.step _ (.drain (.step _ (.step _ .refl trivial (by decide)) trivial
      (by decide))) trivial (by decide)) trivial (by decide))
  have hg : f.Fed p.taken g :=
    List.take_append_drop 30 p.taken ▸ .feed _ (.setRole .replica (.feed (p.taken.take 30) .start))
  obtain ⟨hsent, -, hkeys⟩ :=
    (converges_with_publisher hp (by decide) (by decide) hg List.prefix_rfl).2 rfl rfl
  exact ⟨hp, hg, by decide +kernel, hsent, by decide +kernel, hkeys⟩

end Follower

end ExpiringHash
