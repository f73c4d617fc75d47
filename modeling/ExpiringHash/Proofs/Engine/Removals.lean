import ExpiringHash.Proofs.Engine.Failures

/-!
# Removals are accounted for

On a primary, a record goes only because it has expired or because its deletion was asked for. Each
removal of an expired record is counted once and told by one command, in whichever of the ways it is
met, and a key that is left without records goes with a command of its own. So over a run of requests
about fields, the commands that tell of deleted fields are as many as the counters say have expired and
the deletes have reported.
-/
namespace ExpiringHash

variable {α : Type}

namespace Request

/-- A request about the fields of a database or a tick: no request about whole keys, no notice of the
host, no replicated command, and no change of the clock or the role. -/
def IsPlain : Request α → Prop
  | .write .. | .delete .. | .read .. | .query .. | .expire .. | .tick _ => True
  | _ => False

/-- The events that a request may cause. -/
def May : Request α → Nat × Event → Prop
  | .write db _, ev => ev.1 = db ∧ (ev.2.isReclaim .passive || ev.2.isStore) = true
  | .delete db _, ev => ev.1 = db ∧ (ev.2.isReclaim .passive || mayDelete ev.2) = true
  | .read db _, ev => ev.1 = db ∧ ev.2.isReclaim .passive = true
  | .expire db _, ev => ev.1 = db ∧ ev.2.isReclaim .active = true
  | .tick _, ev => ev.2.isReclaim .active = true
  | _, _ => False

/-- How many fields of a database the answer to a request reports as deleted on request. -/
def reported (db : Nat) : ∀ {α : Type}, Request α → α → Nat
  | _, .delete other d, a => if db = other then d.count a else 0
  | _, _, _ => 0

end Request

namespace Engine

variable {e e' f : Engine} {db : Nat} {d : Database} {evs : List (Nat × Event)} {r : Request α}

/-- How many fields of a database a request reports as deleted on request; none if it fails. -/
def reported (e : Engine) (db : Nat) (r : Request α) : Nat :=
  match r.perform.run e with
  | .ok a _ => r.reported db a
  | .error .. => 0

/-- What a request does is accounted for by events. -/
structure Accounted (e : Engine) (r : Request α) (evs : List (Nat × Event)) : Prop where
  /-- The events lead to the engine after the request, and the commands sent are theirs. -/
  accounts : Accounts evs e (e.after r)
  may : ∀ ev ∈ evs, r.May ev
  /-- Live fields are deleted as often as is reported. -/
  deletions : ∀ db, (eventsOf db evs).countP (·.isDeletion) = e.reported db r
  /-- A record that is gone has been removed by an event. -/
  removed : ∀ {db d d' key field r'}, e.databases[db]? = some d →
    (e.after r).databases[db]? = some d' → d.record? key field = some r' →
    d'.record? key field = none →
    ∃ ev, (db, ev) ∈ evs ∧ ev.isRemoval = true ∧ ev.key = key ∧ ev.field? = some field
  /-- A key that a removal has left without records is gone, and a command says so. -/
  settled : ∀ {db d' ev}, (db, ev) ∈ evs → ev.isRemoval = true →
    (e.after r).databases[db]? = some d' → (∀ field, d'.record? ev.key field = none) →
    d'.keys.get? ev.key = none ∧ (db, .deleteKey ev.key) ∈ commandsOf evs

theorem mem_commandsOf {c : Command} :
    (db, c) ∈ commandsOf evs ↔ c ∈ (eventsOf db evs).flatMap Event.commands := by
  simp only [commandsOf, List.mem_flatMap, List.mem_map, Prod.mk.injEq]
  constructor
  · rintro ⟨⟨db', ev⟩, hm, c', hc, rfl, rfl⟩
    exact ⟨ev, mem_eventsOf.mpr hm, hc⟩
  · rintro ⟨ev, hm, hc⟩
    exact ⟨(db, ev), mem_eventsOf.mp hm, c, hc, rfl, rfl⟩

theorem Accounts.source (h : Accounts evs e e') {d' : Database} (hd' : e'.databases[db]? = some d') :
    ∃ d, e.databases[db]? = some d ∧ d.Course e.now (eventsOf db evs) d' := by
  have hlt : db < e.databases.length := h.length ▸ (List.getElem?_eq_some_iff.mp hd').1
  have hd : e.databases[db]? = some e.databases[db] := List.getElem?_eq_getElem hlt
  obtain ⟨d'', hd'', hcourse⟩ := h.course hd
  cases hd''.symm.trans hd'
  exact ⟨_, hd, hcourse⟩

/-- It is enough that no container that an event is about is left without fields. -/
theorem Accounted.of_accounts (haccounts : Accounts evs e (e.after r)) (hmay : ∀ ev ∈ evs, r.May ev)
    (hdeletions : ∀ db, (eventsOf db evs).countP (·.isDeletion) = e.reported db r)
    (hempty : ∀ {db d' ev}, (db, ev) ∈ evs → (e.after r).databases[db]? = some d' →
      d'.keys.holdsEmpty ev.key = false) : e.Accounted r evs where
  accounts := haccounts
  may := hmay
  deletions := hdeletions
  removed {db d d' key field r'} hd hd' hr hnone := by
    obtain ⟨d'', hd'', hcourse⟩ := haccounts.course hd
    cases hd''.symm.trans hd'
    obtain ⟨ev, hm, hev⟩ := hcourse.exists_isRemoval hr hnone
    exact ⟨ev, mem_eventsOf.mp hm, hev⟩
  settled {db d' ev} hm hremoval hd' hnone := by
    obtain ⟨d, -, hcourse⟩ := haccounts.source hd'
    obtain ⟨habsent, htold⟩ :=
      hcourse.settles (mem_eventsOf.mpr hm) hremoval (hempty hm hd') hnone
    exact ⟨habsent, mem_commandsOf.mpr htold⟩

/-- Where nothing is deleted on request, no container is left without fields. -/
theorem Accounted.of_no_deletion (haccounts : Accounts evs e (e.after r))
    (hmay : ∀ ev ∈ evs, r.May ev) (hno : ∀ ev ∈ evs, ev.2.isDeletion = false)
    (hreported : ∀ db, e.reported db r = 0) : e.Accounted r evs := by
  refine .of_accounts haccounts hmay (fun db => ?_) fun {db d' ev} hm hd' => ?_
  · rw [hreported, List.countP_eq_zero]
    exact fun ev hm => Bool.eq_false_iff.mp (hno _ (mem_eventsOf.mp hm))
  · obtain ⟨d, -, hcourse⟩ := haccounts.source hd'
    exact (hcourse.settled fun ev hm => hno _ (mem_eventsOf.mp hm)).2 ev (mem_eventsOf.mpr hm)

theorem Accounted.unchanged (h : e.after r = e) (hreported : ∀ db, e.reported db r = 0) :
    e.Accounted r [] :=
  .of_no_deletion (h.symm ▸ .refl e) nofun nofun hreported

theorem reported_of_error {err : HashError} (hrun : r.perform.run e = .error err e') (db : Nat) :
    e.reported db r = 0 := by
  rw [reported, hrun]

theorem reported_eq_zero (h : ∀ other a, r.reported other a = 0) (db : Nat) : e.reported db r = 0 := by
  unfold reported
  split
  · exact h ..
  · rfl

theorem after_of_run {res : EStateM.Result HashError Engine α} (hrun : r.perform.run e = res) :
    e.after r = stateOf res := by
  rw [after_eq, hrun]

/-- An action on one database is accounted for by its events. -/
theorem accounted_onDatabase {action : Scope → DatabaseM α} {key : Bytes} {may : Event → Bool}
    {count : α → Nat} (ht : ∀ d ∈ e.databases, d.keys.Tidy) (hp : e.role = .primary)
    (hrun : r.perform.run e = (onDatabase db action).run e)
    (hends : ∀ w : Work, w.database.keys.Tidy →
      Ends (e.scope db) key may count w ((action (e.scope db)).run w))
    (hreported : ∀ other a, r.reported other a = if other = db then count a else 0)
    (hmay : ∀ ev, (ev.isReclaim .passive || may ev) = true → r.May (db, ev)) :
    ∃ evs, e.Accounted r evs := by
  rw [run_onDatabase] at hrun
  cases hd : e.databases[db]? with
  | none =>
    rw [hd] at hrun
    exact ⟨[], .unchanged (after_of_run hrun) (reported_of_error hrun)⟩
  | some d =>
    rw [hd] at hrun
    have hends := hends { database := d } (ht d (List.mem_of_getElem? hd))
    have hd' {w : Work} := getElem?_absorb_self hd w
    revert hrun
    dsimp only
    generalize (action (e.scope db)).run { database := d } = res at hends
    cases hends with
    | @ok a w evs hlogs hevs hn hs =>
      intro hrun
      have hafter : e.after r = e.absorb db w := after_of_run hrun
      refine ⟨evs.map (db, ·), .of_accounts (hafter ▸ .absorb hd hlogs) ?_ (fun other => ?_) ?_⟩
      · intro ev hm
        obtain ⟨ev, hev, rfl⟩ := List.mem_map.mp hm
        exact hmay ev (hevs ev hev).2
      · rw [reported, hrun]
        dsimp only
        rw [hreported]
        split
        · next ho => rw [ho, eventsOf_self, hn]
        · next ho => rw [eventsOf_of_ne ho, List.countP_nil]
      · intro other d' ev hm ho
        obtain ⟨ev, hev, he⟩ := List.mem_map.mp hm
        cases he
        rw [hafter] at ho
        cases hd'.symm.trans ho
        rw [(hevs ev hev).1]
        exact hs (decide_eq_true hp) (List.ne_nil_of_mem hev)
    | @refused err w hswept =>
      intro hrun
      have hafter : e.after r = e.absorb db w := after_of_run hrun
      obtain ⟨evs, hlogs, hevs⟩ := hswept
      have hreclaim : ∀ ev ∈ evs.map (db, ·), ev.1 = db ∧ ev.2.isReclaim .passive = true := by
        intro ev hm
        obtain ⟨ev, hev, rfl⟩ := List.mem_map.mp hm
        exact ⟨rfl, (hevs ev hev).2⟩
      refine ⟨evs.map (db, ·), .of_no_deletion (hafter ▸ .absorb hd hlogs) (fun ev hm => ?_)
        (fun ev hm => Event.isDeletion_of_isReclaim (hreclaim ev hm).2) (reported_of_error hrun)⟩
      obtain ⟨hdb, hpassive⟩ := hreclaim ev hm
      obtain ⟨_, ev⟩ := ev
      cases hdb
      exact hmay ev (by rw [hpassive, Bool.true_or])
    | mistyped =>
      intro hrun
      have hafter : e.after r = e := (after_of_run hrun).trans (absorb_self hd)
      exact ⟨[], .unchanged hafter (reported_of_error hrun)⟩

/-- A request that is refused for its options changes nothing. -/
theorem accounted_ofExcept {check : Except HashError Unit} {x : EngineM α}
    (hperform : r.perform = (MonadExcept.ofExcept check >>= fun _ => x))
    (h : check = .ok () → r.perform.run e = x.run e → ∃ evs, e.Accounted r evs) :
    ∃ evs, e.Accounted r evs := by
  have hrun : r.perform.run e = (MonadExcept.ofExcept check >>= fun _ => x).run e := by rw [hperform]
  rw [run_ofExcept_bind] at hrun
  cases check with
  | error err => exact ⟨[], .unchanged (after_of_run hrun) (reported_of_error hrun)⟩
  | ok => exact h rfl hrun

/-- Whatever a plain request does on a primary is accounted for. -/
theorem accounted_perform {l : Layout} (h : ∀ d ∈ e.databases, d.Anchored l)
    (hp : e.role = .primary) (hr : r.IsPlain) : ∃ evs, e.Accounted r evs := by
  have ht : ∀ d ∈ e.databases, d.keys.Tidy := fun d hd => (h d hd).tidy
  cases r with
  | write db w =>
    refine accounted_ofExcept rfl fun hv hrun => ?_
    exact accounted_onDatabase ht hp hrun (fun _ => ends_write _ hv) (fun _ _ => (ite_self 0).symm)
      fun ev hev => ⟨rfl, hev⟩
  | delete db d =>
    refine accounted_ofExcept rfl fun hv hrun => ?_
    exact accounted_onDatabase ht hp hrun (fun _ => ends_delete _ hv) (fun _ _ => rfl)
      fun ev hev => ⟨rfl, hev⟩
  | read db read =>
    have hrun : (Request.read db read).perform.run e = (onDatabase db fun s => read.action s).run e := rfl
    refine accounted_onDatabase ht hp hrun (fun _ => ends_read _ read)
      (fun _ _ => (ite_self 0).symm) fun ev hev => ⟨rfl, ?_⟩
    rwa [Bool.or_false] at hev
  | query db q =>
    have hrun : (Request.query db q).perform.run e =
      (MonadExcept.ofExcept (e.answer db q) : EngineM α).run e := rfl
    refine ⟨[], .unchanged ?_ (reported_eq_zero fun _ _ => rfl)⟩
    rw [after_of_run hrun]
    cases e.answer db q <;> rfl
  | expire db budget =>
    cases hd : e.databases[db]? with
    | none =>
      have hrun : (Request.expire db budget).perform.run e = .error (.invalidDatabase db) e := by
        rw [Request.perform, activeExpire, run_onDatabase, hd]
      exact ⟨[], .unchanged (after_of_run hrun) (reported_of_error hrun)⟩
    | some d =>
      obtain ⟨n, e', evs, hrun, haccounts, hevs, -⟩ := accounts_activeExpire h hd budget
      have hafter : e.after (.expire db budget) = e' :=
        after_of_run (r := .expire db budget) hrun
      have hreclaim : ∀ ev ∈ evs.map (db, ·), ev.1 = db ∧ ev.2.isReclaim .active = true := by
        intro ev hm
        obtain ⟨ev, hev, rfl⟩ := List.mem_map.mp hm
        exact ⟨rfl, hevs ev hev⟩
      exact ⟨_, .of_no_deletion (hafter ▸ haccounts) hreclaim
        (fun ev hm => Event.isDeletion_of_isReclaim (hreclaim ev hm).2)
        (reported_eq_zero fun _ _ => rfl)⟩
  | tick elapsed =>
    obtain ⟨n, e', evs, hrun, haccounts, hevs⟩ := accounts_tick elapsed h
    have hafter : e.after (.tick elapsed) = e' := after_of_run (r := .tick elapsed) hrun
    exact ⟨evs, .of_no_deletion (hafter ▸ haccounts) hevs
      (fun ev hm => Event.isDeletion_of_isReclaim (hevs ev hm)) (reported_eq_zero fun _ _ => rfl)⟩
  | setClock => cases hr
  | key => cases hr
  | notice => cases hr
  | apply => cases hr
  | setRole => cases hr

/-- What plain requests at arbitrary times make of an engine, and how many fields of a database they
report as deleted on request. -/
inductive Ran (db : Nat) (e : Engine) : Nat → Engine → Prop
  | refl : Ran db e 0 e
  | step {α : Type} {n : Nat} {f : Engine} (r : Request α) (h : Ran db e n f) (hr : r.IsPlain) :
      Ran db e (n + f.reported db r) (f.after r)
  | clock {n : Nat} {f : Engine} (now : UInt64) (h : Ran db e n f) :
      Ran db e n (f.after (.setClock now))

/-- So many fields of a database have been reclaimed for either reason and so many deleted on request:
the counters and the commands sent tell of them. -/
structure Tallied (db active passive deleted : Nat) (e e' : Engine) : Prop where
  database : ∃ d d', e.databases[db]? = some d ∧ e'.databases[db]? = some d' ∧
    d'.tally.active = d.tally.active + UInt64.ofNat active ∧
    d'.tally.passive = d.tally.passive + UInt64.ofNat passive
  sent : ∃ told, e'.sent = e.sent ++ told ∧
    told.countP (fun c => c.1 = db ∧ c.2.isDelete) = active + passive + deleted

namespace Tallied

theorem refl (hd : e.databases[db]? = some d) : Tallied db 0 0 0 e e where
  database := ⟨d, d, hd, hd, (UInt64.add_zero _).symm, (UInt64.add_zero _).symm⟩
  sent := ⟨[], (List.append_nil _).symm, rfl⟩

theorem trans {a p n a' p' n' : Nat} {e'' : Engine} (h : Tallied db a p n e e')
    (h' : Tallied db a' p' n' e' e'') : Tallied db (a + a') (p + p') (n + n') e e'' where
  database := by
    obtain ⟨d, d₁, hd, hd₁, ha, hp⟩ := h.database
    obtain ⟨d₂, d', hd₂, hd', ha', hp'⟩ := h'.database
    cases hd₁.symm.trans hd₂
    refine ⟨d, d', hd, hd', ?_, ?_⟩
    · rw [ha', ha, UInt64.ofNat_add, UInt64.add_assoc]
    · rw [hp', hp, UInt64.ofNat_add, UInt64.add_assoc]
  sent := by
    obtain ⟨told, hsent, hn⟩ := h.sent
    obtain ⟨told', hsent', hn'⟩ := h'.sent
    refine ⟨told ++ told', by rw [hsent', hsent, List.append_assoc], ?_⟩
    rw [List.countP_append, hn, hn']
    omega

end Tallied

theorem countP_commandsOf (db : Nat) (evs : List (Nat × Event)) :
    (commandsOf evs).countP (fun c => c.1 = db ∧ c.2.isDelete) =
      ((eventsOf db evs).flatMap Event.commands).countP Command.isDelete := by
  induction evs with
  | nil => rfl
  | cons ev evs ih =>
    rw [← List.singleton_append, commandsOf_append, eventsOf_append, List.flatMap_append,
      List.countP_append, List.countP_append, ih, commandsOf, List.flatMap_singleton, List.countP_map]
    congr 1
    by_cases h : ev.1 = db <;> simp [eventsOf, h, Function.comp_def]

/-- What is accounted for is tallied. -/
theorem Accounted.tallied (h : e.Accounted r evs) (hd : e.databases[db]? = some d) :
    ∃ active passive, Tallied db active passive (e.reported db r) e (e.after r) := by
  obtain ⟨d', hd', hcourse⟩ := h.accounts.course hd
  refine ⟨_, _, ⟨d, d', hd, hd', hcourse.tally⟩, _, h.accounts.sent, ?_⟩
  rw [countP_commandsOf, hcourse.countP_commands, h.deletions]

namespace Ran

variable {l : Layout} {n : Nat}

theorem reaches {kind : ∀ α : Type, Request α → Prop} {g : Engine} (hg : g.Reaches kind e)
    (h : e.Ran db n f) (hk : ∀ α r, kind α r) : g.Reaches kind f := by
  induction h with
  | refl => exact hg
  | step r _ _ ih => exact .step r ih (hk _ r)
  | clock now _ ih => exact .step _ ih (hk _ _)

/-- A primary stays one. -/
theorem role (h : e.Ran db n f) (hanchored : ∀ {n g}, e.Ran db n g → ∀ d ∈ g.databases, d.Anchored l)
    (hp : e.role = .primary) : f.role = .primary := by
  induction h with
  | refl => exact hp
  | step r h hr ih =>
    obtain ⟨evs, haccounted⟩ := accounted_perform (hanchored h) ih hr
    exact haccounted.accounts.role.trans ih
  | clock _ _ ih => exact ih

theorem tallied (h : e.Ran db n f) (hanchored : ∀ {n g}, e.Ran db n g → ∀ d ∈ g.databases, d.Anchored l)
    (hp : e.role = .primary) (hd : e.databases[db]? = some d) :
    ∃ active passive, Tallied db active passive n e f := by
  induction h with
  | refl => exact ⟨0, 0, .refl hd⟩
  | @step _ n f r h hr ih =>
    obtain ⟨a, p, htallied⟩ := ih
    obtain ⟨d, d', -, hd', -⟩ := htallied.database
    obtain ⟨evs, haccounted⟩ := accounted_perform (hanchored h) (h.role hanchored hp) hr
    obtain ⟨a', p', htallied'⟩ := haccounted.tallied hd'
    exact ⟨a + a', p + p', htallied.trans htallied'⟩
  | @clock n f now h ih =>
    obtain ⟨a, p, htallied⟩ := ih
    exact ⟨a, p, htallied.database, htallied.sent⟩

end Ran

/-- On a primary, whatever a request about fields or a tick does is accounted for: a record is removed
only because it has expired, which is counted once and told by one command, or because its deletion
was asked for, and a key that is left without records goes. Over a run of such requests at arbitrary
times, as many commands tell of deleted fields as have been counted and reported. -/
theorem expiry_accounted {config : Config} {now : UInt64} {n : Nat}
    (h : (new config now).Reaches (fun _ _ => True) e) (hp : e.role = .primary)
    (hrun : e.Ran db n f) :
    (∀ {α : Type} (r : Request α), r.IsPlain → ∃ evs, f.Accounted r evs) ∧
      ∀ d, e.databases[db]? = some d → ∃ active passive, Tallied db active passive n e f := by
  have hanchored {n : Nat} {g : Engine} (hrun : e.Ran db n g) :
      ∀ d ∈ g.databases, d.Anchored config.layout :=
    anchored_of_reaches (hrun.reaches h fun _ _ => trivial)
  exact ⟨fun r hr => accounted_perform (hanchored hrun) (hrun.role hanchored hp) hr,
    fun d hd => hrun.tallied hanchored hp hd⟩

/-- One expired field is met by a read, another by a tick, and a live one is deleted on request together
with its key. -/
theorem expiry_accounted_ways :
    let new := Engine.new {} 1000
    let e := (new.after (.write 2 (.set [1] [10] [52] { ttl := .set (.after 5) }))).after
      (.write 2 (.set [1] [11] [53] { ttl := .set (.after 5) }))
    let written := e.after (.write 2 (.set [1] [12] [54] {}))
    let expired := (written.after (.setClock 1005)).after (.read 2 (.get [1] [10]))
    let ticked := expired.after (.tick 1)
    let f := ticked.after (.delete 2 (.all [1] [[12], [13]]))
    e.Ran 2 1 f ∧ (f.databases[2]?).map (·.tally) = some ⟨1, 1⟩ ∧
      f.sent = written.sent ++
        [(2, .delete [1] [10]), (2, .delete [1] [11]), (2, .delete [1] [12]), (2, .deleteKey [1])] ∧
      (∃ active passive, Tallied 2 active passive 1 e f) ∧
      ∃ evs, ticked.Accounted (.delete 2 (.all [1] [[12], [13]])) evs := by
  intro new e written expired ticked f
  have h : new.Reaches (fun _ _ => True) e := .step _ (.step _ .refl trivial) trivial
  have hidle {α : Type} {g : Engine} {r : Request α} (hg : e.Ran 2 0 g) (hr : r.IsPlain)
      (hno : ∀ other a, r.reported other a = 0) : e.Ran 2 0 (g.after r) := by
    have hstep := Ran.step r hg hr
    rwa [reported_eq_zero hno] at hstep
  have hwritten : e.Ran 2 0 written := hidle .refl trivial fun _ _ => rfl
  have hexpired : e.Ran 2 0 expired := hidle (.clock _ hwritten) trivial fun _ _ => rfl
  have hticked : e.Ran 2 0 ticked := hidle hexpired trivial fun _ _ => rfl
  have hdeleted : ticked.reported 2 (.delete 2 (.all [1] [[12], [13]])) = 1 := by decide +kernel
  have hrun : e.Ran 2 1 f := by
    have hstep := Ran.step (.delete 2 (.all [1] [[12], [13]])) hticked trivial
    rwa [hdeleted] at hstep
  exact ⟨hrun, by decide +kernel, by decide +kernel, (expiry_accounted h rfl hrun).2 _ rfl,
    (expiry_accounted h rfl hticked).1 _ trivial⟩

end Engine

end ExpiringHash
