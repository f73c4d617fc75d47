import ExpiringHash.Proofs.Database.Replicas
import ExpiringHash.Proofs.Engine.Visibility

/-!
# Replicas never reclaim on their own

An engine that is a replica leaves the deletion of expired fields to its primary. However it is read,
asked to delete expired fields or ticked, and however its clock goes, it stays as it is; what it tells
is told of live records alone; and a write adds to its records and takes none away.
-/
namespace ExpiringHash

variable {α : Type}

namespace Request

/-- A request that writes and deletes nothing on request: a read, a query, a request to delete what has
expired, a tick of the active cycle or a change of the clock. -/
def IsPassive : Request α → Prop
  | .read .. | .query .. | .expire .. | .tick _ | .setClock _ => True
  | _ => False

end Request

namespace Database

variable {d d' : Database} {now : UInt64} {cs : List Command}

/-- Where records are stored and nothing else is done, none is counted as expired. -/
theorem Course.tally_of_stored (h : d.Course now (cs.map .stored) d') : d'.tally = d.tally := by
  induction cs generalizing d with
  | nil =>
    cases h
    rfl
  | cons c cs ih =>
    cases h with
    | cons hev hrest => exact (ih hrest).trans hev.tally

theorem Course.record?_of_stored {key field : Bytes} (h : d.Course now (cs.map .stored) d')
    (hr : (d.record? key field).isSome = true) : (d'.record? key field).isSome = true := by
  obtain ⟨r, hr⟩ := Option.isSome_iff_exists.mp hr
  refine Option.isSome_iff_ne_none.mpr fun hnone => ?_
  obtain ⟨ev, hm, hremoval, -⟩ := h.exists_isRemoval hr hnone
  obtain ⟨c, -, rfl⟩ := List.mem_map.mp hm
  cases hremoval

end Database

namespace Engine

variable {e f g : Engine} {db : Nat}

/-- No record goes, no counter moves, and no command is sent that says that a field or key is gone. -/
structure Retains (e g : Engine) : Prop where
  database : ∀ {db : Nat} {d : Database}, e.databases[db]? = some d →
    ∃ d', g.databases[db]? = some d' ∧ d'.tally = d.tally ∧
      ∀ key field, (d.record? key field).isSome = true → (d'.record? key field).isSome = true
  cycle : g.cycle = e.cycle
  sent : ∃ cs, g.sent = e.sent ++ cs ∧ ∀ x ∈ cs, x.2.isRemoval = false

theorem Retains.refl (e : Engine) : e.Retains e :=
  ⟨fun {_ d} hd => ⟨d, hd, rfl, fun _ _ => id⟩, rfl, [], (List.append_nil _).symm, nofun⟩

/-- Storing records in a database takes nothing away. -/
theorem Retains.absorb {d : Database} {w : Work} {cs : List Command} (hd : e.databases[db]? = some d)
    (h : Work.Logs e.now { database := d } (cs.map .stored) w)
    (hcs : ∀ c ∈ cs, c.isRemoval = false) : e.Retains (e.absorb db w) where
  database {other d'} ho := by
    by_cases hne : other = db
    · subst hne
      cases hd.symm.trans ho
      exact ⟨w.database, getElem?_absorb_self hd w, h.course.tally_of_stored,
        fun _ _ => h.course.record?_of_stored⟩
    · exact ⟨d', (getElem?_absorb_of_ne hne w).trans ho, rfl, fun _ _ => id⟩
  cycle := rfl
  sent := by
    refine ⟨cs.map (db, ·), ?_, fun x hx => ?_⟩
    · rw [sent_absorb, h.emitted, List.append_nil, List.reverse_reverse, List.flatMap_map]
      exact congrArg (e.sent ++ List.map (db, ·) ·) (List.flatMap_singleton' cs)
    · obtain ⟨c, hc, rfl⟩ := List.mem_map.mp hx
      exact hcs c hc

/-- A reply about a key of a database. -/
def Tells (e : Engine) (db : Nat) (key : Bytes)
    (tell : SortedMap Bytes Record → Except HashError α → Prop) (reply : Except HashError α) : Prop :=
  match e.live db key with
  | none => reply = .error (.invalidDatabase db)
  | some value => value.Tells tell reply

theorem isPrimary_scope (hr : e.role = .replica) (db : Nat) : (e.scope db).isPrimary = false := by
  rw [Scope.isPrimary, scope, hr]
  rfl

/-- A read leaves a replica as it is and tells of live records alone. -/
theorem tells_read (hr : e.role = .replica) (ht : ∀ d ∈ e.databases, d.keys.Tidy) (db : Nat)
    (r : FieldRead α) :
    ∃ reply, (Request.read db r).perform.run e = outcomeIn e reply ∧
      e.Tells db r.key (r.Shows e.now) reply := by
  unfold Tells live
  cases hd : e.databases[db]? with
  | none =>
    refine ⟨.error (.invalidDatabase db), ?_, rfl⟩
    rw [Request.perform, run_onDatabase, hd]
    rfl
  | some d =>
    obtain ⟨reply, hrun, htells⟩ := ExpiringHash.tells_read (w := { database := d })
      (isPrimary_scope hr db) r (ht d (List.mem_of_getElem? hd))
    refine ⟨reply, ?_, htells⟩
    rw [Request.perform, run_onDatabase_of_still reply hd hrun]

/-- A query about live fields is answered by them. -/
theorem tells_query {q : Query α} {key : Bytes} {out : SortedMap Bytes Record → α}
    (ht : ∀ d ∈ e.databases, d.keys.Tidy) (hq : q.reading? = some (key, out)) (db : Nat) :
    ∃ reply, (Request.query db q).perform.run e = outcomeIn e reply ∧
      e.Tells db key (fun live reply => reply = .ok (out live)) reply := by
  refine ⟨e.answer db q, ?_, ?_⟩
  · rw [Request.perform, run_get_bind]
    cases e.answer db q <;> rfl
  · unfold Tells live answer database
    cases hd : e.databases[db]? with
    | none => rfl
    | some d =>
      change (d.keys.live e.now key).Tells _ (d.answer db e.now q)
      rw [Database.answer_of_reading (ht d (List.mem_of_getElem? hd)) hq]
      cases d.keys.live e.now key <;> rfl

/-- An action that leaves its database as it is on a replica leaves the replica as it is. -/
theorem state_onDatabase {action : Scope → DatabaseM α} (hr : e.role = .replica)
    (h : ∀ s : Scope, s.isPrimary = false → Leads (· = ·) (action s)) (db : Nat) :
    stateOf ((onDatabase db action).run e) = e := by
  cases hd : e.databases[db]? with
  | none =>
    rw [run_onDatabase, hd]
    rfl
  | some d =>
    rw [stateOf_onDatabase hd, ← h (e.scope db) (isPrimary_scope hr db) { database := d }]
    exact absorb_self hd

/-- A passive request does no more to a replica than to set its clock. -/
theorem after_passive {r : Request α} (hr : e.role = .replica) (hp : r.IsPassive) :
    e.after r = { e with now := (e.after r).now } := by
  have hsame (h : stateOf (r.perform.run e) = e) : e.after r = { e with now := (e.after r).now } := by
    rw [after_eq, h]
  cases r with
  | read db r => exact hsame (state_onDatabase hr (fun _ hs => (clearing_still hs).read r) db)
  | query db q =>
    have hstill : Leads (· = ·) (Request.query db q).perform :=
      Leads.bind Leads.get fun _ => Leads.ofExcept _
    exact hsame (hstill e).symm
  | expire db budget =>
    have hstill (s : Scope) (hs : s.isPrimary = false) :
        Leads (· = ·) (if s.isPrimary then s.drain budget else return 0) := by
      rw [hs]
      exact Leads.pure _
    exact hsame (state_onDatabase hr hstill db)
  | tick elapsed =>
    refine hsame ?_
    change stateOf (tick elapsed e) = e
    rw [tick, if_pos hr]
    rfl
  | setClock now => rfl
  | _ => cases hp

theorem eq_of_reaches_passive (hr : e.role = .replica)
    (hf : e.Reaches (fun _ r => r.IsPassive) f) : f = { e with now := f.now } := by
  induction hf with
  | refl => rfl
  | @step α f r _ hp ih =>
    have hrole : f.role = .replica := by
      rw [ih]
      exact hr
    exact (after_passive hrole hp).trans
      (congrArg (fun g : Engine => { g with now := (f.after r).now }) ih)

/-- A write takes nothing away from a replica. -/
theorem retains_write (hr : e.role = .replica) (ht : ∀ d ∈ e.databases, d.keys.Tidy) (db : Nat)
    (w : FieldWrite α) : e.Retains (e.after (.write db w)) := by
  rw [after_eq, Request.perform, run_ofExcept_bind]
  cases hv : w.validate with
  | error err => exact .refl e
  | ok =>
    dsimp only
    cases hd : e.databases[db]? with
    | none =>
      rw [run_onDatabase, hd]
      exact .refl e
    | some d =>
      obtain ⟨cs, hlogs, hcs⟩ := stores_write (isPrimary_scope hr db) hv { database := d }
        (ht d (List.mem_of_getElem? hd))
      rw [stateOf_onDatabase hd]
      exact .absorb hd hlogs hcs

/-- However a replica is read, asked to delete expired fields and ticked, and wherever its clock goes
meanwhile, it stays as it is, tells of live records alone, and loses nothing by a write. -/
theorem replica_hides_and_keeps {config : Config} {now : UInt64}
    (h : (Engine.new config now).Reaches (fun _ _ => True) e) (hr : e.role = .replica)
    (hf : e.Reaches (fun _ r => r.IsPassive) f) :
    f = { e with now := f.now } ∧
      (∀ (α : Type) (db : Nat) (r : FieldRead α), ∃ reply,
        (Request.read db r).perform.run f = outcomeIn f reply ∧
          f.Tells db r.key (r.Shows f.now) reply) ∧
      (∀ (α : Type) (db : Nat) (q : Query α) (key : Bytes) (out : SortedMap Bytes Record → α),
        q.reading? = some (key, out) → ∃ reply,
          (Request.query db q).perform.run f = outcomeIn f reply ∧
            f.Tells db key (fun live reply => reply = .ok (out live)) reply) ∧
      ∀ (α : Type) (db : Nat) (w : FieldWrite α), f.Retains (f.after (.write db w)) := by
  have hsame := eq_of_reaches_passive hr hf
  have hrole : f.role = .replica := by
    rw [hsame]
    exact hr
  have ht : ∀ d ∈ f.databases, d.keys.Tidy := by
    intro d hd
    rw [hsame] at hd
    exact tidy_of_reaches h d hd
  exact ⟨hsame, fun _ db r => tells_read hrole ht db r, fun _ db _ _ _ hq => tells_query ht hq db,
    fun _ db w => retains_write hrole ht db w⟩

/-- A replica meets an expired field in a scan, a request to delete it and a tick, hides and keeps it,
and then writes over it; its clock goes back in between. -/
theorem replica_hides_and_keeps_overwritten :
    let new := Engine.new {} 1000
    let e := ((new.after (.write 0 (.set [1] [10] [52] { ttl := .set (.after 5) }))).after
      (.write 0 (.set [1] [11] [53] {}))).after (.setRole .replica)
    let scanned := ((e.after (.setClock 2000)).after (.read 0 (.scan [1] 0 none 10))).after (.tick 3)
    let f := ((scanned.after (.setClock 7)).after (.setClock 3000)).after (.expire 0 9)
    let g := f.after (.write 0 (.incrBy [1] [10] 5 {} .next .keep))
    new.Reaches (fun _ _ => True) e ∧ e.role = .replica ∧ e.Reaches (fun _ r => r.IsPassive) f ∧
      f = { e with now := 3000 } ∧ (f.answer 0 (.size [1])).toOption = some 2 ∧
      (f.answer 0 (.names [1])).toOption = some [[11]] ∧ f.Retains g ∧
      g.sent = f.sent ++ [(0, .set [1] [10] [53] 1 0)] := by
  intro new e scanned f g
  have h : new.Reaches (fun _ _ => True) e := .step _ (.step _ (.step _ .refl trivial) trivial) trivial
  have hf : e.Reaches (fun _ r => r.IsPassive) f :=
    .step _ (.step _ (.step _ (.step _ (.step _ (.step _ .refl trivial) trivial) trivial) trivial)
      trivial) trivial
  have hrole : e.role = .replica := by decide +kernel
  have hnow : f.now = 3000 := by decide +kernel
  obtain ⟨hsame, -, -, hretains⟩ := replica_hides_and_keeps h hrole hf
  exact ⟨h, hrole, hf, hnow ▸ hsame, by decide +kernel, by decide +kernel,
    hretains Int 0 (.incrBy [1] [10] 5 {} .next .keep), by decide +kernel⟩

end Engine

end ExpiringHash
