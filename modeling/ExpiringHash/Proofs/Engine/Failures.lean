import ExpiringHash.Proofs.Database.Sparing
import ExpiringHash.Proofs.Engine.Accounts

/-!
# Requests that fail

A request that fails leaves the engine as it was, unless it was refused for what it met: then it may
have reclaimed expired fields of its key, and that is all. No request finds the structures of the
engine in contradiction, except that a check of an index may, where a stray notice of the host has cost
it entries.
-/
namespace ExpiringHash

open DatabaseM

variable {α : Type} {err : HashError}

/-- Malformed options are no sign of a broken invariant. -/
theorem FieldWrite.isFatal_of_validate {w : FieldWrite α} (h : w.validate = .error err) :
    err.isFatal = false := by
  have hbad (he : err = .badOption) : err.isFatal = false := by
    rw [he]
    rfl
  cases w with
  | set => exact hbad (VersionPolicy.error_of_validate h)
  | setAll => cases h
  | setAllChecked => cases h
  | incrBy =>
    rcases error_of_bind h with h | ⟨_, _, h⟩
    · exact hbad (VersionPolicy.error_of_validate h)
    · exact hbad (Bounds.error_of_validate h)
  | incrByFloat =>
    rcases error_of_bind h with h | ⟨_, _, h⟩
    · exact hbad (VersionPolicy.error_of_validate h)
    · rcases error_of_bind h with h | ⟨_, _, h⟩
      · exact hbad (Bounds.error_of_validate h)
      · split at h <;> cases h
        rfl
  | setVersion _ _ version =>
    by_cases hv : version = 0
    · subst hv
      cases h
      rfl
    · rw [validate, if_neg hv] at h
      cases h
  | setExpiry => exact hbad (VersionPolicy.error_of_validate h)
  | persist => cases h

theorem FieldDelete.isFatal_of_validate {d : FieldDelete α} (h : d.validate = .error err) :
    err.isFatal = false := by
  cases d with
  | one =>
    rw [VersionPolicy.error_of_validate h]
    rfl
  | all => cases h
  | allChecked => cases h

/-- A check of an index. -/
def Request.IsVerify : Request α → Prop
  | .query _ .verify => True
  | _ => False

namespace Engine

variable {e e' : Engine} {db : Nat} {d : Database}

/-- What a request that failed leaves of an engine. -/
inductive Fails (e : Engine) (err : HashError) : Engine → Prop
  | unchanged (h : err.isFatal = false) : Fails e err e
  | refused {db : Nat} {d : Database} {key : Bytes} {w : Work} (hd : e.databases[db]? = some d)
      (h : Work.Swept e.now key { database := d } w) (hr : err.isRefusal = true) :
      Fails e err (e.absorb db w)

theorem Fails.isFatal (h : e.Fails err e') : err.isFatal = false := by
  cases h with
  | unchanged h => exact h
  | refused _ _ hr =>
    cases err with
    | broken => cases hr
    | _ => rfl

theorem fails_onDatabase {action : Scope → DatabaseM α} {key : Bytes} {may : Event → Bool}
    {reported : α → Nat} (h : ∀ d ∈ e.databases, d.keys.Tidy)
    (hends : ∀ w : Work, w.database.keys.Tidy →
      Ends (e.scope db) key may reported w ((action (e.scope db)).run w))
    (hrun : (onDatabase db action).run e = .error err e') : e.Fails err e' := by
  rw [run_onDatabase] at hrun
  cases hd : e.databases[db]? with
  | none =>
    rw [hd] at hrun
    cases hrun
    exact .unchanged rfl
  | some d =>
    rw [hd] at hrun
    have hends := hends { database := d } (h d (List.mem_of_getElem? hd))
    revert hrun
    dsimp only
    generalize (action (e.scope db)).run { database := d } = res at hends
    cases hends with
    | ok => exact nofun
    | refused hswept hr =>
      intro hrun
      cases hrun
      exact .refused hd hswept hr
    | mistyped =>
      intro hrun
      cases hrun
      rw [absorb_self hd]
      exact .unchanged rfl

/-- Options that are refused leave the engine unchanged. -/
theorem fails_ofExcept {check : Except HashError Unit} {x : EngineM α}
    (hcheck : ∀ {err}, check = .error err → err.isFatal = false)
    (h : check = .ok () → x.run e = .error err e' → e.Fails err e')
    (hrun : (MonadExcept.ofExcept check >>= fun _ => x).run e = .error err e') : e.Fails err e' := by
  rw [run_ofExcept_bind] at hrun
  cases hc : check with
  | error fault =>
    rw [hc] at hrun
    cases hrun
    exact .unchanged (hcheck hc)
  | ok =>
    rw [hc] at hrun
    exact h hc hrun

/-- The request succeeded, or it failed and changed nothing. -/
inductive AllOrNothing (e : Engine) : EStateM.Result HashError Engine α → Prop
  | ok (a : α) (f : Engine) : AllOrNothing e (.ok a f)
  | error {err : HashError} (h : err.isFatal = false) : AllOrNothing e (.error err e)

theorem AllOrNothing.fails {x : EngineM α} (h : AllOrNothing e (x.run e))
    (hrun : x.run e = .error err e') : e.Fails err e' := by
  rw [hrun] at h
  cases h with
  | error h => exact .unchanged h

theorem isFatal_of_answer {q : Query α} (hq : ¬(Request.query db q).IsVerify)
    (h : e.answer db q = .error err) : err.isFatal = false := by
  have htype {ks : KeySpace} {key : Bytes} (h : ks.container? key = .error err) :
      err.isFatal = false := by
    unfold KeySpace.container? at h
    split at h <;> cases h
    rfl
  have hcontainer {β : Type} {d : Database} {key : Bytes} {empty : β} {f : Container → β}
      (h : d.ofContainer key empty f = .error err) : err.isFatal = false := by
    rcases error_of_bind h with h | ⟨c, -, h⟩
    · exact htype h
    · cases c <;> cases h
  rcases error_of_bind h with h | ⟨d, -, h⟩
  · unfold database at h
    split at h <;> cases h
    rfl
  · cases q with
    | liveSize => exact hcontainer h
    | size => exact hcontainer h
    | names => exact hcontainer h
    | values => exact hcontainer h
    | fields => exact hcontainer h
    | container => exact htype h
    | dump => exact hcontainer h
    | digest => exact hcontainer h
    | rebuild => exact hcontainer h
    | verify => exact absurd trivial hq
    | _ => cases h

theorem allOrNothing_query {q : Query α} (hq : ¬(Request.query db q).IsVerify) :
    AllOrNothing e ((Request.query db q).perform.run e) := by
  change AllOrNothing e ((MonadExcept.ofExcept (e.answer db q) : EngineM α).run e)
  cases ha : e.answer db q with
  | error err => exact .error (isFatal_of_answer hq ha)
  | ok a => exact .ok ..

theorem allOrNothing_activeExpire {l : Layout} (h : ∀ d ∈ e.databases, d.Anchored l) (db budget : Nat) :
    AllOrNothing e ((activeExpire db budget).run e) := by
  cases hd : e.databases[db]? with
  | none =>
    rw [activeExpire, run_onDatabase, hd]
    exact .error rfl
  | some d =>
    obtain ⟨n, f, evs, hrun, -⟩ := accounts_activeExpire h hd budget
    exact hrun ▸ .ok ..

/-- A command is applied, or refused by a value of another type. -/
theorem allOrNothing_apply (h : ∀ d ∈ e.databases, d.keys.Tidy) (db : Nat) (c : Command) :
    AllOrNothing e ((Request.apply db c).perform.run e) := by
  rw [Request.perform, run_onDatabase]
  cases hd : e.databases[db]? with
  | none => exact .error rfl
  | some d =>
    have hw : Work.Sound (fun _ => True) { database := d } := .of_tidy (h d (List.mem_of_getElem? hd))
    dsimp only
    rcases hw.effect_apply (c := c) fun _ _ => trivial with hrun | ⟨w, hrun, -⟩
    · rw [hrun]
      dsimp only
      rw [absorb_self hd]
      exact .error rfl
    · rw [hrun]
      exact .ok ..

theorem allOrNothing_receive (n : Notice) : AllOrNothing e ((receive n).run e) := by
  rw [run_receive]
  cases e.databases[n.db]? with
  | none => exact .error rfl
  | some d => exact .ok ..

theorem allOrNothing_load (db : Nat) (dump : Bytes) : AllOrNothing e ((load db dump).run e) := by
  rw [run_load]
  cases e.databases[db]? with
  | none => exact .error rfl
  | some d =>
    dsimp only
    cases Container.ofDump dump with
    | error fault => exact .error rfl
    | ok c => exact .ok ..

/-- A request about whole keys changes nothing if it fails. -/
theorem allOrNothing_key (h : ∀ d ∈ e.databases, d.keys.Tidy) (k : KeyRequest α) :
    AllOrNothing e (k.perform.run e) := by
  cases k with
  | insertForeign db key type payload =>
    change AllOrNothing e (EStateM.run (do discard (deleteKey db key); change db _) e)
    rw [run_replace]
    cases e.databases[db]? with
    | none => exact .error rfl
    | some d => exact .ok ..
  | delete db key =>
    rw [KeyRequest.perform, run_deleteKey]
    cases e.databases[db]? with
    | none => exact .error rfl
    | some d => exact .ok ..
  | rename db source target =>
    rw [KeyRequest.perform]
    rcases renameKey_cases db source target h with
      ⟨_, hrun, hf⟩ | ⟨-, hrun⟩ | ⟨_, _, _, _, _, _, hrun⟩
    · exact hrun ▸ .error hf
    · exact hrun ▸ .ok ..
    · exact hrun ▸ .ok ..
  | move a key b =>
    rw [KeyRequest.perform]
    rcases moveKey_cases a key b h with ⟨_, hrun, hf⟩ | hrun | ⟨_, _, _, _, _, _, _, _, hrun⟩
    · exact hrun ▸ .error hf
    · exact hrun ▸ .ok ..
    · exact hrun ▸ .ok ..
  | copy a source b target replace =>
    rw [KeyRequest.perform]
    rcases copyKey_cases a source b target replace e with
      ⟨_, hrun, hf⟩ | hrun | ⟨_, _, _, _, _, _, _, _, hrun⟩
    · exact hrun ▸ .error hf
    · exact hrun ▸ .ok ..
    · exact hrun ▸ .ok ..
  | flush db =>
    rw [KeyRequest.perform, flush, EStateM.run_bind, run_checkDatabase]
    cases e.databases[db]? with
    | none => exact .error rfl
    | some d => exact .ok ..
  | flushAll => exact .ok ..
  | swap a b =>
    rw [KeyRequest.perform, run_swap]
    cases e.databases[a]? with
    | none => exact .error rfl
    | some first =>
      cases e.databases[b]? with
      | none => exact .error rfl
      | some second => exact .ok ..
  | load db dump => exact allOrNothing_load db dump

/-- A request that fails does so with the engine unchanged, or for what it met and with nothing but
expired fields reclaimed. -/
theorem fails_perform {l : Layout} (h : ∀ d ∈ e.databases, d.Anchored l) {r : Request α}
    (hr : ¬r.IsVerify) (hrun : r.perform.run e = .error err e') : e.Fails err e' := by
  have ht : ∀ d ∈ e.databases, d.keys.Tidy := fun d hd => (h d hd).tidy
  cases r with
  | write db w =>
    exact fails_ofExcept FieldWrite.isFatal_of_validate
      (fun hv => fails_onDatabase ht fun _ => ends_write _ hv) hrun
  | delete db d =>
    exact fails_ofExcept FieldDelete.isFatal_of_validate
      (fun hv => fails_onDatabase ht fun _ => ends_delete _ hv) hrun
  | read db r =>
    rw [Request.perform] at hrun
    exact fails_onDatabase ht (fun _ => ends_read _ r) hrun
  | query db q => exact (allOrNothing_query hr).fails hrun
  | expire db budget => exact (allOrNothing_activeExpire h db budget).fails hrun
  | tick elapsed =>
    obtain ⟨n, f, evs, hok, -⟩ := accounts_tick elapsed h
    cases hok.symm.trans hrun
  | key k => exact (allOrNothing_key ht k).fails hrun
  | notice n => exact (allOrNothing_receive n).fails hrun
  | apply db c => exact (allOrNothing_apply ht db c).fails hrun
  | setClock now => cases hrun
  | setRole role => cases hrun

/-- Whatever is asked of an engine, stray notices included, its index names nothing but what its
containers call for, and no request other than a check of the index fails for a broken invariant. A
field that is handed over to be reclaimed and is not there is such a failure, and no action recovers
from one, so every field that is handed over is there. -/
theorem fatal_error_unreachable {config : Config} {now : UInt64}
    (h : (new config now).Reaches (fun _ _ => True) e) :
    (∀ d ∈ e.databases, d.index.layout = config.layout ∧
      ∀ entry ∈ d.index.entries, d.keys.Owes config.layout entry) ∧
    (∀ {α : Type} (r : Request α) {err : HashError} {e' : Engine}, ¬r.IsVerify →
      r.perform.run e = .error err e' → err.isFatal = false) ∧
    ∀ (s : Scope) (w : Work) (key field : Bytes) (t : Trigger), w.database.keys.Tidy →
      (w.fieldsAt key).get? field = none →
        ∃ b, (s.reclaim key field t).run w = .error (.broken b) w := by
  have hanchored := anchored_of_reaches h
  refine ⟨fun d hd => ⟨(hanchored d hd).layout, fun entry hm => (hanchored d hd).owes hm⟩, ?_, ?_⟩
  · exact fun r err e' hr hrun => (fails_perform hanchored hr hrun).isFatal
  · exact fun s w key field t ht hnone => run_reclaim_missing s ht hnone t

/-- A stray pair of notices has cost the index the entry of one of two fields that expire. A read that
meets this field reclaims it and finds nothing; a field that is not there cannot be reclaimed. -/
theorem fatal_error_unreachable_stray :
    let new := Engine.new { layout := .fine } 1000
    let written := (new.after (.write 0 (.set [1] [10] [7] { ttl := .set (.moment 2000) }))).after
      (.write 0 (.set [2] [10] [8] { ttl := .set (.moment 2000) }))
    let e := ((written.after (.notice (.renameFrom 0 [1]))).after (.notice (.renameTo 0 [2]))).after
      (.setClock 3000)
    let read := Request.read 0 (.get [1] [10])
    (e.databases[0]?).map (fun d => (d.index.entries, d.keys.keys)) =
        some ([⟨2000, [2], some [10]⟩], [[1], [2]]) ∧
      (e.after read).sent = e.sent ++ [(0, .delete [1] [10]), (0, .deleteKey [1])] ∧
      read.perform.run e = .error .notFound (e.after read) ∧ HashError.notFound.isFatal = false ∧
      ∀ d, e.databases[0]? = some d → d.index.layout = .fine ∧
        ∃ b, ((e.scope 0).reclaim [1] [11] .passive).run { database := d } =
          .error (.broken b) { database := d } := by
  intro new written e read
  have h : new.Reaches (fun _ _ => True) e :=
    .step _ (.step _ (.step _ (.step _ (.step _ .refl trivial) trivial) trivial) trivial) trivial
  have hrun : read.perform.run e = .error .notFound (e.after read) := by rfl
  have hmissing : (e.databases[0]?).map (fun d => (d.keys.fieldsAt [1]).get? [11]) = some none := by
    decide +kernel
  obtain ⟨hindex, hfatal, hreclaim⟩ := fatal_error_unreachable h
  refine ⟨by decide +kernel, by decide +kernel, hrun, hfatal read id hrun, fun d hd => ?_⟩
  rw [hd] at hmissing
  have hd := List.mem_of_getElem? hd
  have ht : d.keys.Tidy := (anchored_of_reaches h d hd).tidy
  exact ⟨(hindex d hd).1, hreclaim _ _ _ _ _ ht (Option.some.inj hmissing)⟩

/-- The engine is as it was, except that expired records are gone, and so are keys that had no others;
the commands sent tell of these and of nothing else. -/
structure Spares (e e' : Engine) : Prop where
  rest : e' = { e with databases := e'.databases, outbox := e'.outbox }
  length : e'.databases.length = e.databases.length
  database : ∀ {db : Nat} {d : Database}, e.databases[db]? = some d →
    ∃ d', e'.databases[db]? = some d' ∧ d.Spares e.now d'
  sent : ∃ told, e'.sent = e.sent ++ told ∧ ∀ db c, (db, c) ∈ told →
    ∃ d d', e.databases[db]? = some d ∧ e'.databases[db]? = some d' ∧ d.TellsOfLapse e.now d' c

theorem Spares.refl (e : Engine) : e.Spares e where
  rest := rfl
  length := rfl
  database {_ d} hd := ⟨d, hd, .refl _ d⟩
  sent := ⟨[], (List.append_nil _).symm, nofun⟩

theorem Spares.absorb {w : Work} {key : Bytes} (hd : e.databases[db]? = some d)
    (h : Work.Swept e.now key { database := d } w) : e.Spares (e.absorb db w) := by
  obtain ⟨evs, hlogs, hevs⟩ := h
  obtain ⟨hspares, htells⟩ := hlogs.course.spares fun ev hm => (hevs ev hm).2
  have haccounts := Accounts.absorb hd hlogs
  have hd' := getElem?_absorb_self hd w
  refine ⟨rfl, haccounts.length, fun {other d'} ho => ?_, _, haccounts.sent, fun other c hc => ?_⟩
  · by_cases hne : other = db
    · subst hne
      cases hd.symm.trans ho
      exact ⟨_, hd', hspares⟩
    · exact ⟨d', (getElem?_absorb_of_ne hne w).trans ho, .refl _ d'⟩
  · rw [commandsOf_self, List.mem_map] at hc
    obtain ⟨c, hc, he⟩ := hc
    cases he
    exact ⟨d, _, hd, hd', htells c hc⟩

/-- A request that fails for what it is, or for the type of a value, changes nothing at all. One that is
refused for what it met spares all that has not expired. -/
theorem failed_request_spares {config : Config} {now : UInt64}
    (h : (new config now).Reaches (fun _ _ => True) e) (r : Request α)
    (hrun : r.perform.run e = .error err e') : (err.isRefusal = false → e' = e) ∧ e.Spares e' := by
  have hsame (he : e' = e) : (err.isRefusal = false → e' = e) ∧ e.Spares e' := by
    subst he
    exact ⟨fun _ => rfl, .refl e'⟩
  by_cases hr : r.IsVerify
  · cases r with
    | query db q =>
      have hq : (MonadExcept.ofExcept (e.answer db q) : EngineM α).run e = .error err e' := hrun
      cases ha : e.answer db q <;> rw [ha] at hq <;> cases hq
      exact hsame rfl
    | _ => exact absurd hr id
  · cases fails_perform (anchored_of_reaches h) hr hrun with
    | unchanged => exact hsame rfl
    | refused hd hswept hr =>
      refine ⟨fun hno => ?_, .absorb hd hswept⟩
      rw [hr] at hno
      cases hno

/-- A sum is refused because its field holds no number, but not before an expired field of the same
container has been reclaimed. -/
theorem failed_request_spares_sum :
    let new := Engine.new {} 1000
    let written := (new.after (.write 3 (.set [1] [10] [52] { ttl := .set (.moment 2000) }))).after
      (.write 3 (.set [1] [11] [65] {}))
    let e := written.after (.setClock 2000)
    let r : Request Int := .write 3 (.incrBy [1] [11] 1 {} .next .clear)
    r.perform.run e = .error .notInteger (e.after r) ∧ e.answer 3 (.size [1]) = .ok 2 ∧
      (e.after r).sent = e.sent ++ [(3, .delete [1] [10])] ∧ e.Spares (e.after r) := by
  intro new written e r
  have h : new.Reaches (fun _ _ => True) e :=
    .step _ (.step _ (.step _ .refl trivial) trivial) trivial
  have hrun : r.perform.run e = .error .notInteger (e.after r) := by rfl
  exact ⟨hrun, rfl, by decide +kernel, (failed_request_spares h r hrun).2⟩

end Engine

end ExpiringHash
