import ExpiringHash.Proofs.Engine.Removals
import ExpiringHash.Proofs.Replication.Chronicle

/-!
# No container is empty on a primary

A write may be called off after its container was called for, and the last record of a container may
go in the middle of any action on it. On a primary no container without records outlives the request.
Requests about fields and the active cycle send a chronicle of what they did, in which a key is dropped
exactly when its last record goes; requests about whole keys send nothing.
-/
namespace ExpiringHash

variable {α : Type}

/-- A request that is not left to the host or to a primary elsewhere: no notice, no replicated command,
no dump to load and no change of the role. -/
def Request.IsOwn : Request α → Prop
  | .key (.load ..) | .notice _ | .apply .. | .setRole _ => False
  | _ => True

namespace Engine

variable {e e' : Engine} {db : Nat} {d : Database} {r : Request α}

/-- All containers of all databases hold records. -/
def Populated (e : Engine) : Prop := ∀ d ∈ e.databases, d.keys.Populated

/-- The commands for one database. -/
def commandsTo (db : Nat) (cs : List (Nat × Command)) : List Command :=
  (cs.filter (·.1 = db)).map (·.2)

/-- The commands sent are a chronicle of every database. -/
structure Recounts (e e' : Engine) : Prop where
  role : e'.role = e.role
  told : ∃ cs, e'.sent = e.sent ++ cs ∧ (∀ c ∈ cs, c.1 < e.databases.length) ∧
    ∀ {db : Nat} {d : Database}, e.databases[db]? = some d →
      ∃ d', e'.databases[db]? = some d' ∧ Chronicle d.keys (commandsTo db cs) d'.keys
  populated : e'.Populated

theorem commandsTo_self (db : Nat) (cs : List Command) : commandsTo db (cs.map (db, ·)) = cs := by
  simp [commandsTo, List.filter_map, Function.comp_def]

theorem commandsTo_of_ne {other : Nat} (h : other ≠ db) (cs : List Command) :
    commandsTo other (cs.map (db, ·)) = [] := by
  simp [commandsTo, List.filter_map, Function.comp_def, h.symm]

theorem commandsTo_commandsOf (db : Nat) (evs : List (Nat × Event)) :
    commandsTo db (commandsOf evs) = (eventsOf db evs).flatMap Event.commands := by
  induction evs with
  | nil => rfl
  | cons ev evs ih =>
    rw [← List.singleton_append, commandsOf_append, eventsOf_append, List.flatMap_append, ← ih,
      commandsTo, List.filter_append, List.map_append]
    congr 1
    by_cases h : ev.1 = db <;> simp [commandsOf, eventsOf, List.filter_map, Function.comp_def, h]

theorem recounts_refl (hp : e.Populated) : Recounts e e where
  role := rfl
  told := ⟨[], (List.append_nil _).symm, nofun, fun {_ d} hd => ⟨d, hd, .nil _⟩⟩
  populated := hp

/-- An action on one database leaves the others as they are. -/
theorem recounts_absorb {w : Work} (hd : e.databases[db]? = some d) (hp : e.Populated)
    (hw : Work.Recounts ⟨d, []⟩ w) : Recounts e (e.absorb db w) where
  role := rfl
  told := by
    obtain ⟨cs, hemitted, hchronicle⟩ := hw.told
    refine ⟨cs.map (db, ·), ?_, fun c hc => ?_, fun {other d'} hd' => ?_⟩
    · rw [sent_absorb, hemitted, List.append_nil, List.reverse_reverse]
    · obtain ⟨c, -, rfl⟩ := List.mem_map.mp hc
      exact (List.getElem?_eq_some_iff.mp hd).1
    · by_cases ho : other = db
      · subst ho
        cases hd.symm.trans hd'
        exact ⟨w.database, getElem?_absorb_self hd w, (commandsTo_self other cs).symm ▸ hchronicle⟩
      · rw [commandsTo_of_ne ho]
        exact ⟨d', (getElem?_absorb_of_ne ho w).trans hd', .nil _⟩
  populated := by
    intro d' hm
    rcases mem_absorb hm with hm | rfl
    · exact hp d' hm
    · exact hw.populated

/-- The commands that a request about fields sends are for databases that there are. -/
theorem lt_of_mem_sent (ht : ∀ d ∈ e.databases, d.keys.Tidy) (hr : r.IsLocal)
    {cs : List (Nat × Command)} (hsent : (e.after r).sent = e.sent ++ cs) :
    ∀ c ∈ cs, c.1 < e.databases.length := by
  have hsound : e.Sound fun _ => True := fun d hd =>
    ⟨ht d hd, fun _ _ _ => ⟨trivial, fun _ _ _ => trivial⟩⟩
  have htraces := traces_perform (r := r) ⟨fun _ _ => trivial, fun _ => trivial⟩ hr
    (fun _ _ => trivial) e hsound
  obtain ⟨-, cs', hsent', hnumbered, -⟩ := replays_of_steps htraces hsound
  rw [after_eq, hsent'] at hsent
  obtain rfl := List.append_cancel_left hsent
  exact fun c hc => (hnumbered c hc).1

/-- Expired fields that are reclaimed are recounted. -/
theorem Accounts.recounts {evs : List (Nat × Event)} {t : Trigger} (h : Accounts evs e (e.after r))
    (ht : ∀ d ∈ e.databases, d.keys.Tidy) (hp : e.Populated) (hr : r.IsLocal)
    (hevs : ∀ ev ∈ evs, ev.2.isReclaim t = true) : Recounts e (e.after r) := by
  have hkept {db : Nat} {ev : Event} (hm : ev ∈ eventsOf db evs) :
      ev.isDeletion = false ∧ ev.isDrop = false :=
    have hreclaim := hevs _ (mem_eventsOf.mp hm)
    ⟨Event.isDeletion_of_isReclaim hreclaim, Event.isDrop_of_isReclaim hreclaim⟩
  refine ⟨h.role, ⟨commandsOf evs, h.sent, lt_of_mem_sent ht hr h.sent, fun {db d} hd => ?_⟩,
    fun d' hm => ?_⟩
  · obtain ⟨d', hd', hcourse⟩ := h.course hd
    rw [commandsTo_commandsOf]
    exact ⟨d', hd', hcourse.chronicle (ht d (List.mem_of_getElem? hd)) fun ev => hkept⟩
  · obtain ⟨db, hd'⟩ := List.mem_iff_getElem?.mp hm
    obtain ⟨d, hd, hcourse⟩ := h.source hd'
    exact hcourse.populated (fun ev hm => (hkept hm).1) (hp d (List.mem_of_getElem? hd))

/-- An action on one database recounts what it did if it deletes nothing or stores nothing. -/
theorem recounts_onDatabase {action : Scope → DatabaseM α} {key : Bytes} {may : Event → Bool}
    {count : α → Nat} (ht : ∀ d ∈ e.databases, d.keys.Tidy) (hp : e.Populated)
    (hprimary : e.role = .primary)
    (hends : ∀ w : Work, w.database.keys.Tidy →
      Ends (e.scope db) key may count w ((action (e.scope db)).run w))
    (hmay : (∀ ev, may ev = true → ev.isDeletion = false ∧ ev.isDrop = false) ∨
      ∀ ev, may ev = true → ev.isStore = false) :
    Recounts e (stateOf ((onDatabase db action).run e)) := by
  cases hd : e.databases[db]? with
  | none =>
    rw [run_onDatabase, hd]
    exact recounts_refl hp
  | some d =>
    have hm := List.mem_of_getElem? hd
    rw [stateOf_onDatabase hd]
    exact recounts_absorb hd hp
      ((hends ⟨d, []⟩ (ht d hm)).recounts (decide_eq_true hprimary) (ht d hm) (hp d hm) hmay)

theorem recounts_ofExcept {check : Except HashError Unit} {x : EngineM α} (hp : e.Populated)
    (h : check = .ok () → Recounts e (stateOf (x.run e))) :
    Recounts e (stateOf ((MonadExcept.ofExcept check >>= fun _ => x).run e)) := by
  rw [run_ofExcept_bind]
  cases check with
  | error err => exact recounts_refl hp
  | ok => exact h rfl

/-- A plain request to a primary recounts what it did, whether it fails or not. -/
theorem recounts_perform {l : Layout} (h : ∀ d ∈ e.databases, d.Anchored l) (hp : e.Populated)
    (hprimary : e.role = .primary) (hr : r.IsPlain) : Recounts e (e.after r) := by
  have ht : ∀ d ∈ e.databases, d.keys.Tidy := fun d hd => (h d hd).tidy
  cases r with
  | write db w =>
    rw [after_eq]
    refine recounts_ofExcept hp fun hv =>
      recounts_onDatabase ht hp hprimary (fun _ => ends_write _ hv) ?_
    refine .inl fun ev hev => ?_
    cases ev with
    | stored => exact ⟨rfl, rfl⟩
    | _ => cases hev
  | delete db d =>
    rw [after_eq]
    refine recounts_ofExcept hp fun hv =>
      recounts_onDatabase ht hp hprimary (fun _ => ends_delete _ hv) ?_
    refine .inr fun ev hev => ?_
    cases ev with
    | stored => cases hev
    | _ => rfl
  | read db read =>
    rw [after_eq]
    change Recounts e (stateOf ((onDatabase db fun s => read.action s).run e))
    exact recounts_onDatabase ht hp hprimary (fun _ => ends_read _ read) (.inl fun _ h => nomatch h)
  | query db q =>
    rw [after_eq]
    change Recounts e (stateOf ((MonadExcept.ofExcept (e.answer db q) : EngineM α).run e))
    cases e.answer db q <;> exact recounts_refl hp
  | expire db budget =>
    cases hd : e.databases[db]? with
    | none =>
      have hrun : (activeExpire db budget).run e = .error (.invalidDatabase db) e := by
        rw [activeExpire, run_onDatabase, hd]
      rw [after_of_run (r := .expire db budget) hrun]
      exact recounts_refl hp
    | some d =>
      obtain ⟨n, e', evs, hrun, haccounts, hevs, -⟩ := accounts_activeExpire h hd budget
      obtain rfl := after_of_run (r := .expire db budget) hrun
      refine haccounts.recounts (t := .active) ht hp trivial fun ev hm => ?_
      obtain ⟨reclaim, hreclaim, rfl⟩ := List.mem_map.mp hm
      exact hevs reclaim hreclaim
  | tick elapsed =>
    obtain ⟨n, e', evs, hrun, haccounts, hevs⟩ := accounts_tick elapsed h
    obtain rfl := after_of_run (r := .tick elapsed) hrun
    exact haccounts.recounts ht hp trivial hevs
  | setClock => cases hr
  | key => cases hr
  | notice => cases hr
  | apply => cases hr
  | setRole => cases hr

/-! ## Requests about keys -/

/-- Nothing is sent, and no container is left without records. -/
def Settles (e e' : Engine) : Prop :=
  e.Populated → e'.Populated ∧ e'.sent = e.sent ∧ e'.role = e.role

theorem settles_refl (e : Engine) : Settles e e := fun hp => ⟨hp, rfl, rfl⟩

theorem populated_set {databases : List Database} (hp : ∀ d ∈ databases, d.keys.Populated)
    (hd : d.keys.Populated) : ∀ d' ∈ databases.set db d, d'.keys.Populated := by
  intro d' hm
  rcases List.mem_or_eq_of_mem_set hm with hm | rfl
  · exact hp d' hm
  · exact hd

theorem populated_deleteKey (hd : d.keys.Populated) (key : Bytes) :
    (d.deleteKey key).2.keys.Populated := by
  rw [Database.keys_deleteKey]
  exact hd.erase key

theorem populated_attach {v : Value} (hd : d.keys.Populated) (key : Bytes) (hv : v.Populated) :
    (d.attach key v).keys.Populated :=
  hd.put hv

theorem settles_replace (db : Nat) (key : Bytes) {f : Database → Database} (e : Engine)
    (hf : ∀ d : Database, d.keys.Populated → (f d).keys.Populated) :
    Settles e (stateOf ((do discard (deleteKey db key); change db f : EngineM Unit).run e)) := by
  rw [run_replace]
  cases hd : e.databases[db]? with
  | none => exact settles_refl e
  | some d =>
    refine fun hp => ⟨populated_set hp (hf _ ?_), rfl, rfl⟩
    exact populated_deleteKey (hp d (List.mem_of_getElem? hd)) key

/-- A request about whole keys that loads no dump moves records about and sends nothing. -/
theorem settles_key {k : KeyRequest α} (hk : (Request.key k).IsOwn)
    (ht : ∀ d ∈ e.databases, d.keys.Tidy) : Settles e (e.after (.key k)) := by
  rw [after_eq]
  cases k with
  | insertForeign db key type payload =>
    exact settles_replace db key e fun d hd => populated_attach hd key trivial
  | delete db key =>
    change Settles e (stateOf ((deleteKey db key).run e))
    rw [run_deleteKey]
    cases hd : e.databases[db]? with
    | none => exact settles_refl e
    | some d =>
      intro hp
      have hpd := hp d (List.mem_of_getElem? hd)
      exact ⟨populated_set hp (populated_deleteKey hpd key), rfl, rfl⟩
  | rename db source target =>
    change Settles e (stateOf ((renameKey db source target).run e))
    rcases renameKey_cases db source target ht with
      ⟨err, hrun, -⟩ | ⟨-, hrun⟩ | ⟨d, v, pending, hd, hv, -, hrun⟩
    · exact hrun ▸ settles_refl e
    · exact hrun ▸ settles_refl e
    · rw [hrun]
      intro hp
      have hpd := hp d (List.mem_of_getElem? hd)
      have hfreed := populated_deleteKey (populated_deleteKey hpd target) source
      have hpv := (hpd source v hv).relabel target
      exact ⟨populated_set hp (populated_attach hfreed target hpv), rfl, rfl⟩
  | move a key b =>
    change Settles e (stateOf ((moveKey a key b).run e))
    rcases moveKey_cases a key b ht with
      ⟨err, hrun, -⟩ | hrun | ⟨d, d', v, pending, ha, hb, hv, -, hrun⟩
    · exact hrun ▸ settles_refl e
    · exact hrun ▸ settles_refl e
    · rw [hrun]
      intro hp
      have hpd := hp d (List.mem_of_getElem? ha)
      have hpd' := hp d' (List.mem_of_getElem? hb)
      exact ⟨populated_set (populated_set hp (populated_deleteKey hpd key))
        (populated_attach hpd' key (hpd key v hv)), rfl, rfl⟩
  | copy a source b target replace =>
    change Settles e (stateOf ((copyKey a source b target replace).run e))
    rcases copyKey_cases a source b target replace e with
      ⟨err, hrun, -⟩ | hrun | ⟨d, v, d', hd, hv, hd', -, -, hrun⟩
    · exact hrun ▸ settles_refl e
    · exact hrun ▸ settles_refl e
    · rw [hrun]
      intro hp
      have hpv := (hp d (List.mem_of_getElem? hd) source v hv).relabel target
      have hpd' := populated_deleteKey (hp d' (List.mem_of_getElem? hd')) target
      exact ⟨populated_set hp (populated_attach hpd' target hpv), rfl, rfl⟩
  | flush db =>
    change Settles e (stateOf ((checkDatabase db >>= fun _ => change db Database.clear).run e))
    rw [EStateM.run_bind, run_checkDatabase]
    cases hd : e.databases[db]? with
    | none => exact settles_refl e
    | some d => exact fun hp => ⟨forall_mem_modify hp fun _ _ => .empty, rfl, rfl⟩
  | flushAll =>
    refine fun hp => ⟨fun d hm => ?_, rfl, rfl⟩
    obtain ⟨d', -, rfl⟩ := List.mem_map.mp hm
    exact .empty
  | swap a b =>
    change Settles e (stateOf ((swap a b).run e))
    rw [run_swap]
    cases ha : e.databases[a]? with
    | none => exact settles_refl e
    | some first =>
      cases hb : e.databases[b]? with
      | none => exact settles_refl e
      | some second =>
        exact fun hp => ⟨populated_set (populated_set hp (hp second (List.mem_of_getElem? hb)))
          (hp first (List.mem_of_getElem? ha)), rfl, rfl⟩
  | load => cases hk

/-- What an engine comes to that started empty as a primary and is asked for what is its own. -/
theorem populated_of_reaches {config : Config} {now : UInt64}
    (h : (new config now).Reaches (fun _ r => r.IsOwn) e) : e.Populated ∧ e.role = .primary := by
  induction h with
  | refl => exact ⟨forall_mem_new (I := fun d => d.keys.Populated) now .empty, rfl⟩
  | @step α e r hreaches hr ih =>
    obtain ⟨hp, hprimary⟩ := ih
    have hanchored := anchored_of_reaches (hreaches.mono fun _ _ _ => trivial)
    have hplain (hr : r.IsPlain) : (e.after r).Populated ∧ (e.after r).role = .primary :=
      have hrecounts := recounts_perform hanchored hp hprimary hr
      ⟨hrecounts.populated, hrecounts.role.trans hprimary⟩
    cases r with
    | setClock => exact ⟨hp, hprimary⟩
    | key k =>
      obtain ⟨hp', -, hrole⟩ := settles_key hr (fun d hd => (hanchored d hd).tidy) hp
      exact ⟨hp', hrole.trans hprimary⟩
    | notice => cases hr
    | apply => cases hr
    | setRole => cases hr
    | write => exact hplain trivial
    | delete => exact hplain trivial
    | read => exact hplain trivial
    | query => exact hplain trivial
    | expire => exact hplain trivial
    | tick => exact hplain trivial

/-- On a primary that started empty, every container holds a record after every request of its own.
A request about fields or a tick sends a chronicle of what it did to each database: a key is dropped
exactly when its last record goes, even if the request then stores others under it. A request about
whole keys or the clock sends nothing. -/
theorem keys_dropped_with_last_record {config : Config} {now : UInt64}
    (h : (new config now).Reaches (fun _ r => r.IsOwn) e) :
    e.Populated ∧ ∀ {α : Type} (r : Request α), r.IsOwn →
      (e.after r).Populated ∧ (r.IsPlain → e.Recounts (e.after r)) ∧
        (¬r.IsPlain → (e.after r).sent = e.sent) := by
  obtain ⟨hp, hprimary⟩ := populated_of_reaches h
  have hanchored := anchored_of_reaches (h.mono fun _ _ _ => trivial)
  refine ⟨hp, fun r hr => ⟨(populated_of_reaches (.step r h hr)).1,
    recounts_perform hanchored hp hprimary, fun hplain => ?_⟩⟩
  cases r with
  | setClock => rfl
  | key k => exact (settles_key hr (fun d hd => (hanchored d hd).tidy) hp).2.1
  | notice => cases hr
  | apply => cases hr
  | setRole => cases hr
  | write => exact absurd trivial hplain
  | delete => exact absurd trivial hplain
  | read => exact absurd trivial hplain
  | query => exact absurd trivial hplain
  | expire => exact absurd trivial hplain
  | tick => exact absurd trivial hplain

/-- The only record of a renamed key has expired when the key is written to: the key is dropped and made
anew. -/
theorem keys_dropped_with_last_record_recreated :
    let new := Engine.new {} 1000
    let written := new.after (.write 2 (.set [1] [10] [52] { ttl := .set (.after 5) }))
    let e := (written.after (.key (.rename 2 [1] [2]))).after (.setClock 1005)
    let f := e.after (.write 2 (.set [2] [10] [53] {}))
    new.Reaches (fun _ r => r.IsOwn) e ∧ f.sent = e.sent ++
      [(2, .delete [2] [10]), (2, .deleteKey [2]), (2, .set [2] [10] [53] 1 0)] ∧
      e.Populated ∧ f.Populated ∧ e.Recounts f := by
  intro new written e f
  have h : new.Reaches (fun _ r => r.IsOwn) e :=
    .step _ (.step _ (.step _ .refl trivial) trivial) trivial
  obtain ⟨hp, hall⟩ := keys_dropped_with_last_record h
  obtain ⟨hpopulated, hrecounts, -⟩ := hall (.write 2 (.set [2] [10] [53] {})) trivial
  exact ⟨h, by decide +kernel, hp, hpopulated, hrecounts trivial⟩

end Engine

end ExpiringHash
