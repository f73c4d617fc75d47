import ExpiringHash.Proofs.Database.Slots
import ExpiringHash.Proofs.Replication.Publishing

/-!
# Sending a log again

After an interruption a log may be sent again from its start. A single command may do something else
the second time: most of them depend on what is there. But a command either brings a field to one
record, or to none, wherever it comes from, or it leaves a field that is not there as it is; and so it
is with the container under a key. From nothing, then, either no command of the log brings the field
anywhere, and then it is still not there when the log starts again; or one does, and then it makes no
difference where the log started.
-/
namespace ExpiringHash

open DatabaseM Relation

section Folds

variable {σ γ : Type} {step : σ → γ → σ} {start : σ} {c : γ} {earlier log : List γ}

/-- After a step that leads to one state from everywhere, it makes no difference where a run started. -/
theorem foldl_eq_of_mem (hc : c ∈ log) (h : ∀ s, step s c = step start c) (s : σ) :
    log.foldl step s = log.foldl step start := by
  obtain ⟨before, after, rfl⟩ := List.append_of_mem hc
  rw [List.foldl_append, List.foldl_append, List.foldl_cons, List.foldl_cons, h,
    h (before.foldl step start)]

theorem foldl_eq_self (h : ∀ c ∈ log, step start c = start) : log.foldl step start = start := by
  induction log with
  | nil => rfl
  | cons c log ih =>
    obtain ⟨hc, hlog⟩ := List.forall_mem_cons.mp h
    rw [List.foldl_cons, hc]
    exact ih hlog

/-- If each step leads to one state from everywhere or stays at the start, steps taken before a run
make no difference to it, as long as they are among its own. -/
theorem foldl_append_of_subset
    (h : ∀ c ∈ log, (∀ s, step s c = step start c) ∨ step start c = start)
    (hsub : earlier ⊆ log) : (earlier ++ log).foldl step start = log.foldl step start := by
  rw [List.foldl_append]
  by_cases hreset : ∃ c ∈ log, ∀ s, step s c = step start c
  · obtain ⟨c, hc, hany⟩ := hreset
    exact foldl_eq_of_mem hc hany _
  · have hstay : ∀ c ∈ log, step start c = start := fun c hc =>
      (h c hc).resolve_left fun hany => hreset ⟨c, hc, hany⟩
    rw [foldl_eq_self fun c hc => hstay c (hsub hc)]

end Folds

namespace Command

variable {c : Command} {o : Option Fields} {field : Bytes}

/-- Whether there is a container under the key of a command, once it has been applied. -/
def onPresence (present : Bool) : Command → Bool
  | .set .. => true
  | .deleteKey _ => false
  | _ => present

/-- The record of a field under the key of a command, once it has been applied. -/
def onRecord (field : Bytes) (current : Option Record) (c : Command) : Option Record :=
  if c.field?.all (· = field) then c.outcome current else current

theorem isSome_onFields (c : Command) (o : Option Fields) :
    (c.onFields o).isSome = c.onPresence o.isSome := by
  cases c <;> simp [onFields, onPresence]

theorem get?_update (f : Fields) (name field : Bytes) (change : Record → Record) :
    (f.update name change).2.get? field =
      if name = field then (f.get? field).map change else f.get? field := by
  cases hr : f.get? name with
  | none =>
    rw [Fields.update_of_get?_none change hr]
    split
    · next he => rw [← he, hr]; rfl
    · rfl
  | some r =>
    rw [Fields.update_of_get? change hr]
    split
    · next he => rw [← he, Fields.get?_put_self, hr]; rfl
    · next hne => exact Fields.get?_put_of_ne (Ne.symm hne)

theorem bind_onFields (c : Command) (o : Option Fields) (field : Bytes) :
    (c.onFields o).bind (·.get? field) = c.onRecord field (o.bind (·.get? field)) := by
  have hupdate (name : Bytes) (change : Record → Record) :
      (o.map fun f => (f.update name change).2).bind (·.get? field) =
        if name = field then (o.bind (·.get? field)).map change else o.bind (·.get? field) := by
    cases o with
    | none => simp
    | some f => exact get?_update f name field change
  cases c with
  | set key name value version expiry =>
    have hbind : (o.getD ∅).get? field = o.bind (·.get? field) := by cases o <;> rfl
    rw [onFields, Option.bind_some, onRecord, ← hbind]
    by_cases he : name = field
    · rw [he, Fields.get?_put_self]
      simp [field?, outcome]
    · rw [Fields.get?_put_of_ne (Ne.symm he)]
      simp [field?, he]
  | delete key name =>
    by_cases he : name = field
    · subst he
      cases o with
      | none => simp [onFields, onRecord, outcome]
      | some f => simp [onFields, onRecord, field?, outcome, Fields.get?_remove_self]
    · cases o with
      | none => simp [onFields, onRecord, field?, he]
      | some f => simp [onFields, onRecord, field?, he, Fields.get?_remove_of_ne (Ne.symm he)]
  | expireAt key name expiry version =>
    rw [onFields, hupdate]
    simp [onRecord, field?, outcome]
  | persist key name =>
    rw [onFields, hupdate]
    simp [onRecord, field?, outcome]
  | setVersion key name version =>
    rw [onFields, hupdate]
    simp [onRecord, field?, outcome]
  | deleteKey key => simp [onFields, onRecord, field?, outcome]

/-- A command brings a field to one record or to none, or leaves it as it is if it is not there. -/
theorem onRecord_resets_or_stays (c : Command) (field : Bytes) :
    (∀ current, c.onRecord field current = c.onRecord field none) ∨ c.onRecord field none = none := by
  unfold onRecord
  split
  · cases c with
    | set => exact .inl fun _ => rfl
    | _ => exact .inr rfl
  · exact .inr rfl

theorem onPresence_resets_or_stays (c : Command) :
    (∀ present, c.onPresence present = c.onPresence false) ∨ c.onPresence false = false := by
  cases c with
  | set => exact .inl fun _ => rfl
  | _ => exact .inr rfl

variable {k k' : KeySpace}

/-- What a command makes of plain keys is a function of them. -/
theorem Takes.eq_onKeys (h : c.Takes k k') (hk : k.Plain) : k' = c.onKeys k := by
  obtain ⟨w, w', rfl, hrun, rfl⟩ := h
  obtain ⟨v, hv, hkeys⟩ := run_apply_of_plain hk c
  obtain rfl := (EStateM.Result.ok.inj (hrun.symm.trans hv)).2
  exact hkeys

end Command

/-- Whether there is a container and the records in it are all there is to know of consistent fields. -/
theorem Fields.eq_of_records {o o' : Option Fields} (ho : ∀ f, o = some f → f.Consistent)
    (ho' : ∀ f, o' = some f → f.Consistent) (hsome : o.isSome = o'.isSome)
    (hrecord : ∀ field, o.bind (·.get? field) = o'.bind (·.get? field)) : o = o' := by
  cases o with
  | none =>
    cases o' with
    | none => rfl
    | some g => cases hsome
  | some f =>
    cases o' with
    | none => cases hsome
    | some g =>
      exact congrArg some ((ho f rfl).ext_records (ho' g rfl) (SortedTable.ext_get? hrecord))

section Delivery

variable {σ τ : Type} {db : Nat} {key : Bytes} {earlier log : List (Nat × Command)}

/-- The keys of all databases when a command has been applied to one of them. -/
def deliver (ks : Nat → KeySpace) (x : Nat × Command) : Nat → KeySpace :=
  Function.update ks x.1 (x.2.onKeys (ks x.1))

/-- Takes a step for the commands that one key of one database gets. -/
def addressed (db : Nat) (key : Bytes) (step : σ → Command → σ) (s : σ) (x : Nat × Command) : σ :=
  if x.1 = db ∧ x.2.key = key then step s x.2 else s

theorem map_addressed {step : σ → Command → σ} {step' : τ → Command → τ} (g : σ → τ)
    (h : ∀ s c, g (step s c) = step' (g s) c) (s : σ) (x : Nat × Command) :
    addressed db key step' (g s) x = g (addressed db key step s x) := by
  unfold addressed
  split
  · exact (h s x.2).symm
  · rfl

/-- Commands delivered before a log that they come from make no difference to what is under a key, if
each command resets it or leaves it as it is at the start. -/
theorem foldl_addressed_append {step : σ → Command → σ} {start : σ}
    (h : ∀ c, (∀ s, step s c = step start c) ∨ step start c = start) (hsub : earlier ⊆ log) :
    (earlier ++ log).foldl (addressed db key step) start =
      log.foldl (addressed db key step) start := by
  refine foldl_append_of_subset (fun x _ => ?_) hsub
  unfold addressed
  split
  · exact h x.2
  · exact .inr rfl

theorem plain_deliver {ks : Nat → KeySpace} (h : ∀ db, (ks db).Plain) (x : Nat × Command) (db : Nat) :
    (deliver ks x db).Plain := by
  by_cases hdb : db = x.1
  · rw [hdb, deliver, Function.update_self]
    exact Command.plain_onKeys (h x.1) x.2
  · rw [deliver, Function.update_of_ne hdb]
    exact h db

theorem plain_foldl_deliver {ks : Nat → KeySpace} (h : ∀ db, (ks db).Plain)
    (xs : List (Nat × Command)) : ∀ db, (xs.foldl deliver ks db).Plain := by
  induction xs generalizing ks with
  | nil => exact h
  | cons x xs ih => exact ih (plain_deliver h x)

/-- Of the fields under a key, a delivery changes those that it is addressed to. -/
theorem fields?_deliver (ks : Nat → KeySpace) (x : Nat × Command) (db : Nat) (key : Bytes) :
    (deliver ks x db).fields? key =
      addressed db key (fun o c => c.onFields o) ((ks db).fields? key) x := by
  unfold addressed
  split
  · next h =>
    obtain ⟨rfl, rfl⟩ := h
    rw [deliver, Function.update_self]
    exact KeySpace.fields?_withFields_self ..
  · next h =>
    by_cases hdb : db = x.1
    · have hkey : key ≠ x.2.key := fun hk => h ⟨hdb.symm, hk.symm⟩
      rw [hdb, deliver, Function.update_self]
      exact KeySpace.fields?_withFields_of_ne hkey _
    · rw [deliver, Function.update_of_ne hdb]

theorem fields?_foldl_deliver (ks : Nat → KeySpace) (xs : List (Nat × Command)) (db : Nat)
    (key : Bytes) :
    (xs.foldl deliver ks db).fields? key =
      xs.foldl (addressed db key fun o c => c.onFields o) ((ks db).fields? key) :=
  (List.foldl_hom (fun ks : Nat → KeySpace => (ks db).fields? key)
    fun ks x => (fields?_deliver ks x db key).symm).symm

/-- Whether there is a container under a key depends on the commands for it alone, and so does each
of its records. -/
theorem isSome_foldl_deliver (xs : List (Nat × Command)) (db : Nat) (key : Bytes) :
    ((xs.foldl deliver (fun _ => ∅) db).fields? key).isSome =
      xs.foldl (addressed db key fun present c => c.onPresence present) false := by
  rw [fields?_foldl_deliver]
  exact (List.foldl_hom Option.isSome fun o x =>
    map_addressed Option.isSome (fun o c => Command.isSome_onFields c o) o x).symm

theorem record_foldl_deliver (xs : List (Nat × Command)) (db : Nat) (key field : Bytes) :
    ((xs.foldl deliver (fun _ => ∅) db).fields? key).bind (·.get? field) =
      xs.foldl (addressed db key fun r c => c.onRecord field r) none := by
  rw [fields?_foldl_deliver]
  exact (List.foldl_hom (fun o : Option Fields => o.bind (·.get? field)) fun o x =>
    map_addressed (fun o : Option Fields => o.bind (·.get? field))
      (fun o c => Command.bind_onFields c o field) o x).symm

/-- To empty keys a log brings the same whether some of its commands came before it or not. -/
theorem foldl_deliver_append (hsub : earlier ⊆ log) :
    (earlier ++ log).foldl deliver (fun _ => ∅) = log.foldl deliver (fun _ => ∅) := by
  funext db
  have hplain (xs : List (Nat × Command)) : (xs.foldl deliver (fun _ => ∅) db).Plain :=
    plain_foldl_deliver (fun _ => .empty) xs db
  refine (hplain _).ext_fields? (hplain _) fun key => ?_
  refine Fields.eq_of_records (fun _ hf => (hplain _).consistent hf)
    (fun _ hf => (hplain _).consistent hf) ?_ fun field => ?_
  · rw [isSome_foldl_deliver, isSome_foldl_deliver]
    exact foldl_addressed_append Command.onPresence_resets_or_stays hsub
  · rw [record_foldl_deliver, record_foldl_deliver]
    exact foldl_addressed_append (fun c => Command.onRecord_resets_or_stays c field) hsub

/-- Commands that replay lead from plain keys to those that delivering them leads to. -/
theorem Replays.eq_foldl {n : Nat} {ks ks' : Nat → KeySpace} {cs : List (Nat × Command)}
    (h : Replays n ks cs ks') (hk : ∀ db, (ks db).Plain) : ks' = cs.foldl deliver ks := by
  induction h with
  | nil => rfl
  | @cons ks ks' db c k cs hdb hc _ ih =>
    have hdeliver : Function.update ks db k = deliver ks (db, c) := by
      rw [hc.eq_onKeys (hk db), deliver]
    rw [List.foldl_cons, ← hdeliver]
    exact ih (hdeliver ▸ plain_deliver hk (db, c))

end Delivery

namespace Engine

/-- Applies commands one after the other, each to its database. -/
def applyEach (cs : List (Nat × Command)) : EngineM Unit :=
  cs.forM fun x => (Request.apply x.1 x.2).perform

variable {e f : Engine} {cs : List (Nat × Command)}

/-- Commands for databases that there are apply to plain keys without fail. -/
theorem run_applyEach (hk : ∀ db, (e.keysAt db).Plain)
    (hcs : ∀ x ∈ cs, x.1 < e.databases.length) :
    ∃ e', (applyEach cs).run e = .ok () e' ∧ e'.keysAt = cs.foldl deliver e.keysAt := by
  induction cs generalizing e with
  | nil => exact ⟨e, rfl, rfl⟩
  | cons x cs ih =>
    obtain ⟨hx, hrest⟩ := List.forall_mem_cons.mp hcs
    have hget := List.getElem?_eq_getElem hx
    obtain ⟨w, hrun, hkeys⟩ := Command.run_apply_of_plain (c := x.2)
      (w := { database := e.databases[x.1] }) (keysAt_of_getElem? hget ▸ hk x.1)
    have hdeliver : (e.absorb x.1 w).keysAt = deliver e.keysAt x := by
      rw [keysAt_absorb hget, hkeys, deliver, keysAt_of_getElem? hget]
    obtain ⟨e', hrun', hkeys'⟩ := ih (hdeliver ▸ plain_deliver hk x)
      ((length_databases_absorb e x.1 w).symm ▸ hrest)
    refine ⟨e', ?_, hkeys'.trans (by rw [hdeliver, List.foldl_cons])⟩
    change ((Request.apply x.1 x.2).perform >>= fun _ => applyEach cs : EngineM Unit).run e = _
    rw [EStateM.run_bind, run_perform_apply hget hrun]
    exact hrun'

/-- The commands sent say what has become of empty databases. -/
theorem replays_sent {config : Config} {now : UInt64}
    (h : (Engine.new config now).Reaches (fun _ r => r.IsLocal) e) :
    (∀ x ∈ e.sent, x.1 < config.databases) ∧
      Replays config.databases (fun _ => ∅) e.sent e.keysAt := by
  have hnames : HasNumerals fun _ => True := ⟨fun _ _ => trivial, fun _ => trivial⟩
  have htraces : (Engine.new config now).Traces (fun _ => True) e := by
    induction h with
    | refl => exact refl_of _ _
    | @step α f r _ hl ih =>
      refine trans_of _ ih ?_
      rw [after_eq]
      exact traces_perform hnames hl (fun _ _ => trivial) f
  have hsound : (Engine.new config now).Sound fun _ => True := sound_new config now
  obtain ⟨-, cs, hsent, hwithin, hreplays⟩ := replays_of_steps (htraces hsound) hsound
  have hlength : (Engine.new config now).databases.length = config.databases := List.length_replicate
  rw [hlength] at hwithin hreplays
  rw [keysAt_new] at hreplays
  rw [hsent]
  exact ⟨fun x hx => (hwithin x hx).1, hreplays⟩

/-- What an engine has sent, applied to empty databases, never fails and gives its keys, and this
whatever parts of it from its start on have been applied before, and however often. -/
theorem redelivery_changes_nothing {config config' : Config} {now now' : UInt64}
    (h : (Engine.new config now).Reaches (fun _ r => r.IsLocal) e)
    (hd : config.databases ≤ config'.databases) {fronts : List (List (Nat × Command))}
    (hfronts : ∀ front ∈ fronts, front <+: e.sent) (role : Role) :
    let fresh := { Engine.new config' now' with role }
    ∃ once again, (applyEach e.sent).run fresh = .ok () once ∧
      (applyEach (fronts.flatten ++ e.sent)).run fresh = .ok () again ∧
      again.keysAt = once.keysAt ∧ once.keysAt = e.keysAt := by
  intro fresh
  obtain ⟨hdb, hreplays⟩ := replays_sent h
  have hempty : fresh.keysAt = fun _ => ∅ := keysAt_new config' now'
  have hplain (db : Nat) : (fresh.keysAt db).Plain := hempty ▸ .empty
  have hsent : ∀ x ∈ e.sent, x.1 < fresh.databases.length := fun x hx =>
    Nat.lt_of_lt_of_eq (Nat.lt_of_lt_of_le (hdb x hx) hd) List.length_replicate.symm
  have hsub : fronts.flatten ⊆ e.sent := fun x hx => by
    obtain ⟨front, hfront, hx⟩ := List.mem_flatten.mp hx
    exact (hfronts front hfront).subset hx
  have hall : ∀ x ∈ fronts.flatten ++ e.sent, x.1 < fresh.databases.length := fun x hx =>
    (List.mem_append.mp hx).elim (fun hx => hsent x (hsub hx)) (hsent x)
  obtain ⟨once, hrun, honce⟩ := run_applyEach hplain hsent
  obtain ⟨again, hrun', hagain⟩ := run_applyEach hplain hall
  rw [hempty] at honce hagain
  refine ⟨once, again, hrun, hrun', ?_, ?_⟩
  · rw [hagain, honce, foldl_deliver_append hsub]
  · rw [honce, hreplays.eq_foldl fun _ => .empty]

/-- A field is written, kept from expiring, deleted with its container and written again. The log is
cut after three commands and after one, and starts again each time. -/
theorem redelivery_after_two_interruptions :
    let new := Engine.new {} 1000
    let written := (new.after (.write 0 (.set [1] [10] [7] { ttl := .set (.after 5) }))).after
      (.write 0 (.persist [1] [10]))
    let e := (written.after (.delete 0 (.one [1] [10] .next))).after
      (.write 0 (.incrBy [1] [10] 41 {} .next .keep))
    let fresh := { Engine.new { layout := .fine } 9 with role := .replica }
    let fronts := [e.sent.take 3, e.sent.take 1]
    (new.Reaches (fun _ r => r.IsLocal) e ∧ e.sent.length = 5 ∧ ∀ front ∈ fronts, front <+: e.sent) ∧
      ∃ once again, (applyEach e.sent).run fresh = .ok () once ∧
        (applyEach (fronts.flatten ++ e.sent)).run fresh = .ok () again ∧
        again.keysAt = once.keysAt ∧ once.keysAt = e.keysAt := by
  intro new written e fresh fronts
  have he : new.Reaches (fun _ r => r.IsLocal) e :=
    .step _ (.step _ (.step _ (.step _ .refl trivial) trivial) trivial) trivial
  have hfronts : ∀ front ∈ fronts, front <+: e.sent :=
    List.forall_mem_cons.mpr ⟨List.take_prefix 3 e.sent,
      List.forall_mem_singleton.mpr (List.take_prefix 1 e.sent)⟩
  exact ⟨⟨he, by decide +kernel, hfronts⟩,
    redelivery_changes_nothing he (by decide) hfronts .replica⟩

end Engine

end ExpiringHash
