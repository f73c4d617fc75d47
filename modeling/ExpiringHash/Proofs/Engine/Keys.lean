import ExpiringHash.Engine.Request
import ExpiringHash.Proofs.Engine.Steps

/-!
# What requests about keys keep

A request about whole keys comes down to deleting keys, filing values under keys that are free, and
clearing databases: a rename or move deletes its source and files the value under its target, and the
two notices between keep the index in step. So a property of databases that these three changes keep
is kept by every request about keys (`Database.Lasting`).
-/
namespace ExpiringHash

/-- A property of databases with tidy keys that steps of actions keep, and that deleting a key,
filing a value under a free key and clearing the database keep. -/
structure Database.Lasting (I : Database → Prop) : Prop where
  tidy : ∀ {d}, I d → d.keys.Tidy
  step : ∀ {w w' : Work}, I w.database → w.Step (fun _ => True) w' → I w'.database
  deleteKey : ∀ {d}, I d → ∀ key, I (d.deleteKey key).2
  attach : ∀ {d key v}, I d → d.keys.get? key = none → v.Tidy key → I (d.attach key v)
  clear : ∀ {d}, I d → I d.clear

theorem Database.Lasting.of_steps {I : Database → Prop} {w w' : Work} (hI : Lasting I)
    (h : I w.database) (hs : Work.Steps (fun _ => True) w w') : I w'.database := by
  induction hs with
  | refl => exact h
  | tail _ hs ih => exact hI.step ih hs

theorem Database.InStep.lasting (l : Layout) : Lasting (InStep l) where
  tidy h := h.tidy
  step h hs := hs.inStep (.of_tidy h.tidy) h
  deleteKey h key := h.deleteKey key
  attach h hfree hv := h.attach hfree hv
  clear h := h.clear

theorem Database.lasting_tidy : Lasting fun d => d.keys.Tidy where
  tidy h := h
  step h hs := (hs.sound (.of_tidy h)).tidy
  deleteKey {d} h key := by
    rw [keys_deleteKey]
    exact KeySpace.Tidy.erase h key
  attach h _ hv := KeySpace.Tidy.put h hv
  clear _ := .empty

theorem modify_of_getElem? {α : Type} {l : List α} {i : Nat} {a : α} (h : l[i]? = some a)
    (f : α → α) : l.modify i f = l.set i (f a) := by
  obtain ⟨hi, rfl⟩ := List.getElem?_eq_some_iff.mp h
  apply List.ext_getElem?
  intro j
  rw [List.getElem?_modify, List.getElem?_set]
  by_cases hj : i = j
  · subst hj
    simp [hi]
  · simp [hj]

theorem modify_set {α : Type} (l : List α) (i : Nat) (a : α) (f : α → α) :
    (l.set i a).modify i f = l.set i (f a) := by
  apply List.ext_getElem?
  intro j
  simp only [List.getElem?_modify, List.getElem?_set]
  split <;> simp_all

/-- What a change of one member keeps, all members keep. -/
theorem forall_mem_modify {α : Type} {P : α → Prop} {l : List α} {i : Nat} {f : α → α}
    (hl : ∀ a ∈ l, P a) (hf : ∀ a, P a → P (f a)) : ∀ a ∈ l.modify i f, P a := by
  intro a hm
  obtain ⟨j, hj⟩ := List.mem_iff_getElem?.mp hm
  rw [List.getElem?_modify] at hj
  obtain ⟨b, hb, rfl⟩ := Option.map_eq_some_iff.mp hj
  have hb := hl b (List.mem_of_getElem? hb)
  split
  · exact hf b hb
  · exact hb

namespace Engine

variable {I : Database → Prop} {e e' : Engine} {db : Nat} {d : Database} {key : Bytes}

/-- All databases have a property, and neither their number nor the settings change. -/
def Keeps (I : Database → Prop) (e e' : Engine) : Prop :=
  (∀ d ∈ e.databases, I d) → e'.config = e.config ∧
    e'.databases.length = e.databases.length ∧ ∀ d ∈ e'.databases, I d

instance : IsPreorder Engine (Keeps I) where
  refl _ h := ⟨rfl, rfl, h⟩
  trans _ _ _ h h' he := by
    obtain ⟨hc, hl, hi⟩ := h he
    obtain ⟨hc', hl', hi'⟩ := h' hi
    exact ⟨hc'.trans hc, hl'.trans hl, hi'⟩

theorem keeps_of_eq (hc : e'.config = e.config) (hd : e'.databases = e.databases) :
    Keeps I e e' := fun h => ⟨hc, by rw [hd], by rw [hd]; exact h⟩

theorem keeps_set (hc : e'.config = e.config) (hd : e'.databases = e.databases.set db d)
    (h : (∀ d ∈ e.databases, I d) → I d) : Keeps I e e' := by
  refine fun he => ⟨hc, by rw [hd, List.length_set], fun d' hm => ?_⟩
  rw [hd] at hm
  rcases List.mem_or_eq_of_mem_set hm with hm | rfl
  · exact he d' hm
  · exact h he

theorem forall_mem_new {I : Database → Prop} {config : Config} (now : UInt64)
    (h : I (.new config.layout)) : ∀ d ∈ (Engine.new config now).databases, I d := by
  intro d hd
  rw [List.eq_of_mem_replicate hd]
  exact h

theorem run_deleteKey (db : Nat) (key : Bytes) (e : Engine) :
    (deleteKey db key).run e = match e.databases[db]? with
      | none => .error (.invalidDatabase db) e
      | some d => .ok (d.deleteKey key).1 (e.setDatabase db (d.deleteKey key).2) := by
  change EStateM.run (MonadExcept.ofExcept (e.database db) >>= fun d => _) e = _
  rw [database]
  cases e.databases[db]? <;> rfl

/-- A key is deleted before its database changes further. -/
theorem run_replace (db : Nat) (key : Bytes) (f : Database → Database) (e : Engine) :
    (do discard (deleteKey db key); change db f : EngineM Unit).run e = match e.databases[db]? with
      | none => .error (.invalidDatabase db) e
      | some d => .ok () (e.setDatabase db (f (d.deleteKey key).2)) := by
  rw [EStateM.run_bind, run_discard, run_deleteKey]
  cases hd : e.databases[db]? with
  | none => rfl
  | some d =>
    change EStateM.Result.ok () { e with databases := (e.databases.set db _).modify db f } = _
    rw [modify_set]
    rfl

theorem run_checkDatabase (db : Nat) (e : Engine) :
    (checkDatabase db).run e = match e.databases[db]? with
      | none => .error (.invalidDatabase db) e
      | some _ => .ok () e := by
  change (discard (MonadExcept.ofExcept (e.database db)) : EngineM Unit).run e = _
  rw [run_discard, database]
  cases e.databases[db]? <;> rfl

/-- A load finds its database, decodes the dump and files what it holds in place of what was there. -/
theorem run_load (db : Nat) (dump : Bytes) (e : Engine) :
    (load db dump).run e = match e.databases[db]? with
      | none => .error (.invalidDatabase db) e
      | some d => match Container.ofDump dump with
        | .error fault => .error (.corrupt fault) e
        | .ok c => .ok c.key (e.setDatabase db ((d.deleteKey c.key).2.attach c.key (.container c))) := by
  rw [load, EStateM.run_bind, run_checkDatabase]
  cases hd : e.databases[db]? with
  | none => rfl
  | some d =>
    dsimp only
    cases Container.ofDump dump with
    | error fault => rfl
    | ok c =>
      have hreplace := run_replace db c.key (·.attach c.key (.container c)) e
      rw [hd] at hreplace
      dsimp only
      rw [← bind_assoc, EStateM.run_bind, hreplace]
      rfl

theorem keeps_deleteKey (hI : Database.Lasting I) (db : Nat) (key : Bytes) :
    Leads (Keeps I) (deleteKey db key) := by
  intro e
  rw [run_deleteKey]
  cases hd : e.databases[db]? with
  | none => exact refl_of (Keeps I) e
  | some d => exact keeps_set rfl rfl fun h => hI.deleteKey (h d (List.mem_of_getElem? hd)) key

/-- A value may be filed in place of the one there was. -/
theorem keeps_replace (hI : Database.Lasting I) (db : Nat) (key : Bytes) {v : Value}
    (hv : v.Tidy key) :
    Leads (Keeps I) (do discard (deleteKey db key); change db (·.attach key v) : EngineM Unit) := by
  intro e
  rw [run_replace]
  cases hd : e.databases[db]? with
  | none => exact refl_of (Keeps I) e
  | some d =>
    refine keeps_set rfl rfl fun h => ?_
    exact hI.attach (hI.deleteKey (h d (List.mem_of_getElem? hd)) key)
      (Database.get?_deleteKey d key) hv

theorem keeps_insertForeign (hI : Database.Lasting I) (db : Nat) (key : Bytes) (type : String)
    (payload : Bytes) : Leads (Keeps I) (insertForeign db key type payload) :=
  keeps_replace hI db key trivial

theorem keeps_flush (hI : Database.Lasting I) (db : Nat) : Leads (Keeps I) (flush db) := by
  refine Leads.bind (Leads.bind Leads.get fun _ => (Leads.ofExcept _).discard) fun _ e => ?_
  exact fun h => ⟨rfl, List.length_modify .., forall_mem_modify h fun _ => hI.clear⟩

theorem keeps_flushAll (hI : Database.Lasting I) : Leads (Keeps I) flushAll := by
  refine fun e h => ⟨rfl, List.length_map _, fun d hm => ?_⟩
  obtain ⟨d', hd', rfl⟩ := List.mem_map.mp hm
  exact hI.clear (h d' hd')

theorem run_swap (a b : Nat) (e : Engine) :
    (swap a b).run e = match e.databases[a]? with
      | none => .error (.invalidDatabase a) e
      | some first => match e.databases[b]? with
        | none => .error (.invalidDatabase b) e
        | some second => .ok () ((e.setDatabase a second).setDatabase b first) := by
  rw [swap, run_get_bind, run_ofExcept_bind, database]
  cases e.databases[a]? with
  | none => rfl
  | some first =>
    dsimp only
    rw [run_get_bind, run_ofExcept_bind, database]
    cases e.databases[b]? <;> rfl

theorem keeps_swap (a b : Nat) : Leads (Keeps I) (swap a b) := by
  intro e
  rw [run_swap]
  cases ha : e.databases[a]? with
  | none => exact refl_of (Keeps I) e
  | some first =>
    cases hb : e.databases[b]? with
    | none => exact refl_of (Keeps I) e
    | some second =>
      intro h
      have hset : Keeps I e (e.setDatabase a second) :=
        keeps_set rfl rfl fun h => h second (List.mem_of_getElem? hb)
      have hset' : Keeps I (e.setDatabase a second) ((e.setDatabase a second).setDatabase b first) :=
        keeps_set rfl rfl fun _ => h first (List.mem_of_getElem? ha)
      exact trans_of (Keeps I) hset hset' h

theorem consistent_takeFields {n : Nat} {f g : Fields} {bs rest : Bytes} (hf : f.Consistent)
    (h : Container.takeFields n f bs = .ok (g, rest)) : g.Consistent := by
  induction n generalizing f bs with
  | zero =>
    cases h
    exact hf
  | succ n ih =>
    obtain ⟨⟨⟨field, r⟩, bs'⟩, -, h⟩ := ok_of_bind h
    dsimp only at h
    split at h
    · cases h
    · exact ih (hf.put field r) h

/-- A dump is read as a container that is consistent. -/
theorem consistent_ofDump {bs : Bytes} {c : Container} (h : Container.ofDump bs = .ok c) :
    c.fields.Consistent := by
  obtain ⟨⟨count, bs'⟩, -, h⟩ := ok_of_bind h
  obtain ⟨⟨key, bs''⟩, -, h⟩ := ok_of_bind h
  obtain ⟨⟨fields, rest⟩, hf, h⟩ := ok_of_bind h
  dsimp only at h
  split at h
  · cases h
    exact consistent_takeFields .empty hf
  · cases h

theorem keeps_load (hI : Database.Lasting I) (db : Nat) (dump : Bytes) :
    Leads (Keeps I) (load db dump) := by
  have hcheck : Leads (Keeps I) (checkDatabase db) :=
    Leads.bind Leads.get fun _ => (Leads.ofExcept _).discard
  refine Leads.bind hcheck fun _ => ?_
  cases hd : Container.ofDump dump with
  | error fault => exact Leads.throw _
  | ok c =>
    have hr := keeps_replace hI db c.key (v := .container c) ⟨rfl, consistent_ofDump hd⟩
    have hall := Leads.bind hr fun _ => Leads.pure c.key
    rw [bind_assoc] at hall
    exact hall

theorem run_copyKey {fromDb toDb : Nat} {source target : Bytes} {replace : Bool} {d' : Database}
    (hd : e.databases[fromDb]? = some d) (hd' : e.databases[toDb]? = some d') :
    (copyKey fromDb source toDb target replace).run e =
      if fromDb = toDb ∧ source = target then .error .badOption e
      else match d.keys.get? source with
        | none => .ok false e
        | some v =>
          if d'.keys.hasKey target && !replace then .ok false e
          else .ok true
            (e.setDatabase toDb ((d'.deleteKey target).2.attach target (v.relabel target))) := by
  rw [copyKey, run_get_bind, run_ofExcept_bind, database, hd]
  dsimp only
  rw [run_get_bind, run_ofExcept_bind, database, hd']
  dsimp only
  split
  · rfl
  · cases d.keys.get? source with
    | none => rfl
    | some v =>
      dsimp only
      split
      · rfl
      · have hrun := run_replace toDb target (·.attach target (v.relabel target)) e
        rw [hd'] at hrun
        rw [← bind_assoc, EStateM.run_bind, hrun]
        rfl

/-- A copy is refused, or does nothing, or files the value in place of the one there was. -/
theorem copyKey_cases (fromDb : Nat) (source : Bytes) (toDb : Nat) (target : Bytes) (replace : Bool)
    (e : Engine) :
    (∃ err, (copyKey fromDb source toDb target replace).run e = .error err e ∧
        err.isFatal = false) ∨
      (copyKey fromDb source toDb target replace).run e = .ok false e ∨
      ∃ d v d', e.databases[fromDb]? = some d ∧ d.keys.get? source = some v ∧
        e.databases[toDb]? = some d' ∧ ¬(fromDb = toDb ∧ source = target) ∧
        (replace = true ∨ d'.keys.get? target = none) ∧
        (copyKey fromDb source toDb target replace).run e =
          .ok true (e.setDatabase toDb ((d'.deleteKey target).2.attach target (v.relabel target))) := by
  cases hf : e.databases[fromDb]? with
  | none =>
    rw [copyKey, run_get_bind, run_ofExcept_bind, database, hf]
    exact .inl ⟨_, rfl, rfl⟩
  | some d =>
    cases ht : e.databases[toDb]? with
    | none =>
      rw [copyKey, run_get_bind, run_ofExcept_bind, database, hf]
      dsimp only
      rw [run_get_bind, run_ofExcept_bind, database, ht]
      exact .inl ⟨_, rfl, rfl⟩
    | some d' =>
      rw [run_copyKey hf ht]
      split
      · exact .inl ⟨_, rfl, rfl⟩
      · next hne =>
        cases hv : d.keys.get? source with
        | none => exact .inr (.inl rfl)
        | some v =>
          dsimp only
          split
          · exact .inr (.inl rfl)
          · next hfree =>
            refine .inr (.inr ⟨d, v, d', rfl, hv, rfl, hne, ?_, rfl⟩)
            cases replace with
            | true => exact .inl rfl
            | false => exact .inr (by simpa [SortedTable.hasKey_eq] using hfree)

theorem keeps_copyKey (hI : Database.Lasting I) (fromDb : Nat) (source : Bytes) (toDb : Nat)
    (target : Bytes) (replace : Bool) :
    Leads (Keeps I) (copyKey fromDb source toDb target replace) := by
  intro e
  rcases copyKey_cases fromDb source toDb target replace e with
    ⟨err, hrun, -⟩ | hrun | ⟨d, v, d', hd, hv, hd', -, -, hrun⟩
  · rw [hrun]
    exact refl_of (Keeps I) e
  · rw [hrun]
    exact refl_of (Keeps I) e
  · rw [hrun]
    refine keeps_set rfl rfl fun h => ?_
    have htidy := hI.tidy (h d (List.mem_of_getElem? hd)) source v hv
    exact hI.attach (hI.deleteKey (h d' (List.mem_of_getElem? hd')) target)
      (Database.get?_deleteKey d' target) htidy.relabel

theorem run_receive (n : Notice) (e : Engine) :
    (receive n).run e = match e.databases[n.db]? with
      | none => .error (.invalidDatabase n.db) e
      | some _ => .ok () (match (n.receive e.pending).1 with
        | none => { e with pending := (n.receive e.pending).2 }
        | some r => relocate r { e with pending := (n.receive e.pending).2 }) := by
  rw [receive, EStateM.run_bind, run_checkDatabase]
  cases e.databases[n.db]? <;> rfl

theorem relocate_eq {r : Relocation} {c : Container} (hd : e.databases[r.toDb]? = some d)
    (hc : d.keys.get? r.toKey = some (.container c)) :
    relocate r e = { e with
      databases := (e.databases.modify r.fromDb fun d =>
        { d with index := d.index.detach r.fromKey c.fields.expiring.toList }).modify r.toDb fun d =>
          { d.putContainer r.toKey { c with key := r.toKey } with
            index := d.index.attach r.toKey c.fields.expiring.toList } } := by
  unfold relocate
  rw [hd, Option.bind_some, hc]
  rfl

/-- The keys with a value put under another key; its index entries stay where they are. -/
def rekey (source target : Bytes) (v : Value) (d : Database) : Database :=
  { d with keys := SortedTable.put (SortedTable.erase d.keys source) target v }

/-- A value of another type has no index entries. -/
theorem rekey_foreign {source target payload : Bytes} {type : String}
    (h : d.keys.get? source = some (.foreign type payload)) :
    rekey source target (.foreign type payload) d =
      (d.deleteKey source).2.attach target (.foreign type payload) := by
  simp only [Database.deleteKey, h]
  rfl

/-- A container that was put under another key and has its index entries filed anew has been deleted
and filed under its new key. -/
theorem relocate_rekeyed {target : Bytes} {c : Container} (hdb : db < e.databases.length)
    (hc : d.keys.get? c.key = some (.container c)) :
    relocate ⟨db, c.key, db, target⟩
      { e with databases := e.databases.set db (rekey c.key target (.container c) d) } =
      { e with
        databases := e.databases.set db
          ((d.deleteKey c.key).2.attach target (.container { c with key := target })) } := by
  rw [relocate_eq (List.getElem?_set_self hdb) (SortedTable.get?_put_self _ _ _)]
  dsimp only
  rw [modify_set, modify_set]
  simp only [Database.deleteKey, hc, rekey, Database.putContainer, KeySpace.putContainer,
    SortedTable.put_put]
  rfl

theorem run_renameKey {source target : Bytes} {v : Value} (hd : e.databases[db]? = some d)
    (ht : d.keys.Tidy) (hv : d.keys.get? source = some v) (hne : source ≠ target) :
    ∃ pending, (renameKey db source target).run e = .ok () { e with
      pending
      databases := e.databases.set db
        (((d.deleteKey target).2.deleteKey source).2.attach target (v.relabel target)) } := by
  have hget : (d.deleteKey target).2.keys.get? source = some v := by
    rw [Database.keys_deleteKey, SortedTable.get?_erase_of_ne hne]
    exact hv
  rw [renameKey, run_get_bind, run_ofExcept_bind, database, hd]
  dsimp only
  rw [hv]
  dsimp only
  rw [if_pos hne]
  cases v with
  | foreign type payload =>
    refine ⟨e.pending, ?_⟩
    change EStateM.run (do discard (deleteKey db target); change db (rekey source target _)) e = _
    rw [run_replace, hd]
    dsimp only
    rw [rekey_foreign hget]
    rfl
  | container c =>
    refine ⟨.idle, ?_⟩
    obtain rfl : c.key = source := ht.key_eq hv
    change EStateM.run (receive (.renameFrom db c.key) >>= fun _ =>
      discard (deleteKey db target) >>= fun _ => change db (rekey c.key target (.container c)) >>=
        fun _ => receive (.renameTo db target)) e = _
    have hdb : db < e.databases.length := (List.getElem?_eq_some_iff.mp hd).1
    rw [EStateM.run_bind, run_receive]
    dsimp only [Notice.db, Notice.receive]
    rw [hd]
    dsimp only
    rw [← bind_assoc, EStateM.run_bind, run_replace]
    dsimp only
    rw [hd]
    dsimp only
    rw [run_receive]
    dsimp only [Notice.db, Notice.receive, PendingRelocation.renameTo?, setDatabase]
    rw [if_pos rfl, List.getElem?_set_self hdb]
    exact congrArg (EStateM.Result.ok ())
      (relocate_rekeyed (e := { e with pending := .idle }) hdb hget)

/-- A rename is refused, or does nothing, or files the value under its other key. -/
theorem renameKey_cases (db : Nat) (source target : Bytes)
    (ht : ∀ d ∈ e.databases, d.keys.Tidy) :
    (∃ err, (renameKey db source target).run e = .error err e ∧ err.isFatal = false) ∨
      (source = target ∧ (renameKey db source target).run e = .ok () e) ∨
      ∃ d v pending, e.databases[db]? = some d ∧ d.keys.get? source = some v ∧ source ≠ target ∧
        (renameKey db source target).run e = .ok () { e with
          pending
          databases := e.databases.set db
            (((d.deleteKey target).2.deleteKey source).2.attach target (v.relabel target)) } := by
  cases hd : e.databases[db]? with
  | none =>
    rw [renameKey, run_get_bind, run_ofExcept_bind, database, hd]
    exact .inl ⟨_, rfl, rfl⟩
  | some d =>
    cases hv : d.keys.get? source with
    | none =>
      rw [renameKey, run_get_bind, run_ofExcept_bind, database, hd]
      dsimp only
      rw [hv]
      exact .inl ⟨_, rfl, rfl⟩
    | some v =>
      by_cases hne : source = target
      · rw [renameKey, run_get_bind, run_ofExcept_bind, database, hd]
        dsimp only
        rw [hv]
        dsimp only
        rw [if_neg fun h => h hne]
        exact .inr (.inl ⟨hne, rfl⟩)
      · obtain ⟨pending, hrun⟩ :=
          run_renameKey (e := e) hd (ht d (List.mem_of_getElem? hd)) hv hne
        exact .inr (.inr ⟨d, v, pending, rfl, hv, hne, hrun⟩)

theorem keeps_renameKey (hI : Database.Lasting I) (db : Nat) (source target : Bytes) :
    Leads (Keeps I) (renameKey db source target) := by
  intro e he
  rcases renameKey_cases db source target fun d hd => hI.tidy (he d hd) with
    ⟨err, hrun, -⟩ | ⟨-, hrun⟩ | ⟨d, v, pending, hd, hv, hne, hrun⟩
  · rw [hrun]
    exact refl_of (Keeps I) e he
  · rw [hrun]
    exact refl_of (Keeps I) e he
  · have hid := he d (List.mem_of_getElem? hd)
    rw [hrun]
    refine keeps_set (e := e) rfl rfl (fun _ => ?_) he
    refine hI.attach (hI.deleteKey (hI.deleteKey hid target) source) ?_
      (hI.tidy hid source v hv).relabel
    rw [Database.keys_deleteKey, SortedTable.get?_erase_of_ne fun h => hne h.symm]
    exact Database.get?_deleteKey d target

/-- A container that was put into another database and has its index entries filed anew has been
deleted and filed there. -/
theorem relocate_moved {a b : Nat} {d' : Database} {c : Container} (hab : a ≠ b)
    (hb : b < e.databases.length) (hc : d.keys.get? c.key = some (.container c)) :
    relocate ⟨a, c.key, b, c.key⟩ { e with
      databases := (e.databases.set a { d with keys := d.keys.erase c.key }).set b
        { d' with keys := d'.keys.put c.key (.container c) } } =
      { e with
        databases := (e.databases.set a (d.deleteKey c.key).2).set b
          (d'.attach c.key (.container c)) } := by
  have hmoved {x y : Database} : ((e.databases.set a x).set b y)[b]? = some y :=
    List.getElem?_set_self (by rw [List.length_set]; exact hb)
  rw [relocate_eq hmoved (SortedTable.get?_put_self _ _ _)]
  dsimp only
  rw [List.set_comm _ _ hab, modify_set, List.set_comm _ _ hab.symm, modify_set]
  simp only [Database.deleteKey, hc, Database.putContainer, KeySpace.putContainer,
    SortedTable.put_put]
  rfl

theorem run_moveKey {a b : Nat} {d' : Database} {v : Value} (hab : a ≠ b)
    (ha : e.databases[a]? = some d) (hb : e.databases[b]? = some d') (ht : d.keys.Tidy)
    (hv : d.keys.get? key = some v) (hfree : d'.keys.hasKey key = false) :
    ∃ pending, (moveKey a key b).run e = .ok true { e with
      pending
      databases := (e.databases.set a (d.deleteKey key).2).set b (d'.attach key v) } := by
  rw [moveKey, run_get_bind, run_ofExcept_bind, database, ha]
  dsimp only
  rw [run_get_bind, run_ofExcept_bind, database, hb]
  dsimp only
  rw [if_neg hab, hv]
  dsimp only
  rw [hfree]
  have hb' {x : Database} : (e.databases.set a x)[b]? = some d' := by
    rw [List.getElem?_set_ne hab]
    exact hb
  cases v with
  | foreign type payload =>
    refine ⟨e.pending, ?_⟩
    change EStateM.Result.ok true { e with
      databases := (e.databases.modify a fun d => { d with keys := d.keys.erase key }).modify b
        fun d => { d with keys := d.keys.put key (.foreign type payload) } } = _
    rw [modify_of_getElem? ha, modify_of_getElem? hb']
    simp only [Database.deleteKey, hv]
    rfl
  | container c =>
    refine ⟨.idle, ?_⟩
    obtain rfl : c.key = key := ht.key_eq hv
    have hlt : b < e.databases.length := (List.getElem?_eq_some_iff.mp hb).1
    have hmoved {x y : Database} : ((e.databases.set a x).set b y)[b]? = some y :=
      List.getElem?_set_self (by rw [List.length_set]; exact hlt)
    change EStateM.run (receive (.moveFrom a c.key) >>= fun _ =>
      change a (fun d => { d with keys := d.keys.erase c.key }) >>= fun _ =>
        change b (fun d => { d with keys := d.keys.put c.key (.container c) }) >>= fun _ =>
          receive (.moveTo b c.key) >>= fun _ => pure true) e = _
    rw [EStateM.run_bind, run_receive]
    dsimp only [Notice.db]
    rw [ha]
    change EStateM.run (receive (.moveTo b c.key) >>= fun _ => pure true) { e with
      pending := .move a c.key
      databases := (e.databases.modify a fun d => { d with keys := d.keys.erase c.key }).modify b
        fun d => { d with keys := d.keys.put c.key (.container c) } } = _
    rw [modify_of_getElem? ha, modify_of_getElem? hb', EStateM.run_bind, run_receive]
    dsimp only [Notice.db, Notice.receive, PendingRelocation.moveTo?]
    rw [if_pos rfl, hmoved]
    exact congrArg (EStateM.Result.ok true)
      (relocate_moved (e := { e with pending := .idle }) hab hlt hv)

/-- A move is refused, or does nothing, or files the value in the other database. -/
theorem moveKey_cases (a : Nat) (key : Bytes) (b : Nat) (ht : ∀ d ∈ e.databases, d.keys.Tidy) :
    (∃ err, (moveKey a key b).run e = .error err e ∧ err.isFatal = false) ∨
      (moveKey a key b).run e = .ok false e ∨
      ∃ d d' v pending, e.databases[a]? = some d ∧ e.databases[b]? = some d' ∧
        d.keys.get? key = some v ∧ d'.keys.get? key = none ∧
        (moveKey a key b).run e = .ok true { e with
          pending
          databases := (e.databases.set a (d.deleteKey key).2).set b (d'.attach key v) } := by
  cases ha : e.databases[a]? with
  | none =>
    rw [moveKey, run_get_bind, run_ofExcept_bind, database, ha]
    exact .inl ⟨_, rfl, rfl⟩
  | some d =>
    cases hb : e.databases[b]? with
    | none =>
      rw [moveKey, run_get_bind, run_ofExcept_bind, database, ha]
      dsimp only
      rw [run_get_bind, run_ofExcept_bind, database, hb]
      exact .inl ⟨_, rfl, rfl⟩
    | some d' =>
      by_cases hmoves : a ≠ b ∧ ∃ v, d.keys.get? key = some v ∧ d'.keys.hasKey key = false
      · obtain ⟨hab, v, hv, hfree⟩ := hmoves
        have hget : d'.keys.get? key = none := by
          rw [SortedTable.hasKey_eq, Option.isSome_eq_false_iff] at hfree
          exact Option.isNone_iff_eq_none.mp hfree
        obtain ⟨pending, hrun⟩ :=
          run_moveKey (e := e) hab ha hb (ht d (List.mem_of_getElem? ha)) hv hfree
        exact .inr (.inr ⟨d, d', v, pending, rfl, rfl, hv, hget, hrun⟩)
      · rw [moveKey, run_get_bind, run_ofExcept_bind, database, ha]
        dsimp only
        rw [run_get_bind, run_ofExcept_bind, database, hb]
        dsimp only
        split
        · exact .inl ⟨_, rfl, rfl⟩
        · next hab =>
          split
          · exact .inr (.inl rfl)
          · next v hv =>
            split
            · exact .inr (.inl rfl)
            · next hfree => exact absurd ⟨hab, v, hv, by simpa using hfree⟩ hmoves

theorem keeps_moveKey (hI : Database.Lasting I) (a : Nat) (key : Bytes) (b : Nat) :
    Leads (Keeps I) (moveKey a key b) := by
  intro e he
  rcases moveKey_cases a key b fun d hd => hI.tidy (he d hd) with
    ⟨err, hrun, -⟩ | hrun | ⟨d, d', v, pending, ha, hb, hv, hget, hrun⟩
  · rw [hrun]
    exact refl_of (Keeps I) e he
  · rw [hrun]
    exact refl_of (Keeps I) e he
  · have hid := he d (List.mem_of_getElem? ha)
    have hid' := he d' (List.mem_of_getElem? hb)
    have hsource : Keeps I e (e.setDatabase a (d.deleteKey key).2) :=
      keeps_set rfl rfl fun _ => hI.deleteKey hid key
    have htarget : Keeps I (e.setDatabase a (d.deleteKey key).2)
        (stateOf ((moveKey a key b).run e)) := by
      rw [hrun]
      refine keeps_set rfl (Eq.refl ((e.databases.set a _).set b (d'.attach key v))) fun _ => ?_
      exact hI.attach hid' hget (hI.tidy hid key v hv)
    exact trans_of (Keeps I) hsource htarget he

theorem keeps_of_traces (hI : Database.Lasting I) (h : Traces (fun _ => True) e e') :
    Keeps I e e' := by
  intro he
  have hs : e.Sound fun _ => True := fun d hd =>
    ⟨hI.tidy (he d hd), fun _ _ _ => ⟨trivial, fun _ _ _ => trivial⟩⟩
  have hsteps := h hs
  clear hs h
  induction hsteps with
  | refl => exact refl_of (Keeps I) e he
  | @tail f g _ hstep ih =>
    have hnext : Keeps I f g := by
      cases hstep with
      | @work db d w hd hw =>
        exact keeps_set rfl rfl fun hf => hI.of_steps (hf d (List.mem_of_getElem? hd)) hw
      | idle hd _ hc => exact keeps_of_eq hc hd
    obtain ⟨hc, hl, hf⟩ := ih
    obtain ⟨hc', hl', hg⟩ := hnext hf
    exact ⟨hc'.trans hc, hl'.trans hl, hg⟩

/-- Every request about keys keeps what lasts. -/
theorem keeps_key {α : Type} (hI : Database.Lasting I) (k : KeyRequest α) :
    Leads (Keeps I) k.perform := by
  cases k with
  | insertForeign db key type payload => exact keeps_insertForeign hI db key type payload
  | delete db key => exact keeps_deleteKey hI db key
  | rename db source target => exact keeps_renameKey hI db source target
  | move a key b => exact keeps_moveKey hI a key b
  | copy a source b target replace => exact keeps_copyKey hI a source b target replace
  | flush db => exact keeps_flush hI db
  | flushAll => exact keeps_flushAll hI
  | swap a b => exact keeps_swap a b
  | load db dump => exact keeps_load hI db dump

end Engine

/-- A notice that a key has come to another place. -/
def Notice.IsSecond : Notice → Prop
  | .renameFrom .. => False
  | .moveFrom .. => False
  | .renameTo .. => True
  | .moveTo .. => True

/-- A second notice from the host, which is to come from within a rename or a move only. -/
def Request.IsSecondNotice {α : Type} : Request α → Prop
  | .notice n => n.IsSecond
  | _ => False

namespace Engine

theorem keeps_firstNotice {n : Notice} (h : ¬n.IsSecond) : Leads (Keeps I) (receive n) := by
  intro e
  rw [run_receive]
  cases e.databases[n.db]? with
  | none => exact refl_of (Keeps I) e
  | some d =>
    cases n with
    | renameFrom db key => exact keeps_of_eq rfl rfl
    | moveFrom db key => exact keeps_of_eq rfl rfl
    | renameTo db key => exact absurd trivial h
    | moveTo db key => exact absurd trivial h

/-- Every request but a second notice keeps what lasts. -/
theorem keeps_perform {α : Type} (hI : Database.Lasting I) {r : Request α}
    (h : ¬r.IsSecondNotice) : Leads (Keeps I) r.perform := by
  have hlocal (hl : r.IsLocal) : Leads (Keeps I) r.perform :=
    (traces_perform ⟨fun _ _ => trivial, fun _ => trivial⟩ hl fun _ _ => trivial).mono
      fun _ _ => keeps_of_traces hI
  cases r with
  | key k => exact keeps_key hI k
  | notice n => exact keeps_firstNotice h
  | write => exact hlocal trivial
  | delete => exact hlocal trivial
  | read => exact hlocal trivial
  | query => exact hlocal trivial
  | expire => exact hlocal trivial
  | tick => exact hlocal trivial
  | apply => exact hlocal trivial
  | setClock => exact hlocal trivial
  | setRole => exact hlocal trivial

/-- Every request keeps what lasts and relocations keep, stray second notices included. -/
theorem keeps_perform_of_relocate {α : Type} (hI : Database.Lasting I)
    (hrelocate : ∀ r e, Keeps I e (relocate r e)) (r : Request α) : Leads (Keeps I) r.perform := by
  by_cases hn : r.IsSecondNotice
  · cases r with
    | notice n =>
      intro e
      change Keeps _ e (stateOf ((receive n).run e))
      rw [run_receive]
      cases e.databases[n.db]? with
      | none => exact refl_of (Keeps _) e
      | some _ =>
        dsimp only
        cases (n.receive e.pending).1 with
        | none => exact keeps_of_eq rfl rfl
        | some r =>
          exact trans_of (Keeps _) (keeps_of_eq rfl rfl)
            (hrelocate r { e with pending := (n.receive e.pending).2 })
    | _ => cases hn
  · exact keeps_perform hI hn

/-- A run of requests of one kind is a run of requests of any kind that takes them in. -/
theorem Reaches.mono {kind kind' : ∀ α : Type, Request α → Prop} {e e' : Engine}
    (h : e.Reaches kind e') (hk : ∀ α r, kind α r → kind' α r) : e.Reaches kind' e' := by
  induction h with
  | refl => exact .refl
  | step r _ hr ih => exact .step r ih (hk _ r hr)

/-- What every request of a kind keeps, every run of such requests keeps. -/
theorem keeps_reaches {kind : ∀ α : Type, Request α → Prop}
    (hk : ∀ α r, kind α r → Leads (Keeps I) r.perform) (h : e.Reaches kind e') : Keeps I e e' := by
  induction h with
  | refl => exact refl_of (Keeps I) e
  | step r _ hr ih =>
    rw [after_eq]
    exact trans_of (Keeps I) ih (hk _ r hr _)

end Engine

end ExpiringHash
