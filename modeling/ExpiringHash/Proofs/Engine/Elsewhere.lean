import ExpiringHash.Proofs.Database.Elsewhere
import ExpiringHash.Proofs.Engine.Matching
import ExpiringHash.Proofs.Engine.Strays

/-!
# Requests about other fields and keys

A request that is about other fields and keys leaves a field alone: what is live of it stays as it is,
whether the request succeeds or not, as long as the clock does not take it to its expiry. Reads, queries
and whatever clears expired fields away are about no field in this sense, and so are the notices of the
host.
-/
namespace ExpiringHash

variable {α : Type}

/-- A request about whole keys that neither puts a value in the place of a key nor takes away the one
that is there. -/
def KeyRequest.IsElsewhere (db : Nat) (key : Bytes) : KeyRequest α → Prop
  | .insertForeign other k _ _ | .delete other k => (other, k) ≠ (db, key)
  | .rename other source target => (other, source) ≠ (db, key) ∧ (other, target) ≠ (db, key)
  | .move a k b => (a, k) ≠ (db, key) ∧ (b, k) ≠ (db, key)
  | .copy _ _ b target _ => (b, target) ≠ (db, key)
  | .flush other => other ≠ db
  | .flushAll => False
  | .swap a b => a ≠ db ∧ b ≠ db
  | .load other dump => ∀ c, Container.ofDump dump = .ok c → (other, c.key) ≠ (db, key)

/-- A request that is about other fields and keys than this one. -/
def Request.IsElsewhere (db : Nat) (key field : Bytes) : Request α → Prop
  | .write other w => other = db → w.key = key → field ∉ w.fields
  | .delete other d => other = db → d.key = key → field ∉ d.fields
  | .key k => k.IsElsewhere db key
  | .apply other c => other = db → c.key = key → ∃ f, c.field? = some f ∧ f ≠ field
  | .read .. | .query .. | .expire .. | .tick _ | .notice _ | .setClock _ | .setRole _ => True

namespace Engine

variable {e e' e'' : Engine} {db other : Nat} {key field k : Bytes} {d d' : Database}

/-- There is a database of the number, and in it the key holds no value of another type. -/
def Opens (e : Engine) (db : Nat) (key : Bytes) : Prop :=
  ∃ d, e.databases[db]? = some d ∧ d.keys.Open key

/-- A field shows what it showed, and its key is open if it was so before. -/
structure Leaves (db : Nat) (key field : Bytes) (e e' : Engine) : Prop where
  live : e'.live? db key field = e.live? db key field
  opens : e'.Opens db key ↔ e.Opens db key

theorem live?_of_getElem?_none (hd : e.databases[db]? = none) : e.live? db key field = none := by
  rw [live?, record?, hd]
  rfl

theorem opens_of_getElem? (hd : e.databases[db]? = some d) : e.Opens db key ↔ d.keys.Open key := by
  constructor
  · rintro ⟨d', hd', ho⟩
    cases hd.symm.trans hd'
    exact ho
  · exact fun ho => ⟨d, hd, ho⟩

namespace Leaves

theorem refl (e : Engine) : Leaves db key field e e := ⟨rfl, Iff.rfl⟩

theorem trans (h : Leaves db key field e e') (h' : Leaves db key field e' e'') :
    Leaves db key field e e'' :=
  ⟨h'.live.trans h.live, h'.opens.trans h.opens⟩

/-- It is enough that the field is left alone in its own database. -/
theorem of_database (hnow : e'.now = e.now) (hlength : e'.databases.length = e.databases.length)
    (h : ∀ {d}, e.databases[db]? = some d →
      ∃ d', e'.databases[db]? = some d' ∧ d.Leaves e.now key field d') :
    Leaves db key field e e' := by
  cases hd : e.databases[db]? with
  | none =>
    have hd' : e'.databases[db]? = none := by
      rwa [List.getElem?_eq_none_iff, hlength, ← List.getElem?_eq_none_iff]
    have hclosed (f : Engine) (hf : f.databases[db]? = none) : ¬f.Opens db key := by
      rintro ⟨d, hd, -⟩
      cases hf.symm.trans hd
    exact ⟨(live?_of_getElem?_none hd').trans (live?_of_getElem?_none hd).symm,
      iff_of_false (hclosed e' hd') (hclosed e hd)⟩
  | some d =>
    obtain ⟨d', hd', hleaves⟩ := h hd
    constructor
    · rw [live?_of_getElem? hd, live?_of_getElem? hd', hnow]
      exact hleaves.live
    · rw [opens_of_getElem? hd, opens_of_getElem? hd']
      exact hleaves.isOpen

/-- Another database may be put in the place of one if it leaves the field alone. -/
theorem of_set (hd : e.databases[other]? = some d) (hnow : e'.now = e.now)
    (hset : e'.databases = e.databases.set other d')
    (h : other = db → d.Leaves e.now key field d') : Leaves db key field e e' := by
  refine .of_database hnow (by rw [hset, List.length_set]) fun {x} hx => ?_
  rw [hset]
  by_cases ho : other = db
  · subst ho
    cases hd.symm.trans hx
    exact ⟨d', List.getElem?_set_self (List.getElem?_eq_some_iff.mp hd).1, h rfl⟩
  · exact ⟨x, (List.getElem?_set_ne ho).trans hx, .refl x⟩

/-- The keys of all databases may stay as they are. -/
theorem of_map_keys (hnow : e'.now = e.now)
    (hkeys : e'.databases.map (·.keys) = e.databases.map (·.keys)) : Leaves db key field e e' := by
  refine .of_database hnow ?_ fun {d} hd => ?_
  · simpa using congrArg List.length hkeys
  · have hdb := congrArg (·[db]?) hkeys
    simp only [List.getElem?_map, hd, Option.map_some] at hdb
    obtain ⟨d', hd', hsame⟩ := Option.map_eq_some_iff.mp hdb
    exact ⟨d', hd', .of_get? (by rw [hsame])⟩

theorem onDatabase {action : Scope → DatabaseM α} (ht : ∀ d ∈ e.databases, d.keys.Tidy)
    (h : other = db → ∀ w : Work, w.database.keys.Tidy →
      w.database.Leaves e.now key field
        (stateOf ((action (e.scope other)).run w)).database) :
    Leaves db key field e (stateOf ((onDatabase other action).run e)) := by
  cases hd : e.databases[other]? with
  | none =>
    rw [run_onDatabase, hd]
    exact .refl e
  | some d =>
    rw [stateOf_onDatabase hd]
    exact .of_set hd rfl rfl fun ho => h ho { database := d } (ht d (List.mem_of_getElem? hd))

/-- Expired fields may be reclaimed wherever they are. -/
theorem of_accounts {evs : List (Nat × Event)} {t : Trigger} (h : Accounts evs e e')
    (hevs : ∀ ev ∈ evs, ev.2.isReclaim t = true) : Leaves db key field e e' := by
  refine .of_database h.now h.length fun {d} hd => ?_
  obtain ⟨d', hd', hcourse⟩ := h.course hd
  exact ⟨d', hd', hcourse.leaves fun ev hm => .inl ⟨t, hevs _ (mem_eventsOf.mp hm)⟩⟩

/-- What follows a check may count on it. -/
theorem ofExcept_bind {check : Except HashError Unit} {x : EngineM α}
    (h : check = .ok () → Leaves db key field e (stateOf (x.run e))) :
    Leaves db key field e (stateOf ((MonadExcept.ofExcept check >>= fun _ => x).run e)) := by
  rw [run_ofExcept_bind]
  cases check with
  | error err => exact .refl e
  | ok => exact h rfl

/-- A key may be deleted, and another value put in its place. -/
theorem replace {f : Database → Database} (hne : (other, k) ≠ (db, key))
    (hf : ∀ d : Database, k ≠ key → (f d).keys.get? key = d.keys.get? key) :
    Leaves db key field e
      (stateOf ((do discard (deleteKey other k); change other f : EngineM Unit).run e)) := by
  rw [run_replace]
  cases hd : e.databases[other]? with
  | none => exact .refl e
  | some d =>
    refine .of_set hd rfl rfl fun ho => .of_get? ?_
    have hk : k ≠ key := fun hk => hne (by rw [ho, hk])
    rw [hf _ hk, Database.get?_deleteKey_of_ne hk.symm]

end Leaves

theorem get?_attach_of_ne {v : Value} (h : k ≠ key) :
    (d.attach k v).keys.get? key = d.keys.get? key :=
  SortedTable.get?_put_of_ne h.symm

/-- A request about whole keys is asked of other keys. -/
theorem leaves_key (ht : ∀ d ∈ e.databases, d.keys.Tidy) {r : KeyRequest α}
    (hr : r.IsElsewhere db key) : Leaves db key field e (stateOf (r.perform.run e)) := by
  cases r with
  | insertForeign other k type payload => exact .replace hr fun _ => get?_attach_of_ne
  | delete other k =>
    change Leaves db key field e (stateOf ((deleteKey other k).run e))
    rw [run_deleteKey]
    cases hd : e.databases[other]? with
    | none => exact .refl e
    | some d =>
      refine .of_set hd rfl rfl fun ho => .of_get? (Database.get?_deleteKey_of_ne fun hk => hr ?_)
      rw [ho, hk]
  | rename other source target =>
    change Leaves db key field e (stateOf ((renameKey other source target).run e))
    rcases renameKey_cases other source target ht with
      ⟨err, hrun, -⟩ | ⟨-, hrun⟩ | ⟨d, v, pending, hd, -, -, hrun⟩
    · exact hrun ▸ .refl e
    · exact hrun ▸ .refl e
    · rw [hrun]
      refine .of_set hd rfl rfl fun ho => .of_get? ?_
      have hsource : source ≠ key := fun hk => hr.1 (by rw [ho, hk])
      have htarget : target ≠ key := fun hk => hr.2 (by rw [ho, hk])
      rw [get?_attach_of_ne htarget, Database.get?_deleteKey_of_ne hsource.symm,
        Database.get?_deleteKey_of_ne htarget.symm]
  | move a k b =>
    change Leaves db key field e (stateOf ((moveKey a k b).run e))
    rcases moveKey_cases a k b ht with
      ⟨err, hrun, -⟩ | hrun | ⟨d, d', v, pending, ha, hb, hv, hfree, hrun⟩
    · exact hrun ▸ .refl e
    · exact hrun ▸ .refl e
    · have hab : a ≠ b := by
        rintro rfl
        cases ha.symm.trans hb
        cases hv.symm.trans hfree
      have hsource (h : a = db) : k ≠ key := fun hk => hr.1 (by rw [h, hk])
      have htarget (h : b = db) : k ≠ key := fun hk => hr.2 (by rw [h, hk])
      rw [hrun]
      -- the source is taken away first, from another database than that of the target
      let f : Engine := { e with pending, databases := e.databases.set a (d.deleteKey k).2 }
      have hf : Leaves db key field e f := .of_set ha rfl rfl fun h =>
        .of_get? (Database.get?_deleteKey_of_ne (hsource h).symm)
      have hfb : f.databases[b]? = some d' := (List.getElem?_set_ne hab).trans hb
      exact hf.trans (.of_set hfb rfl rfl fun h => .of_get? (get?_attach_of_ne (htarget h)))
  | copy a source b target replace =>
    change Leaves db key field e (stateOf ((copyKey a source b target replace).run e))
    rcases copyKey_cases a source b target replace e with
      ⟨err, hrun, -⟩ | hrun | ⟨d, v, d', -, -, hd', -, -, hrun⟩
    · exact hrun ▸ .refl e
    · exact hrun ▸ .refl e
    · rw [hrun]
      refine .of_set hd' rfl rfl fun ho => .of_get? ?_
      have htarget : target ≠ key := fun hk => hr (by rw [ho, hk])
      rw [get?_attach_of_ne htarget, Database.get?_deleteKey_of_ne htarget.symm]
  | flush other =>
    change Leaves db key field e
      (stateOf ((checkDatabase other >>= fun _ => change other Database.clear).run e))
    rw [EStateM.run_bind, run_checkDatabase]
    cases hd : e.databases[other]? with
    | none => exact .refl e
    | some d => exact .of_set hd rfl (modify_of_getElem? hd _) fun ho => absurd ho hr
  | flushAll => cases hr
  | swap a b =>
    change Leaves db key field e (stateOf ((swap a b).run e))
    rw [run_swap]
    cases ha : e.databases[a]? with
    | none => exact .refl e
    | some first =>
      cases hb : e.databases[b]? with
      | none => exact .refl e
      | some second =>
        refine .of_database rfl ?_ fun {d} hd => ⟨d, ?_, .refl d⟩
        · exact (List.length_set ..).trans (List.length_set ..)
        · exact ((List.getElem?_set_ne hr.2).trans (List.getElem?_set_ne hr.1)).trans hd
  | load other dump =>
    change Leaves db key field e (stateOf ((load other dump).run e))
    rw [run_load]
    cases hd : e.databases[other]? with
    | none => exact .refl e
    | some d =>
      dsimp only
      cases hc : Container.ofDump dump with
      | error fault => exact .refl e
      | ok c =>
        have hfiled : Leaves db key field e (stateOf ((do
            discard (deleteKey other c.key)
            change other (·.attach c.key (.container c)) : EngineM Unit).run e)) :=
          .replace (hr c hc) fun _ => get?_attach_of_ne
        rw [run_replace, hd] at hfiled
        exact hfiled

/-- A request about other fields and keys leaves a field alone, unless it is the clock that takes the
field to its expiry or back. -/
theorem leaves_after {l : Layout} (h : ∀ d ∈ e.databases, d.Anchored l) {r : Request α}
    (hr : r.IsElsewhere db key field)
    (hkeeps : ∀ old, e.record? db key field = some old →
      old.isExpired (e.after r).now = old.isExpired e.now) :
    Leaves db key field e (e.after r) := by
  have ht : ∀ d ∈ e.databases, d.keys.Tidy := fun d hd => (h d hd).tidy
  cases r with
  | setClock now =>
    refine ⟨?_, Iff.rfl⟩
    change (e.record? db key field).filter (fun r => !r.isExpired now) = _
    rw [live?]
    cases hold : e.record? db key field with
    | none => rfl
    | some old =>
      have hsame : old.isExpired now = old.isExpired e.now := hkeeps old hold
      rw [Option.filter_some, Option.filter_some, hsame]
  | setRole role => exact ⟨rfl, Iff.rfl⟩
  | write other w =>
    rw [after_eq]
    refine .ofExcept_bind fun hv => .onDatabase ht fun ho w ht => ?_
    exact leaves_write (e.scope other) hv (hr ho) ht
  | delete other d =>
    rw [after_eq]
    refine .ofExcept_bind fun hv => .onDatabase ht fun ho w ht => ?_
    exact leaves_delete (e.scope other) hv (hr ho) ht
  | read other r =>
    rw [after_eq]
    change Leaves db key field e (stateOf ((onDatabase other fun s => r.action s).run e))
    exact .onDatabase ht fun _ w ht => leaves_read (e.scope other) r ht
  | apply other c =>
    rw [after_eq]
    change Leaves db key field e (stateOf ((onDatabase other fun _ => Scope.apply c).run e))
    exact .onDatabase ht fun ho w ht => leaves_apply ht (hr ho)
  | query other q =>
    have hrun : (Request.query other q).perform.run e =
      (MonadExcept.ofExcept (e.answer other q) : EngineM α).run e := rfl
    rw [after_eq, hrun]
    cases e.answer other q <;> exact .refl e
  | key k =>
    rw [after_eq]
    exact leaves_key ht hr
  | expire other budget =>
    cases hd : e.databases[other]? with
    | none =>
      have hrun : (Request.expire other budget).perform.run e = .error (.invalidDatabase other) e := by
        rw [Request.perform, activeExpire, run_onDatabase, hd]
      rw [after_of_run hrun]
      exact .refl e
    | some d =>
      obtain ⟨n, e', evs, hrun, haccounts, hevs, -⟩ := accounts_activeExpire h hd budget
      rw [after_of_run (r := .expire other budget) hrun]
      refine .of_accounts (t := .active) haccounts fun ev hm => ?_
      obtain ⟨reclaim, hreclaim, rfl⟩ := List.mem_map.mp hm
      exact hevs reclaim hreclaim
  | tick elapsed =>
    obtain ⟨n, e', evs, hrun, haccounts, hevs⟩ := accounts_tick elapsed h
    rw [after_of_run (r := .tick elapsed) hrun]
    exact .of_accounts haccounts hevs
  | notice n =>
    by_cases hn : n.db < e.databases.length
    · refine .of_map_keys ?_ (map_keys_after_notice ht hn)
      rw [after_notice hn]
      split
      · rfl
      · rw [relocate_eq_set]
        rfl
    · have hrun : (Request.notice n).perform.run e = .error (.invalidDatabase n.db) e := by
        rw [Request.perform, run_receive, List.getElem?_eq_none (Nat.not_lt.mp hn)]
      rw [after_of_run hrun]
      exact .refl e

end Engine

end ExpiringHash
