import ExpiringHash.Proofs.Database.Traces
import ExpiringHash.Proofs.Effect.Related

/-!
# Steps of an engine

A request about fields, a request to delete expired fields and a tick of the active cycle work on
one database after the other, and on each they do nothing but apply commands and count expired
fields. What else they change leaves the databases and the outbox as they are.
-/
namespace ExpiringHash

open Relation

variable {p : Bytes → Prop} {e e' : Engine} {α : Type}

namespace Engine

/-- The keys of all databases are tidy and all names are in `p`. -/
def Sound (p : Bytes → Prop) (e : Engine) : Prop :=
  ∀ d ∈ e.databases, d.keys.Tidy ∧ d.keys.Named p

/-- One step of an engine. -/
inductive Step (p : Bytes → Prop) (e : Engine) : Engine → Prop
  | work {db : Nat} {d : Database} {w : Work} (hd : e.databases[db]? = some d)
      (hs : Work.Steps p { database := d } w) : Step p e (e.absorb db w)
  | idle {e' : Engine} (hd : e'.databases = e.databases) (ho : e'.outbox = e.outbox)
      (hc : e'.config = e.config) : Step p e e'

/-- An action that does nothing leaves the engine as it is. -/
theorem absorb_self {db : Nat} {d : Database} (hd : e.databases[db]? = some d) :
    e.absorb db { database := d } = e := by
  obtain ⟨hlt, rfl⟩ := List.getElem?_eq_some_iff.mp hd
  simp [absorb, setDatabase]

theorem getElem?_absorb_self {db : Nat} {d : Database} (hd : e.databases[db]? = some d) (w : Work) :
    (e.absorb db w).databases[db]? = some w.database :=
  List.getElem?_set_self (List.getElem?_eq_some_iff.mp hd).1

theorem getElem?_absorb_of_ne {db other : Nat} (h : other ≠ db) (w : Work) :
    (e.absorb db w).databases[other]? = e.databases[other]? :=
  List.getElem?_set_ne fun he => h he.symm

theorem mem_absorb {db : Nat} {w : Work} {d : Database} (h : d ∈ (e.absorb db w).databases) :
    d ∈ e.databases ∨ d = w.database := by
  rw [absorb, setDatabase] at h
  exact List.mem_or_eq_of_mem_set h

theorem Step.sound (hs : Step p e e') (h : e.Sound p) : e'.Sound p := by
  cases hs with
  | @work db d w hd hs =>
    intro d' hm
    rcases mem_absorb hm with hm | rfl
    · exact h d' hm
    · obtain ⟨ht, hn⟩ := h d (List.mem_of_getElem? hd)
      have hw := Work.Steps.sound hs ⟨ht, hn⟩
      exact ⟨hw.tidy, hw.named⟩
  | idle hd =>
    rw [Sound, hd]
    exact h

/-- From tidy keys, all that has been done are steps. -/
def Traces (p : Bytes → Prop) (e e' : Engine) : Prop :=
  e.Sound p → ReflTransGen (Step p) e e'

theorem sound_of_steps (hs : ReflTransGen (Step p) e e') (h : e.Sound p) : e'.Sound p := by
  induction hs with
  | refl => exact h
  | tail _ hstep ih => exact hstep.sound ih

instance : IsPreorder Engine (Traces p) where
  refl _ _ := .refl
  trans _ _ _ h h' he := (h he).trans (h' (sound_of_steps (h he) he))

theorem run_onDatabase (db : Nat) (action : Scope → DatabaseM α) (e : Engine) :
    (onDatabase db action).run e = match e.databases[db]? with
      | none => .error (.invalidDatabase db) e
      | some d => match (action (e.scope db)).run { database := d } with
        | .ok a w => .ok a (e.absorb db w)
        | .error err w => .error err (e.absorb db w) := by
  change onDatabase db action e = _
  rw [onDatabase, database]
  cases e.databases[db]? <;> rfl

/-- What an action on a database answers, and where it leads. -/
theorem run_onDatabase_of_run {action : Scope → DatabaseM α} {d : Database} {w' : Work}
    (answer : Except HashError α) (hd : e.databases[db]? = some d)
    (h : (action (e.scope db)).run { database := d } = outcomeIn w' answer) :
    (onDatabase db action).run e = outcomeIn (e.absorb db w') answer := by
  rw [run_onDatabase, hd]
  dsimp only
  rw [h]
  cases answer <;> rfl

/-- An action that leaves its database as it is leaves the engine as it is. -/
theorem run_onDatabase_of_still {action : Scope → DatabaseM α} {d : Database}
    (answer : Except HashError α) (hd : e.databases[db]? = some d)
    (h : (action (e.scope db)).run { database := d } = outcomeIn { database := d } answer) :
    (onDatabase db action).run e = outcomeIn e answer := by
  rw [run_onDatabase_of_run answer hd h, absorb_self hd]

/-- An action leads where it leads its database. -/
theorem stateOf_onDatabase {action : Scope → DatabaseM α} {db : Nat} {d : Database}
    (hd : e.databases[db]? = some d) :
    stateOf ((onDatabase db action).run e) =
      e.absorb db (stateOf ((action (e.scope db)).run { database := d })) := by
  rw [run_onDatabase, hd]
  dsimp only
  cases (action (e.scope db)).run { database := d } <;> rfl

theorem ok_of_onDatabase {action : Scope → DatabaseM α} {a : α}
    (h : (onDatabase db action).run e = .ok a f) :
    ∃ d w', e.databases[db]? = some d ∧ (action (e.scope db)).run { database := d } = .ok a w' ∧
      f = e.absorb db w' := by
  rw [run_onDatabase] at h
  cases hd : e.databases[db]? with
  | none =>
    rw [hd] at h
    cases h
  | some d =>
    rw [hd] at h
    dsimp only at h
    cases hrun : (action (e.scope db)).run { database := d } with
    | error err w' =>
      rw [hrun] at h
      cases h
    | ok b w' =>
      rw [hrun] at h
      cases h
      exact ⟨d, w', rfl, hrun, rfl⟩

/-- What actions on databases match in, engines that take in their works match in. -/
theorem matches_onDatabase {β : Type} {R : Engine → Engine → Prop} {Q : Work → Work → Prop}
    {S : α → β → Prop} {db : Nat} {action : Scope → DatabaseM α} {action' : Scope → DatabaseM β}
    {d d' : Database} (hd : e.databases[db]? = some d) (hd' : e'.databases[db]? = some d')
    (h : Matches Q S ((action (e.scope db)).run { database := d })
      ((action' (e'.scope db)).run { database := d' }))
    (habsorb : ∀ w w', Q w w' → R (e.absorb db w) (e'.absorb db w')) :
    Matches R S ((onDatabase db action).run e) ((onDatabase db action').run e') := by
  rw [run_onDatabase, run_onDatabase, hd, hd']
  dsimp only
  revert h
  generalize (action (e.scope db)).run { database := d } = r
  generalize (action' (e'.scope db)).run { database := d' } = r'
  intro h
  cases h with
  | ok ha hw => exact .ok ha (habsorb _ _ hw)
  | error err hw => exact .error err (habsorb _ _ hw)

theorem traces_onDatabase (db : Nat) {action : Scope → DatabaseM α}
    (h : ∀ s, Leads (Work.Traces p) (action s)) : Leads (Traces p) (onDatabase db action) := by
  intro e he
  cases hd : e.databases[db]? with
  | none =>
    rw [run_onDatabase, hd]
    exact .refl
  | some d =>
    obtain ⟨ht, hn⟩ := he d (List.mem_of_getElem? hd)
    rw [stateOf_onDatabase hd]
    exact .single (.work hd (h (e.scope db) { database := d } ⟨ht, hn⟩))

theorem traces_activeExpire (db budget : Nat) : Leads (Traces p) (activeExpire db budget) := by
  refine traces_onDatabase db fun s => ?_
  split
  · exact Work.traces_drain s budget
  · exact Leads.pure _

theorem traces_visit (visits : Nat) : Leads (Traces p) (visit visits) := by
  induction visits with
  | zero => exact Leads.pure _
  | succ visits ih =>
    intro e
    have hrest : Leads (Traces p) (do
        let deleted ← if (e.databases[(e.cycle.next e.databases.length).1]?).all fun d =>
            d.keys.isEmpty then pure 0
          else activeExpire (e.cycle.next e.databases.length).1 e.config.activeBudget
        return deleted + (← visit visits)) := by
      have hnext (deleted : Nat) : Leads (Traces p) (do return deleted + (← visit visits)) :=
        Leads.bind ih fun _ => Leads.pure _
      dsimp only
      split
      · exact Leads.bind (Leads.pure _) hnext
      · exact Leads.bind (traces_activeExpire _ _) hnext
    have hidle : Traces p e { e with cycle := (e.cycle.next e.databases.length).2 } :=
      fun _ => .single (.idle rfl rfl rfl)
    exact trans_of (Traces p) hidle (hrest { e with cycle := (e.cycle.next e.databases.length).2 })

theorem traces_tick (elapsed : UInt64) : Leads (Traces p) (tick elapsed) := by
  intro e
  change Traces p e (stateOf (tick elapsed e))
  unfold tick
  split
  · exact refl_of (Traces p) e
  · have hstart : Traces p e { e with cycle := e.cycle.start } := fun _ => .single (.idle rfl rfl rfl)
    have hvisit := traces_visit (p := p) (min e.config.activeDatabases e.databases.length)
      { e with cycle := e.cycle.start }
    dsimp only
    have hfinish (f : Engine) (elapsed : Option UInt64) :
        Traces p f { f with cycle := f.cycle.finish elapsed } :=
      fun _ => .single (.idle rfl rfl rfl)
    have hall := trans_of (Traces p) hstart hvisit
    split <;> next hr =>
      rw [hr] at hall
      exact trans_of (Traces p) hall (hfinish _ _)

end Engine

namespace Request

/-- A request that deals with the fields of databases rather than with whole keys. -/
def IsLocal : Request α → Prop
  | .key _ => False
  | .notice _ => False
  | _ => True

/-- The names and values that a request gives a database to keep. -/
def texts : Request α → List Bytes
  | .write _ w => w.texts
  | .delete _ d => d.texts
  | .apply _ c => c.texts
  | _ => []

end Request

namespace Engine

theorem after_eq (e : Engine) (r : Request α) : e.after r = stateOf (r.perform.run e) := by
  unfold after
  cases r.perform.run e <;> rfl

/-- A request about fields is traced by steps, whether it fails or not. -/
theorem traces_perform {r : Request α} (hn : HasNumerals p) (hl : r.IsLocal)
    (ht : ∀ a ∈ r.texts, p a) : Leads (Traces p) r.perform := by
  cases r with
  | write db w =>
    exact Leads.ofExcept_bind fun _ hv =>
      traces_onDatabase db fun s => Work.traces_write s hn ht hv
  | delete db d =>
    exact Leads.ofExcept_bind fun _ hv =>
      traces_onDatabase db fun s => Work.traces_delete s ht hv
  | read db r => exact traces_onDatabase db fun s => Work.traces_read s r
  | query db q => exact Leads.bind Leads.get fun _ => Leads.ofExcept _
  | expire db budget => exact traces_activeExpire db budget
  | tick elapsed => exact traces_tick elapsed
  | key k => cases hl
  | notice n => cases hl
  | apply db c => exact traces_onDatabase db fun _ => Work.traces_apply ht
  | setClock now => exact Leads.modifies fun _ _ => .single (.idle rfl rfl rfl)
  | setRole role => exact Leads.modifies fun _ _ => .single (.idle rfl rfl rfl)

end Engine

end ExpiringHash
