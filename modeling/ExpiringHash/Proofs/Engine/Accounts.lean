import ExpiringHash.Proofs.Database.Endings
import ExpiringHash.Proofs.Engine.Anchored

/-!
# Accounts of an engine

What requests about fields and ticks of the active cycle do to an engine is accounted for by events of
its databases: each database comes to where its own events lead, and the commands that were sent are
those that tell of the events, in their order. Active expiry never fails, and all that it does is to
reclaim expired fields.
-/
namespace ExpiringHash

open DatabaseM

variable {s : Scope} {w w' : Work} {l : Layout}

/-- Expired fields are reclaimed in the order of the index, and nothing goes wrong. -/
theorem logs_drain (hp : s.isPrimary = true) (budget : Nat) (h : w.database.Anchored l) :
    ∃ n evs w', (s.drain budget).run w = .ok n w' ∧ w.Logs s.now evs w' ∧
      (∀ ev ∈ evs, ev.isReclaim .active = true) ∧ w'.database.Anchored l := by
  induction budget generalizing w with
  | zero => exact ⟨0, [], w, rfl, .nil _ w, nofun, h⟩
  | succ budget ih =>
    rw [LayoutTwins.run_drain]
    cases he : w.database.index.first? with
    | none => exact ⟨0, [], w, rfl, .nil _ w, nofun, h⟩
    | some e =>
      dsimp only
      split
      · exact ⟨0, [], w, rfl, .nil _ w, nofun, h⟩
      · next hdue =>
        obtain ⟨field, r, hfield, hr, hx, hpos⟩ := h.run_fieldOf he s
        have hexpired : r.isExpired s.now = true :=
          (r.isExpired_iff s.now).mpr (hx ▸ ⟨hpos, UInt64.not_lt.mp hdue⟩)
        obtain ⟨last, w₁, hrun, hlogs⟩ := logs_reclaim hp h.tidy hr hexpired .active
        have htraces := Work.traces_reclaim s e.key field .active w (.of_tidy h.tidy)
        rw [hrun] at htraces
        have h₁ : w₁.database.Anchored l := (Database.Anchored.lasting l).of_steps h htraces
        obtain ⟨n, evs, w₂, hrun', hlogs', hevs, hanchored⟩ := ih h₁
        refine ⟨n + 1, _, w₂, ?_, hlogs.append hlogs', List.forall_mem_cons.mpr ⟨rfl, hevs⟩, hanchored⟩
        rw [EStateM.run_bind, hfield]
        dsimp only
        rw [LayoutTwins.drainAt, EStateM.run_bind, hrun]
        dsimp only
        rw [EStateM.run_bind, hrun']
        rfl

namespace Engine

variable {e e' e'' : Engine} {db : Nat} {d : Database} {evs evs' : List (Nat × Event)}

/-- The events of one database. -/
def eventsOf (db : Nat) (evs : List (Nat × Event)) : List Event :=
  (evs.filter (·.1 = db)).map (·.2)

/-- The commands that tell of events, with the numbers of their databases. -/
def commandsOf (evs : List (Nat × Event)) : List (Nat × Command) :=
  evs.flatMap fun ev => ev.2.commands.map (ev.1, ·)

/-- Events of databases lead from one engine to another, all at one time. -/
structure Accounts (evs : List (Nat × Event)) (e e' : Engine) : Prop where
  config : e'.config = e.config
  now : e'.now = e.now
  role : e'.role = e.role
  course : ∀ {db : Nat} {d : Database}, e.databases[db]? = some d →
    ∃ d', e'.databases[db]? = some d' ∧ d.Course e.now (eventsOf db evs) d'
  length : e'.databases.length = e.databases.length
  sent : e'.sent = e.sent ++ commandsOf evs

theorem eventsOf_append (db : Nat) (evs evs' : List (Nat × Event)) :
    eventsOf db (evs ++ evs') = eventsOf db evs ++ eventsOf db evs' := by
  rw [eventsOf, List.filter_append, List.map_append]
  rfl

theorem eventsOf_self (db : Nat) (evs : List Event) : eventsOf db (evs.map (db, ·)) = evs := by
  simp [eventsOf, List.filter_map, Function.comp_def]

theorem eventsOf_of_ne {other : Nat} (h : other ≠ db) (evs : List Event) :
    eventsOf other (evs.map (db, ·)) = [] := by
  simp [eventsOf, List.filter_map, Function.comp_def, h.symm]

theorem commandsOf_append (evs evs' : List (Nat × Event)) :
    commandsOf (evs ++ evs') = commandsOf evs ++ commandsOf evs' :=
  List.flatMap_append

/-- The commands of events of one database. -/
theorem commandsOf_self (db : Nat) (evs : List Event) :
    commandsOf (evs.map (db, ·)) = (evs.flatMap Event.commands).map (db, ·) := by
  rw [commandsOf, List.flatMap_map, List.map_flatMap]

theorem mem_eventsOf {ev : Event} : ev ∈ eventsOf db evs ↔ (db, ev) ∈ evs := by
  simp [eventsOf]

namespace Accounts

theorem of_eq (hc : e'.config = e.config) (hn : e'.now = e.now) (hr : e'.role = e.role)
    (hd : e'.databases = e.databases) (ho : e'.outbox = e.outbox) : Accounts [] e e' where
  config := hc
  now := hn
  role := hr
  course {db d} h := ⟨d, hd ▸ h, .nil d⟩
  length := by rw [hd]
  sent := (congrArg List.reverse ho).trans (List.append_nil _).symm

theorem refl (e : Engine) : Accounts [] e e := of_eq rfl rfl rfl rfl rfl

theorem trans (h : Accounts evs e e') (h' : Accounts evs' e' e'') :
    Accounts (evs ++ evs') e e'' where
  config := h'.config.trans h.config
  now := h'.now.trans h.now
  role := h'.role.trans h.role
  course {db d} hd := by
    obtain ⟨d', hd', hcourse⟩ := h.course hd
    obtain ⟨d'', hd'', hcourse'⟩ := h'.course hd'
    rw [h.now] at hcourse'
    exact ⟨d'', hd'', eventsOf_append db evs evs' ▸ hcourse.append hcourse'⟩
  length := h'.length.trans h.length
  sent := by
    rw [h'.sent, h.sent, commandsOf_append, List.append_assoc]

theorem absorb {w : Work} {evs : List Event} (hd : e.databases[db]? = some d)
    (h : Work.Logs e.now { database := d } evs w) :
    Accounts (evs.map (db, ·)) e (e.absorb db w) where
  config := rfl
  now := rfl
  role := rfl
  course {other d'} hd' := by
    by_cases hne : other = db
    · subst hne
      obtain rfl := Option.some.inj (hd.symm.trans hd')
      rw [eventsOf_self]
      exact ⟨w.database, getElem?_absorb_self hd w, h.course⟩
    · rw [eventsOf_of_ne hne]
      exact ⟨d', (getElem?_absorb_of_ne hne w).trans hd', .nil d'⟩
  length := length_databases_absorb e db w
  sent := by
    rw [sent_absorb, h.emitted, List.append_nil, List.reverse_reverse, commandsOf_self]

end Accounts

/-- All databases are anchored after an action that leaves its own one so. -/
theorem anchored_absorb (h : ∀ d ∈ e.databases, d.Anchored l) (hw : w.database.Anchored l) :
    ∀ d ∈ (e.absorb db w).databases, d.Anchored l := by
  intro d hm
  rcases mem_absorb hm with hm | rfl
  · exact h d hm
  · exact hw

/-- Active expiry of a database does nothing but reclaim expired fields, and never fails. -/
theorem accounts_activeExpire (h : ∀ d ∈ e.databases, d.Anchored l)
    (hd : e.databases[db]? = some d) (budget : Nat) :
    ∃ n e', ∃ evs : List Event, (activeExpire db budget).run e = .ok n e' ∧
      Accounts (evs.map (db, ·)) e e' ∧
      (∀ ev ∈ evs, ev.isReclaim .active = true) ∧ ∀ d ∈ e'.databases, d.Anchored l := by
  have hanchored : Database.Anchored l (Work.mk d []).database := h d (List.mem_of_getElem? hd)
  rw [activeExpire, run_onDatabase, hd]
  dsimp only
  by_cases hp : (e.scope db).isPrimary = true
  · obtain ⟨n, evs, w, hrun, hlogs, hevs, hw⟩ := logs_drain hp budget hanchored
    rw [if_pos hp, hrun]
    exact ⟨n, _, evs, rfl, .absorb hd hlogs, hevs, anchored_absorb h hw⟩
  · rw [if_neg hp]
    exact ⟨0, _, [], rfl, .absorb hd (.nil e.now ⟨d, []⟩), nofun, anchored_absorb h hanchored⟩

theorem accounts_visit (visits : Nat) (h : ∀ d ∈ e.databases, d.Anchored l) :
    ∃ n e' evs, (visit visits).run e = .ok n e' ∧ Accounts evs e e' ∧
      ∀ ev ∈ evs, ev.2.isReclaim .active = true := by
  induction visits generalizing e with
  | zero => exact ⟨0, e, [], rfl, .refl e, nofun⟩
  | succ visits ih =>
    have hcycle : Accounts [] e { e with cycle := (e.cycle.next e.databases.length).2 } :=
      .of_eq rfl rfl rfl rfl rfl
    change ∃ n e' evs, EStateM.run (do
        let deleted ← if (e.databases[(e.cycle.next e.databases.length).1]?).all fun d =>
            d.keys.isEmpty then pure 0
          else activeExpire (e.cycle.next e.databases.length).1 e.config.activeBudget
        return deleted + (← visit visits))
      { e with cycle := (e.cycle.next e.databases.length).2 } = .ok n e' ∧ _
    split
    · obtain ⟨n, e', evs, hrun, haccounts, hevs⟩ :=
        ih (e := { e with cycle := (e.cycle.next e.databases.length).2 }) h
      refine ⟨0 + n, e', evs, ?_, hcycle.trans haccounts, hevs⟩
      rw [pure_bind, EStateM.run_bind, hrun]
      rfl
    · next hbusy =>
      cases hd : e.databases[(e.cycle.next e.databases.length).1]? with
      | none =>
        rw [hd] at hbusy
        exact absurd rfl hbusy
      | some d =>
        obtain ⟨n, e₁, evs, hrun, haccounts, hevs, h₁⟩ := accounts_activeExpire
          (e := { e with cycle := (e.cycle.next e.databases.length).2 }) h hd e.config.activeBudget
        obtain ⟨m, e₂, evs', hrun', haccounts', hevs'⟩ := ih h₁
        refine ⟨n + m, e₂, _, ?_, (hcycle.trans haccounts).trans haccounts', ?_⟩
        · rw [EStateM.run_bind, hrun]
          dsimp only
          rw [EStateM.run_bind, hrun']
          rfl
        · refine List.forall_mem_append.mpr ⟨fun ev hm => ?_, hevs'⟩
          obtain ⟨reclaim, hreclaim, rfl⟩ := List.mem_map.mp hm
          exact hevs reclaim hreclaim

/-- A tick of the active cycle does nothing but reclaim expired fields, and never fails. -/
theorem accounts_tick (elapsed : UInt64) (h : ∀ d ∈ e.databases, d.Anchored l) :
    ∃ n e' evs, (tick elapsed).run e = .ok n e' ∧ Accounts evs e e' ∧
      ∀ ev ∈ evs, ev.2.isReclaim .active = true := by
  change ∃ n e' evs, tick elapsed e = .ok n e' ∧ _
  unfold tick
  split
  · exact ⟨0, e, [], rfl, .refl e, nofun⟩
  · obtain ⟨n, e', evs, hrun, haccounts, hevs⟩ := accounts_visit
      (min e.config.activeDatabases e.databases.length) (e := { e with cycle := e.cycle.start }) h
    dsimp only
    rw [hrun]
    have hstart : Accounts [] e { e with cycle := e.cycle.start } := .of_eq rfl rfl rfl rfl rfl
    have hfinish : Accounts [] e' { e' with cycle := e'.cycle.finish (some elapsed) } :=
      .of_eq rfl rfl rfl rfl rfl
    refine ⟨n, _, evs, rfl, ?_, hevs⟩
    rw [← List.append_nil evs]
    exact (hstart.trans haccounts).trans hfinish

end Engine

end ExpiringHash
