import ExpiringHash.Proofs.Database.Blindness
import ExpiringHash.Proofs.Engine.Steps
import Mathlib.Logic.Function.Basic

/-!
# Replaying commands

The commands that an engine sends say all that becomes of its keys. Applied in their order to the
keys it had before, and to the databases they were sent for, they lead to the keys it has after, in
an engine of any layout, in any role and at any time.
-/
namespace ExpiringHash

open Relation

variable {p : Bytes → Prop} {n db : Nat} {c : Command} {ks ks' : Nat → KeySpace}

/-- What applying a command makes of the keys of a database. -/
def Command.Takes (c : Command) (k k' : KeySpace) : Prop :=
  ∃ w w' : Work, w.database.keys = k ∧ (Scope.apply c).run w = .ok () w' ∧ w'.database.keys = k'

/-- A command makes the same of the same keys wherever it is applied. -/
theorem Command.Takes.run {k k' : KeySpace} (h : c.Takes k k') {w : Work}
    (hk : w.database.keys = k) :
    ∃ w', (Scope.apply c).run w = .ok () w' ∧ w'.database.keys = k' := by
  obtain ⟨v, v', hv, hrun, hv'⟩ := h
  have hsame : SameKeys (fun _ _ => True) (fun _ _ => True) v w := ⟨hk.trans hv.symm, trivial, trivial⟩
  have hm := SameKeys.apply c (fun _ _ _ => trivial) v w hsame
  rw [hrun] at hm
  cases hr : (Scope.apply c).run w with
  | error e w' =>
    rw [hr] at hm
    cases hm
  | ok u w' =>
    rw [hr] at hm
    cases hm with
    | ok _ hs => exact ⟨w', rfl, hs.keys.trans hv'⟩

/-- Commands for the first `n` databases lead from keys to others. -/
inductive Replays (n : Nat) :
    (Nat → KeySpace) → List (Nat × Command) → (Nat → KeySpace) → Prop
  | nil (ks : Nat → KeySpace) : Replays n ks [] ks
  | cons {ks ks' : Nat → KeySpace} {db : Nat} {c : Command} {k : KeySpace}
      {cs : List (Nat × Command)} (hdb : db < n) (hc : c.Takes (ks db) k)
      (hrest : Replays n (Function.update ks db k) cs ks') : Replays n ks ((db, c) :: cs) ks'

theorem Replays.append {ks'' : Nat → KeySpace} {cs ds : List (Nat × Command)}
    (h : Replays n ks cs ks') (h' : Replays n ks' ds ks'') : Replays n ks (cs ++ ds) ks'' := by
  induction h with
  | nil ks => exact h'
  | cons hdb hc _ ih => exact .cons hdb hc (ih h')

/-- What the steps of an action send leads to the keys that they lead to. -/
theorem Work.replays_of_steps {w w' : Work} (hs : Steps p w w') (h : w.Sound p) (hdb : db < n)
    (hk : ks db = w.database.keys) :
    ∃ cs : List Command, w'.emitted = cs.reverse ++ w.emitted ∧ (∀ c ∈ cs, c.Within p) ∧
      Replays n ks (cs.map (db, ·)) (Function.update ks db w'.database.keys) := by
  induction hs with
  | refl =>
    refine ⟨[], rfl, fun c hc => absurd hc List.not_mem_nil, ?_⟩
    rw [← hk, Function.update_eq_self]
    exact .nil ks
  | @tail w₁ w₂ hrest hstep ih =>
    obtain ⟨cs, hemitted, hwithin, hreplays⟩ := ih
    cases hstep with
    | count t => exact ⟨cs, hemitted, hwithin, hreplays⟩
    | apply c hc hrun =>
      have heffect := (Steps.sound hrest h).effect_of_run hc hrun
      refine ⟨cs ++ [c], ?_, ?_, ?_⟩
      · rw [heffect.emitted, hemitted, List.reverse_append]
        rfl
      · intro d hd
        rcases List.mem_append.mp hd with hd | hd
        · exact hwithin d hd
        · exact List.mem_singleton.mp hd ▸ hc
      · rw [List.map_append]
        refine hreplays.append (.cons hdb ⟨w₁, w₂, ?_, hrun, rfl⟩ ?_)
        · rw [Function.update_self]
        · rw [Function.update_idem]
          exact .nil _

namespace Engine

variable {e e' : Engine}

/-- The keys of a database, none where there is no such database. -/
def keysAt (e : Engine) (db : Nat) : KeySpace := ((e.databases[db]?).map (·.keys)).getD ∅

theorem keysAt_of_getElem? {d : Database} (h : e.databases[db]? = some d) : e.keysAt db = d.keys := by
  rw [keysAt, h]
  rfl

/-- Another database in the place of one has its own keys there. -/
theorem keysAt_set {d d' : Database} (hd : e.databases[db]? = some d)
    (h : e'.databases = e.databases.set db d') :
    e'.keysAt = Function.update e.keysAt db d'.keys := by
  have hlt : db < e.databases.length := (List.getElem?_eq_some_iff.mp hd).1
  funext other
  unfold keysAt
  rw [h]
  by_cases ho : other = db
  · subst ho
    rw [List.getElem?_set_self hlt, Function.update_self]
    rfl
  · rw [List.getElem?_set_ne (Ne.symm ho), Function.update_of_ne ho]

theorem keysAt_absorb {d : Database} (hd : e.databases[db]? = some d) (w : Work) :
    (e.absorb db w).keysAt = Function.update e.keysAt db w.database.keys :=
  keysAt_set hd rfl

/-- A request to apply a command does what applying it does to its database. -/
theorem run_perform_apply {c : Command} {d : Database} {w : Work} (hd : e.databases[db]? = some d)
    (hrun : (Scope.apply c).run { database := d } = .ok () w) :
    (Request.apply db c).perform.run e = .ok () (e.absorb db w) := by
  change (onDatabase db fun _ => Scope.apply c).run e = _
  rw [run_onDatabase, hd]
  dsimp only
  rw [hrun]

/-- What an engine sends leads to the keys that it comes to. -/
theorem replays_of_steps (hs : ReflTransGen (Step p) e e') (h : e.Sound p) :
    e'.databases.length = e.databases.length ∧ ∃ cs, e'.sent = e.sent ++ cs ∧
      (∀ x ∈ cs, x.1 < e.databases.length ∧ x.2.Within p) ∧
      Replays e.databases.length e.keysAt cs e'.keysAt := by
  induction hs with
  | refl =>
    exact ⟨rfl, [], (List.append_nil _).symm, fun x hx => absurd hx List.not_mem_nil, .nil _⟩
  | @tail f g hrest hstep ih =>
    obtain ⟨hlength, cs, hsent, hwithin, hreplays⟩ := ih
    cases hstep with
    | idle hd ho hc =>
      have hkeys : g.keysAt = f.keysAt := by
        funext db
        rw [keysAt, hd]
        rfl
      refine ⟨by rw [hd, hlength], cs, ?_, hwithin, hkeys ▸ hreplays⟩
      rw [Engine.sent, ho]
      exact hsent
    | @work db d w hd hw =>
      have hdb : db < e.databases.length := hlength ▸ (List.getElem?_eq_some_iff.mp hd).1
      obtain ⟨ht, hn⟩ := (sound_of_steps hrest h) d (List.mem_of_getElem? hd)
      obtain ⟨ds, hemitted, hds, hreplays'⟩ :=
        Work.replays_of_steps hw ⟨ht, hn⟩ hdb (keysAt_of_getElem? hd)
      have hreverse : w.emitted.reverse = ds := by
        rw [hemitted, List.append_nil, List.reverse_reverse]
      refine ⟨(length_databases_absorb f db w).trans hlength, cs ++ ds.map (db, ·), ?_, ?_, ?_⟩
      · rw [sent_absorb, hsent, hreverse, List.append_assoc]
      · intro x hx
        rcases List.mem_append.mp hx with hx | hx
        · exact hwithin x hx
        · obtain ⟨c, hc, rfl⟩ := List.mem_map.mp hx
          exact ⟨hdb, hds c hc⟩
      · rw [keysAt_absorb hd]
        exact hreplays.append hreplays'

end Engine

end ExpiringHash
