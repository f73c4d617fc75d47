import ExpiringHash.Proofs.Database.DrainOrder
import ExpiringHash.Proofs.Engine.Keys

/-!
# The two layouts are observed alike

Two engines that differ in the layout of their indexes alone answer every request alike, send the
same commands and come to the same keys, tallies and cycle. Only what the index itself holds tells
them apart, and how long the ticks of their cycles took.
-/
namespace ExpiringHash

open DatabaseM

/-- Cycles that differ in the times that their ticks took at most. -/
structure Cycle.Alike (c c' : Cycle) : Prop where
  cursor : c'.cursor = c.cursor
  state : c'.state = c.state
  armed : c'.armed = c.armed
  ticks : c'.stats.ticks = c.stats.ticks
  windowTicks : c'.windowTicks = c.windowTicks

namespace Cycle.Alike

variable {c c' : Cycle}

theorem start (h : c.Alike c') : c.start.Alike c'.start :=
  ⟨h.cursor, rfl, h.armed, h.ticks, h.windowTicks⟩

theorem finish_none (h : c.Alike c') : (c.finish none).Alike (c'.finish none) :=
  ⟨h.cursor, rfl, h.armed, h.ticks, h.windowTicks⟩

theorem finish (h : c.Alike c') (elapsed elapsed' : UInt64) :
    (c.finish (some elapsed)).Alike (c'.finish (some elapsed')) := by
  refine ⟨h.cursor, rfl, h.armed, ?_, ?_⟩
  · simp only [Cycle.finish, record, h.ticks]
  · simp only [Cycle.finish, record, h.windowTicks]

theorem next (h : c.Alike c') (n : Nat) :
    (c'.next n).1 = (c.next n).1 ∧ (c.next n).2.Alike (c'.next n).2 := by
  unfold Cycle.next
  rw [h.cursor]
  exact ⟨rfl, rfl, h.state, h.armed, h.ticks, h.windowTicks⟩

end Cycle.Alike

namespace Engine

/-- The keys of each database, and how many fields of it have expired. -/
def contents (e : Engine) : List (KeySpace × Tally) := e.databases.map fun d => (d.keys, d.tally)

/-- Engines that differ in their indexes and in the times that ticks took at most. -/
structure Twins (e f : Engine) : Prop where
  config : f.config = { e.config with layout := f.config.layout }
  now : f.now = e.now
  role : f.role = e.role
  contents : f.contents = e.contents
  cycle : e.cycle.Alike f.cycle
  pending : f.pending = e.pending
  outbox : f.outbox = e.outbox

/-- Databases with the same keys and the same tally. -/
def SameContents (d d' : Database) : Prop := (d'.keys, d'.tally) = (d.keys, d.tally)

theorem SameContents.keys {d d' : Database} (h : SameContents d d') : d'.keys = d.keys :=
  congrArg Prod.fst h

theorem SameContents.tally {d d' : Database} (h : SameContents d d') : d'.tally = d.tally :=
  congrArg Prod.snd h

namespace Twins

variable {e f : Engine} {db : Nat}

theorem length_databases (h : Twins e f) : f.databases.length = e.databases.length := by
  have hc := congrArg List.length h.contents
  simpa [Engine.contents] using hc

theorem getElem?_databases (h : Twins e f) (db : Nat) :
    (e.databases[db]? = none ∧ f.databases[db]? = none) ∨
      ∃ d d', e.databases[db]? = some d ∧ f.databases[db]? = some d' ∧ SameContents d d' := by
  have hc := congrArg (·[db]?) h.contents
  simp only [Engine.contents, List.getElem?_map] at hc
  cases hd : e.databases[db]? with
  | none =>
    rw [hd] at hc
    exact .inl ⟨rfl, Option.map_eq_none_iff.mp hc⟩
  | some d =>
    rw [hd] at hc
    obtain ⟨d', hd', hs⟩ := Option.map_eq_some_iff.mp hc
    exact .inr ⟨d, d', rfl, hd', hs⟩

/-- Databases may be replaced by others with the same contents. -/
theorem set {d d' : Database} (h : Twins e f) (hd : SameContents d d') :
    Twins (e.setDatabase db d) (f.setDatabase db d') := by
  refine ⟨h.config, h.now, h.role, ?_, h.cycle, h.pending, h.outbox⟩
  have hc := h.contents
  unfold Engine.contents at hc
  unfold Engine.contents Engine.setDatabase
  rw [List.map_set, List.map_set, hc, hd]

theorem modify {g g' : Database → Database} (h : Twins e f) (db : Nat)
    (hg : ∀ d d', SameContents d d' → SameContents (g d) (g' d')) :
    Twins { e with databases := e.databases.modify db g }
      { f with databases := f.databases.modify db g' } := by
  rcases h.getElem?_databases db with ⟨hd, hd'⟩ | ⟨d, d', hd, hd', hs⟩
  · rw [List.modify_eq_self (by simpa using hd), List.modify_eq_self (by simpa using hd')]
    exact h
  · rw [modify_of_getElem? hd, modify_of_getElem? hd']
    exact h.set (hg d d' hs)

theorem scope_eq (h : Twins e f) (db : Nat) : f.scope db = e.scope db := by
  unfold scope
  rw [h.now, h.role, h.config]

theorem database (h : Twins e f) (db : Nat) :
    Related Twins SameContents (MonadExcept.ofExcept (e.database db) : EngineM Database)
      (MonadExcept.ofExcept (f.database db)) := by
  unfold Engine.database
  rcases h.getElem?_databases db with ⟨hd, hd'⟩ | ⟨d, d', hd, hd', hs⟩
  · rw [hd, hd']
    exact Related.throw _
  · rw [hd, hd']
    exact Related.pure hs

theorem checkDatabase (db : Nat) : Related Twins (· = ·) (checkDatabase db) (Engine.checkDatabase db) :=
  Related.bind Related.get fun _ _ h => (h.database db).discard

theorem change (db : Nat) {g g' : Database → Database}
    (hg : ∀ d d', SameContents d d' → SameContents (g d) (g' d')) :
    Related Twins (· = ·) (change db g) (Engine.change db g') :=
  Related.modifies fun _ _ h => h.modify _ hg

/-- Requests about keys look at the keys alone, whatever they tell the indexes. -/
theorem deleteKey (db : Nat) (key : Bytes) :
    Related Twins (· = ·) (deleteKey db key) (Engine.deleteKey db key) := by
  refine Related.bind Related.get fun _ _ h => Related.bind (h.database db) fun d d' hs => ?_
  have hk := hs.keys
  have ht := hs.tally
  have hfound : (d'.deleteKey key).1 = (d.deleteKey key).1 := by
    unfold Database.deleteKey
    rw [hk]
    split <;> rfl
  have hdelete : SameContents (d.deleteKey key).2 (d'.deleteKey key).2 := by
    unfold SameContents
    rw [Database.keys_deleteKey, Database.keys_deleteKey, SameKeys.tally_deleteKey,
      SameKeys.tally_deleteKey, hk, ht]
  refine Related.bind_eq (Related.modifies fun _ _ h => h.set hdelete) fun _ => ?_
  exact Related.pure hfound.symm

theorem sameContents_attach {d d' : Database} (key : Bytes) (v : Value) (h : SameContents d d') :
    SameContents (d.attach key v) (d'.attach key v) := by
  unfold SameContents Database.attach
  rw [h.keys, h.tally]

theorem sameContents_keys {d d' : Database} (g : KeySpace → KeySpace) (h : SameContents d d') :
    SameContents { d with keys := g d.keys } { d' with keys := g d'.keys } := by
  unfold SameContents
  rw [h.keys, h.tally]

theorem relocate (h : Twins e f) (r : Relocation) : Twins (relocate r e) (Engine.relocate r f) := by
  unfold Engine.relocate
  rcases h.getElem?_databases r.toDb with ⟨hd, hd'⟩ | ⟨d, d', hd, hd', hs⟩
  · rw [hd, hd']
    exact h
  · rw [hd, hd', Option.bind_some, Option.bind_some, hs.keys]
    cases (d.keys.get? r.toKey).bind Value.container? with
    | none => exact h
    | some c =>
      refine (h.modify r.fromDb fun d d' hs => ?_).modify r.toDb fun d d' hs => ?_
      · exact hs
      · exact sameContents_keys (·.putContainer r.toKey _) hs

theorem receive (n : Notice) : Related Twins (· = ·) (receive n) (Engine.receive n) := by
  refine Related.bind_eq (checkDatabase n.db) fun _ => Related.modifies fun e f h => ?_
  dsimp only
  rw [h.pending]
  have hpending : Twins { e with pending := (n.receive e.pending).2 }
      { f with pending := (n.receive e.pending).2 } :=
    ⟨h.config, h.now, h.role, h.contents, h.cycle, rfl, h.outbox⟩
  cases (n.receive e.pending).1 with
  | none => exact hpending
  | some r => exact hpending.relocate r

theorem replace (db : Nat) (key : Bytes) (v : Value) :
    Related Twins (· = ·) (do discard (Engine.deleteKey db key); Engine.change db (·.attach key v))
      (do discard (Engine.deleteKey db key); Engine.change db (·.attach key v)) :=
  Related.bind_eq (deleteKey db key).discard fun _ =>
    change db fun _ _ => sameContents_attach key v

theorem flush (db : Nat) : Related Twins (· = ·) (flush db) (Engine.flush db) :=
  Related.bind_eq (checkDatabase db) fun _ => change db fun _ _ hs => congrArg (Prod.mk ∅) hs.tally

theorem flushAll : Related Twins (· = ·) flushAll Engine.flushAll := by
  refine Related.modifies fun e f h => ⟨h.config, h.now, h.role, ?_, h.cycle, h.pending, h.outbox⟩
  have hc := congrArg (List.map fun c => ((∅ : KeySpace), c.2)) h.contents
  unfold Engine.contents at hc ⊢
  rw [List.map_map, List.map_map] at hc ⊢
  exact hc

theorem swap (a b : Nat) : Related Twins (· = ·) (swap a b) (Engine.swap a b) :=
  Related.bind Related.get fun _ _ h => Related.bind (h.database a) fun _ _ hfirst =>
    Related.bind Related.get fun _ _ h' => Related.bind (h'.database b) fun _ _ hsecond =>
      Related.modifies fun _ _ h => (h.set hsecond).set hfirst

theorem load (db : Nat) (dump : Bytes) : Related Twins (· = ·) (load db dump) (Engine.load db dump) := by
  refine Related.bind_eq (checkDatabase db) fun _ => ?_
  cases Container.ofDump dump with
  | error fault => exact Related.throw _
  | ok c =>
    have hall := Related.bind_eq (replace db c.key (.container c)) fun _ =>
      Related.pure (R := Twins) (Eq.refl c.key)
    rw [bind_assoc] at hall
    exact hall

theorem copyKey (fromDb : Nat) (source : Bytes) (toDb : Nat) (target : Bytes) (replaces : Bool) :
    Related Twins (· = ·) (copyKey fromDb source toDb target replaces)
      (Engine.copyKey fromDb source toDb target replaces) := by
  refine Related.bind Related.get fun _ _ h => Related.bind (h.database fromDb) fun d d' hs => ?_
  refine Related.bind Related.get fun _ _ h => Related.bind (h.database toDb) fun t t' ht => ?_
  rw [hs.keys, ht.keys]
  dsimp only
  split
  · exact Related.throw _
  · split
    · exact Related.pure rfl
    · next v _ =>
      split
      · exact Related.pure rfl
      · have hall := Related.bind_eq (replace toDb target (v.relabel target)) fun _ =>
          Related.pure (R := Twins) (Eq.refl true)
        rw [bind_assoc] at hall
        exact hall

theorem renameKey (db : Nat) (source target : Bytes) :
    Related Twins (· = ·) (renameKey db source target) (Engine.renameKey db source target) := by
  have hrekey (v : Value) :
      Related Twins (· = ·)
        (do discard (Engine.deleteKey db target); Engine.change db (rekey source target v))
        (do discard (Engine.deleteKey db target); Engine.change db (rekey source target v)) :=
    Related.bind_eq (deleteKey db target).discard fun _ => change db fun _ _ hs =>
      sameContents_keys (fun keys => (keys.erase source).put target v) hs
  refine Related.bind Related.get fun _ _ h => Related.bind (h.database db) fun d d' hs => ?_
  rw [hs.keys]
  cases d.keys.get? source with
  | none => exact Related.throw _
  | some v =>
    dsimp only
    split
    · cases v with
      | foreign type payload => exact hrekey (.foreign type payload)
      | container c =>
        refine Related.bind_eq (receive (.renameFrom db source)) fun _ => ?_
        have hall := Related.bind_eq (hrekey (.container c)) fun _ => receive (.renameTo db target)
        rw [bind_assoc] at hall
        exact hall
    · exact Related.pure rfl

theorem moveKey (fromDb : Nat) (key : Bytes) (toDb : Nat) :
    Related Twins (· = ·) (moveKey fromDb key toDb) (Engine.moveKey fromDb key toDb) := by
  refine Related.bind Related.get fun _ _ h => Related.bind (h.database fromDb) fun d d' hs => ?_
  refine Related.bind Related.get fun _ _ h => Related.bind (h.database toDb) fun t t' ht => ?_
  rw [hs.keys, ht.keys]
  dsimp only
  split
  · exact Related.throw _
  · split
    · exact Related.pure rfl
    · next v _ =>
      split
      · exact Related.pure rfl
      · have hleave := change fromDb fun _ _ hs => sameContents_keys (·.erase key) hs
        have harrive := change toDb fun _ _ hs => sameContents_keys (·.put key v) hs
        cases v with
        | foreign type payload =>
          exact Related.bind_eq hleave fun _ => Related.bind_eq harrive fun _ => Related.pure rfl
        | container c =>
          exact Related.bind_eq (receive (.moveFrom fromDb key)) fun _ =>
            Related.bind_eq hleave fun _ => Related.bind_eq harrive fun _ =>
              Related.bind_eq (receive (.moveTo toDb key)) fun _ => Related.pure rfl

/-- Requests about keys are answered alike, whatever the indexes hold. -/
theorem key {α : Type} (k : KeyRequest α) : Related Twins (· = ·) k.perform k.perform := by
  cases k with
  | insertForeign db key type payload => exact replace db key (.foreign type payload)
  | delete db key => exact deleteKey db key
  | rename db source target => exact renameKey db source target
  | move fromDb key toDb => exact moveKey fromDb key toDb
  | copy fromDb source toDb target replaces => exact copyKey fromDb source toDb target replaces
  | flush db => exact flush db
  | flushAll => exact flushAll
  | swap a b => exact swap a b
  | load db dump => exact load db dump

end Twins

end Engine

end ExpiringHash
