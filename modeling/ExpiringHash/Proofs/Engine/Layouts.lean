import ExpiringHash.Proofs.Engine.Twins

/-!
# The layouts are equivalent

A coarse and a fine index are two ways to come to the same: two engines that start out empty, differ
in the layout alone and are asked the same answer alike, send the same commands in the same order
and keep the same records, step by step. Only questions about the index itself tell them apart.
-/
namespace ExpiringHash

open DatabaseM

variable {α : Type}

/-- The question is about what the index holds. -/
def Query.ShowsIndex : Query α → Prop
  | .index => True
  | .firstEntry => True
  | _ => False

def Request.ShowsIndex : Request α → Prop
  | .query _ q => q.ShowsIndex
  | _ => False

/-- The requests are the same, but for the time that a tick takes. -/
inductive Request.Alike : ∀ {α : Type}, Request α → Request α → Prop
  | refl {α : Type} (r : Request α) : Alike r r
  | tick (elapsed elapsed' : UInt64) : Alike (.tick elapsed) (.tick elapsed')

namespace Engine

/-- What two engines can come to by the same requests but stray second notices. -/
inductive RunTogether (e f : Engine) : Engine → Engine → Prop
  | refl : RunTogether e f e f
  | step {α : Type} {e' f' : Engine} (r r' : Request α) :
      RunTogether e f e' f' → ¬r.IsSecondNotice → r.Alike r' →
        RunTogether e f (e'.after r) (f'.after r')

/-- Twins whose indexes are in step, the one coarse and the other fine. -/
def Paired (e f : Engine) : Prop :=
  Twins e f ∧ (∀ d ∈ e.databases, d.InStep .coarse) ∧ ∀ d ∈ f.databases, d.InStep .fine

namespace Paired

variable {e f : Engine} {db : Nat}

theorem new (config : Config) (now : UInt64) :
    Paired (.new { config with layout := .coarse } now) (.new { config with layout := .fine } now) := by
  refine ⟨⟨rfl, rfl, rfl, ?_, ⟨rfl, rfl, rfl, rfl, rfl⟩, rfl, rfl⟩,
    forall_mem_new now (.new .coarse), forall_mem_new now (.new .fine)⟩
  simp only [contents, Engine.new, List.map_replicate]
  rfl

/-- What keeps twins and keeps either index in step keeps pairs. -/
theorem of_twins {S : α → α → Prop} {x y : EngineM α} (h : Related Twins S x y)
    (hx : Leads (Keeps (Database.InStep .coarse)) x) (hy : Leads (Keeps (Database.InStep .fine)) y) :
    Related Paired S x y :=
  h.and_leads (hx.mono fun _ _ hk he => (hk he).2.2) (hy.mono fun _ _ hk he => (hk he).2.2)

theorem absorb {w w' : Work} (h : Paired e f) (hw : LayoutTwins w w') :
    Paired (e.absorb db w) (f.absorb db w') := by
  obtain ⟨ht, hcoarse, hfine⟩ := h
  obtain ⟨hs, hw, hw'⟩ := hw
  have hset : Twins (e.setDatabase db w.database) (f.setDatabase db w'.database) :=
    ht.set (Prod.ext hs.keys hs.tally.symm)
  refine ⟨⟨hset.config, hset.now, hset.role, hset.contents, hset.cycle, hset.pending, ?_⟩,
    fun d hm => ?_, fun d hm => ?_⟩
  · simp only [Engine.absorb, hs.emitted, ht.outbox]
  · rcases mem_absorb hm with hm | rfl
    · exact hcoarse d hm
    · exact hw
  · rcases mem_absorb hm with hm | rfl
    · exact hfine d hm
    · exact hw'

theorem withCycle {c c' : Cycle} (h : Paired e f) (hc : c.Alike c') :
    Paired { e with cycle := c } { f with cycle := c' } :=
  ⟨⟨h.1.config, h.1.now, h.1.role, h.1.contents, hc, h.1.pending, h.1.outbox⟩, h.2⟩

theorem onDatabase (db : Nat) {action : Scope → DatabaseM α}
    (h : ∀ s, Related LayoutTwins (· = ·) (action s) (action s)) :
    Related Paired (· = ·) (onDatabase db action) (Engine.onDatabase db action) := by
  intro e f hp
  have ⟨ht, hcoarse, hfine⟩ := hp
  rcases ht.getElem?_databases db with ⟨hd, hd'⟩ | ⟨d, d', hd, hd', hs⟩
  · rw [run_onDatabase, run_onDatabase, hd, hd']
    exact .error _ hp
  · have hw : LayoutTwins { database := d } { database := d' } :=
      ⟨⟨hs.keys, hs.tally.symm, rfl⟩, hcoarse d (List.mem_of_getElem? hd),
        hfine d' (List.mem_of_getElem? hd')⟩
    have hm := h (e.scope db) _ _ hw
    exact matches_onDatabase hd hd' (ht.scope_eq db ▸ hm) fun _ _ => hp.absorb

theorem activeExpire (db budget : Nat) :
    Related Paired (· = ·) (activeExpire db budget) (Engine.activeExpire db budget) := by
  refine onDatabase db fun s => ?_
  split
  · exact LayoutTwins.drain s budget
  · exact Related.pure rfl

theorem visit (visits : Nat) : Related Paired (· = ·) (visit visits) (Engine.visit visits) := by
  induction visits with
  | zero => exact Related.pure rfl
  | succ visits ih =>
    refine Related.bind Related.get fun e f h => ?_
    have hnext := h.1.cycle.next e.databases.length
    rw [h.1.length_databases]
    generalize e.cycle.next e.databases.length = next at hnext ⊢
    generalize f.cycle.next e.databases.length = next' at hnext ⊢
    obtain ⟨db, c⟩ := next
    obtain ⟨db', c'⟩ := next'
    obtain ⟨rfl, hc⟩ := hnext
    refine Related.bind_eq (Related.set (h.withCycle hc)) fun _ => ?_
    have hbudget : f.config.activeBudget = e.config.activeBudget := by rw [h.1.config]
    have hidle : (f.databases[db']?).all (fun d => d.keys.isEmpty) =
        (e.databases[db']?).all fun d => d.keys.isEmpty := by
      rcases h.1.getElem?_databases db' with ⟨hd, hd'⟩ | ⟨d, d', hd, hd', hs⟩
      · rw [hd, hd']
      · rw [hd, hd', Option.all_some, Option.all_some, hs.keys]
    have hrest (deleted : Nat) :
        Related Paired (· = ·) (do return deleted + (← Engine.visit visits))
          (do return deleted + (← Engine.visit visits)) :=
      Related.bind_eq ih fun _ => Related.pure rfl
    rw [hidle, hbudget]
    dsimp only
    split
    · exact hrest 0
    · exact Related.bind_eq (activeExpire _ _) hrest

/-- Ticks do alike whatever time they take. -/
theorem tick (elapsed elapsed' : UInt64) :
    Related Paired (· = ·) (tick elapsed) (Engine.tick elapsed') := by
  intro e f h
  change Matches Paired (· = ·) (Engine.tick elapsed e) (Engine.tick elapsed' f)
  have hdatabases : f.config.activeDatabases = e.config.activeDatabases := by rw [h.1.config]
  unfold Engine.tick
  by_cases hr : e.role = .replica
  · rw [if_pos hr, if_pos (h.1.role.trans hr)]
    exact .ok rfl h
  · rw [if_neg hr, if_neg fun hr' => hr (h.1.role.symm.trans hr'), hdatabases,
      h.1.length_databases]
    have hm := visit (min e.config.activeDatabases e.databases.length) _ _
      (h.withCycle h.1.cycle.start)
    dsimp only
    revert hm
    generalize EStateM.run _ { e with cycle := e.cycle.start } = x
    generalize EStateM.run _ { f with cycle := f.cycle.start } = y
    intro hm
    cases hm with
    | ok ha hp => exact .ok ha (hp.withCycle (hp.1.cycle.finish _ _))
    | error err hp => exact .error err (hp.withCycle hp.1.cycle.finish_none)

/-- A question is answered alike unless it is about the index. -/
theorem query (db : Nat) (q : Query α) :
    Related Paired (fun a b => q.ShowsIndex ∨ a = b) (Request.query db q).perform
      (Request.query db q).perform := by
  refine Related.bind Related.get fun e f h => ?_
  have ⟨ht, hcoarse, hfine⟩ := h
  unfold answer database
  rcases ht.getElem?_databases db with ⟨hd, hd'⟩ | ⟨d, d', hd, hd', hs⟩
  · rw [hd, hd']
    exact Related.throw _
  · have hverify : d'.verify db = d.verify db := by
      rw [(hcoarse d (List.mem_of_getElem? hd)).verify_eq_ok db,
        (hfine d' (List.mem_of_getElem? hd')).verify_eq_ok db]
    rw [hd, hd']
    change Related Paired _ (MonadExcept.ofExcept (d.answer db e.now q))
      (MonadExcept.ofExcept (d'.answer db f.now q))
    by_cases hq : q.ShowsIndex
    · cases q <;> try cases hq
      · exact Related.pure (.inl trivial)
      · exact Related.pure (.inl trivial)
    · have ha : d'.answer db f.now q = d.answer db e.now q := by
        cases q <;> simp only [Database.answer, Database.ofContainer, hs.keys, hs.tally, ht.now,
          hverify]
        · exact absurd trivial hq
        · exact absurd trivial hq
      rw [ha]
      exact (Related.ofExcept _).imp fun _ _ => .inr

/-- Any two requests that are alike, stray second notices aside, are answered alike and keep
pairs. -/
theorem perform {r r' : Request α} (hn : ¬r.IsSecondNotice) (hr : r.Alike r') :
    Related Paired (fun a b => r.ShowsIndex ∨ a = b) r.perform r'.perform := by
  have hinstep (l : Layout) {r : Request α} (hn : ¬r.IsSecondNotice) :
      Leads (Keeps (Database.InStep l)) r.perform := keeps_perform (Database.InStep.lasting l) hn
  have htwins {r : Request α} (hn : ¬r.IsSecondNotice)
      (h : Related Twins (· = ·) r.perform r.perform) :
      Related Paired (fun a b => r.ShowsIndex ∨ a = b) r.perform r.perform :=
    (of_twins h (hinstep .coarse hn) (hinstep .fine hn)).imp fun _ _ => .inr
  cases hr with
  | tick elapsed elapsed' => exact (tick elapsed elapsed').imp fun _ _ => .inr
  | refl =>
    cases r with
    | write db w =>
      refine Related.imp (Related.ofExcept_bind fun _ hv => onDatabase db fun s => ?_)
        fun _ _ => .inr
      have hw := Work.traces_write (p := fun _ => True) s ⟨fun _ _ => trivial, fun _ => trivial⟩
        (fun _ _ => trivial) hv
      exact LayoutTwins.of_tidyTwins ((TidyTwins.congruent s).write hv) hw hw
    | delete db d =>
      refine Related.imp (Related.ofExcept_bind fun _ hv => onDatabase db fun s => ?_)
        fun _ _ => .inr
      have hd := Work.traces_delete (p := fun _ => True) s (fun _ _ => trivial) hv
      exact LayoutTwins.of_tidyTwins ((TidyTwins.congruent s).delete hv) hd hd
    | read db r =>
      refine (@onDatabase _ db (fun s => r.action s) fun s => ?_).imp fun _ _ => .inr
      have hr := Work.traces_read (p := fun _ => True) s r
      exact LayoutTwins.of_tidyTwins (TidyTwins.read s r) hr hr
    | query db q => exact query db q
    | expire db budget => exact (activeExpire db budget).imp fun _ _ => .inr
    | tick elapsed => exact (tick elapsed elapsed).imp fun _ _ => .inr
    | key k => exact htwins hn (Twins.key k)
    | notice n => exact htwins hn (Twins.receive n)
    | apply db c =>
      refine (@onDatabase _ db (fun _ => Scope.apply c) fun _ => ?_).imp fun _ _ => .inr
      have hc := Work.traces_apply (p := fun _ => True) (c := c) fun _ _ => trivial
      exact LayoutTwins.of_tidyTwins (TidyTwins.of_traces (SameKeys.apply_eq c) hc hc) hc hc
    | setClock now =>
      refine Related.imp (Related.modifies fun e f h => ?_) fun _ _ => .inr
      exact ⟨⟨h.1.config, rfl, h.1.role, h.1.contents, h.1.cycle, h.1.pending, h.1.outbox⟩, h.2⟩
    | setRole role =>
      refine Related.imp (Related.modifies fun e f h => ?_) fun _ _ => .inr
      exact ⟨⟨h.1.config, h.1.now, rfl, h.1.contents, h.1.cycle, h.1.pending, h.1.outbox⟩, h.2⟩

end Paired

/-- Engines of the two layouts that have run together are twins, and go on to answer alike any
request that does not ask about the index, with the same outcome. -/
theorem layouts_run_alike {config : Config} {now : UInt64} {e f : Engine}
    (h : RunTogether (.new { config with layout := .coarse } now)
      (.new { config with layout := .fine } now) e f) :
    Twins e f ∧ ∀ {α : Type} (r r' : Request α), ¬r.IsSecondNotice → r.Alike r' →
      Matches Twins (fun a b => r.ShowsIndex ∨ a = b) (r.perform.run e) (r'.perform.run f) := by
  have hp : Paired e f := by
    induction h with
    | refl => exact .new config now
    | step r r' _ hn hr ih =>
      rw [after_eq, after_eq]
      exact (Paired.perform hn hr _ _ ih).state
  refine ⟨hp.1, fun r r' hn hr => ?_⟩
  exact (Paired.perform hn hr e f hp).mono (fun _ _ h => h.1) fun _ _ ha => ha

/-- Of three fields that expire at one time the first two go, one from each of two containers. -/
theorem layouts_run_alike_tie :
    let written (layout : Layout) :=
      (((new { layout } 1000).after (.write 0 (.set [2] [11] [7] { ttl := .set (.after 5) }))).after
        (.write 0 (.set [2] [10] [8] { ttl := .set (.after 5) }))).after
        (.write 0 (.set [1] [12] [9] { ttl := .set (.moment 1005) }))
    let e := ((written .coarse).after (.setClock 1005)).after (.expire 0 2)
    let f := ((written .fine).after (.setClock 1005)).after (.expire 0 2)
    RunTogether (.new { layout := .coarse } 1000) (.new { layout := .fine } 1000) e f ∧
      e.sent.drop 3 = [(0, .delete [1] [12]), (0, .deleteKey [1]), (0, .delete [2] [10])] ∧
      f.sent = e.sent ∧ Matches Twins (fun a b => False ∨ a = b)
        ((Request.tick 3).perform.run e) ((Request.tick 8).perform.run f) := by
  intro written e f
  have h : RunTogether (.new { layout := .coarse } 1000) (.new { layout := .fine } 1000) e f :=
    .step _ _ (.step _ _ (.step _ _ (.step _ _ (.step _ _ .refl id (.refl _)) id (.refl _)) id
      (.refl _)) id (.refl _)) id (.refl _)
  have hall := @layouts_run_alike {} 1000 e f h
  refine ⟨h, by decide +kernel, ?_, hall.2 _ _ id (.tick 3 8)⟩
  exact congrArg List.reverse hall.1.outbox

end Engine

end ExpiringHash
