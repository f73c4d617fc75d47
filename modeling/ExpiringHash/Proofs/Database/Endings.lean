import ExpiringHash.Proofs.Database.Logs
import ExpiringHash.Proofs.Database.Refusals
import ExpiringHash.Proofs.Fields.Paging
import Mathlib.Algebra.GroupWithZero.Nat

/-!
# How actions end

A write, a delete or a read of fields ends in one of three ways. It succeeds, and what it has done is
a course of events about its key: expired fields reclaimed, and what is its own to do. It is refused
for what it met, and has done nothing but reclaim expired fields. Or its key holds a value of another
type, and it has done nothing at all.
-/
namespace ExpiringHash

open DatabaseM

/-- The key that a write is about. -/
def FieldWrite.key {α : Type} : FieldWrite α → Bytes
  | .set key .. | .setAll key _ | .setAllChecked key _ | .incrBy key .. | .incrByFloat key ..
  | .setVersion key .. | .setExpiry key .. | .persist key _ => key

/-- The key that a delete is about. -/
def FieldDelete.key {α : Type} : FieldDelete α → Bytes
  | .one key .. | .all key _ | .allChecked key _ => key

/-- The fields that a write is about. -/
def FieldWrite.fields {α : Type} : FieldWrite α → List Bytes
  | .setAll _ entries => entries.map (·.1)
  | .setAllChecked _ updates => updates.map (·.field)
  | .set _ field .. | .incrBy _ field .. | .incrByFloat _ field .. | .setVersion _ field _
  | .setExpiry _ field .. | .persist _ field => [field]

/-- The fields that a delete is about. -/
def FieldDelete.fields {α : Type} : FieldDelete α → List Bytes
  | .one _ field _ => [field]
  | .all _ fields => fields
  | .allChecked _ entries => entries.map (·.1)

/-- How many fields a delete reports as deleted. -/
def FieldDelete.count : ∀ {α : Type}, FieldDelete α → α → Nat
  | _, .one .., deleted => deleted.toNat
  | _, .all .., n => n
  | _, .allChecked .., n => n

/-- The key that a read is about. -/
def FieldRead.key {α : Type} : FieldRead α → Bytes
  | .get key _ | .getAll key _ | .version key _ | .exist key _ | .valueLength key _
  | .timeLeft key .. | .scan key .. => key

variable {α β : Type} {s : Scope} {w w' w'' : Work} {key field : Bytes} {fields : List Bytes}
  {now : UInt64} {may : Event → Bool} {n m count : Nat} {reported : α → Nat}

/-- Events of a key take place: expired fields are reclaimed, and what may happen besides, so many
deletions of live fields among it. -/
def Work.Did (now : UInt64) (key : Bytes) (may : Event → Bool) (n : Nat) (w w' : Work) : Prop :=
  ∃ evs, w.Logs now evs w' ∧ (∀ ev ∈ evs, ev.key = key ∧ (ev.isReclaim .passive || may ev) = true) ∧
    evs.countP (·.isDeletion) = n

namespace Work

theorem Swept.did (h : w.Swept now key w') (may : Event → Bool) : w.Did now key may 0 w' := by
  obtain ⟨evs, hlogs, hevs⟩ := h
  refine ⟨evs, hlogs, fun ev hm => ?_, List.countP_eq_zero.mpr fun ev hm hd => ?_⟩
  · obtain ⟨hkey, hreclaim⟩ := hevs ev hm
    exact ⟨hkey, by rw [hreclaim, Bool.true_or]⟩
  · have hreclaim := (hevs ev hm).2
    cases ev with
    | deleted => cases hreclaim
    | _ => cases hd

namespace Did

theorem refl (now : UInt64) (key : Bytes) (may : Event → Bool) (w : Work) :
    w.Did now key may 0 w :=
  ⟨[], .nil now w, nofun, rfl⟩

theorem trans (h : w.Did now key may n w') (h' : w'.Did now key may m w'') :
    w.Did now key may (n + m) w'' := by
  obtain ⟨evs, hlogs, hevs, hn⟩ := h
  obtain ⟨evs', hlogs', hevs', hm⟩ := h'
  refine ⟨evs ++ evs', hlogs.append hlogs', List.forall_mem_append.mpr ⟨hevs, hevs'⟩, ?_⟩
  rw [List.countP_append, hn, hm]

theorem single {ev : Event} (h : w.Logs now [ev] w') (hk : ev.key = key) (hmay : may ev = true) :
    w.Did now key may ev.isDeletion.toNat w' := by
  refine ⟨[ev], h, List.forall_mem_singleton.mpr ⟨hk, by rw [hmay, Bool.or_true]⟩, ?_⟩
  cases hd : ev.isDeletion <;> simp [hd]

theorem tidy (h : w.Did now key may n w') (ht : w.database.keys.Tidy) : w'.database.keys.Tidy := by
  obtain ⟨evs, hlogs, -⟩ := h
  exact hlogs.tidy ht

theorem opens (h : w.Did now key may n w') (ho : w.database.keys.Open key) :
    w'.database.keys.Open key := by
  obtain ⟨evs, hlogs, -⟩ := h
  exact (hlogs.open_iff key).mpr ho

/-- Where nothing else may happen, all that has happened is that expired fields were reclaimed. -/
theorem swept (h : w.Did now key (fun _ => false) n w') : w.Swept now key w' := by
  obtain ⟨evs, hlogs, hevs, -⟩ := h
  refine ⟨evs, hlogs, fun ev hm => ?_⟩
  obtain ⟨hkey, hreclaim⟩ := hevs ev hm
  exact ⟨hkey, by rwa [Bool.or_false] at hreclaim⟩

end Did

end Work

/-- From tidy keys, under a key that holds no value of another type, the action succeeds, and what it
has done are events of that key. -/
def Manages (now : UInt64) (key : Bytes) (may : Event → Bool) (reported : α → Nat)
    (x : DatabaseM α) : Prop :=
  ∀ w, w.database.keys.Tidy → w.database.keys.Open key →
    ∃ a w', x.run w = .ok a w' ∧ w.Did now key may (reported a) w'

namespace Manages

theorem pure {a : α} (h : reported a = 0) : Manages now key may reported (pure a) := by
  refine fun w _ _ => ⟨a, w, rfl, ?_⟩
  rw [h]
  exact .refl ..

theorem bind {x : DatabaseM α} {k : α → DatabaseM β} {reported : β → Nat}
    (hx : Manages now key may (fun _ => 0) x) (hk : ∀ a, Manages now key may reported (k a)) :
    Manages now key may reported (x >>= k) := by
  intro w ht ho
  obtain ⟨a, w₁, hrun, hdid⟩ := hx w ht ho
  obtain ⟨b, w₂, hrun', hdid'⟩ := hk a w₁ (hdid.tidy ht) (hdid.opens ho)
  refine ⟨b, w₂, ?_, Nat.zero_add (reported b) ▸ hdid.trans hdid'⟩
  rw [EStateM.run_bind, hrun]
  exact hrun'

theorem congr {x : DatabaseM α} {reported' : α → Nat} (h : Manages now key may reported x)
    (he : ∀ a, reported a = reported' a) : Manages now key may reported' x := by
  intro w ht ho
  obtain ⟨a, w', hrun, hdid⟩ := h w ht ho
  exact ⟨a, w', hrun, he a ▸ hdid⟩

theorem discard {x : DatabaseM α} (h : Manages now key may (fun _ => 0) x) :
    Manages now key may (fun _ => 0) (Functor.discard x) :=
  bind h fun _ => pure rfl

theorem forM {γ : Type} {l : List γ} {f : γ → DatabaseM PUnit}
    (h : ∀ c ∈ l, Manages now key may (fun _ => 0) (f c)) :
    Manages now key may (fun _ => 0) (l.forM f) := by
  induction l with
  | nil => exact pure rfl
  | cons c l ih =>
    exact bind (h c List.mem_cons_self) fun _ => ih fun c hm => h c (List.mem_cons_of_mem _ hm)

theorem mapM {γ : Type} {l : List γ} {f : γ → DatabaseM α}
    (h : ∀ c ∈ l, Manages now key may reported (f c)) :
    Manages now key may (fun as => (as.map reported).sum) (l.mapM f) := by
  induction l with
  | nil => exact pure rfl
  | cons c l ih =>
    intro w ht ho
    obtain ⟨a, w₁, hrun, hdid⟩ := h c List.mem_cons_self w ht ho
    obtain ⟨as, w₂, hrun', hdid'⟩ :=
      ih (fun c hm => h c (List.mem_cons_of_mem _ hm)) w₁ (hdid.tidy ht) (hdid.opens ho)
    refine ⟨a :: as, w₂, ?_, ?_⟩
    · rw [List.mapM_cons, EStateM.run_bind, hrun]
      dsimp only
      rw [EStateM.run_bind, hrun']
      rfl
    · dsimp only
      rw [List.map_cons, List.sum_cons]
      exact hdid.trans hdid'

theorem container? (now : UInt64) (key : Bytes) (may : Event → Bool) :
    Manages now key may (fun _ => 0) (DatabaseM.container? key) := by
  intro w ht ho
  cases ht.slot key with
  | foreign _ _ hs => exact absurd ho (KeySpace.not_open_of_foreign hs)
  | absent hs => exact ⟨none, w, run_container?_absent hs, .refl ..⟩
  | present f _ hs => exact ⟨some _, w, run_container?_present hs, .refl ..⟩

theorem checkType (now : UInt64) (key : Bytes) (may : Event → Bool) :
    Manages now key may (fun _ => 0) (DatabaseM.checkType key) :=
  (container? now key may).discard

theorem sweep (s : Scope) (key : Bytes) (may : Event → Bool) :
    Manages s.now key may (fun _ => 0) (s.sweep key) := by
  intro w ht ho
  obtain ⟨w', hrun, hswept⟩ := swept_sweep s ht ho
  exact ⟨(), w', hrun, hswept.did may⟩

theorem expireIfDue (s : Scope) (key field : Bytes) (may : Event → Bool) :
    Manages s.now key may (fun _ => 0) (s.expireIfDue key field) := by
  intro w ht ho
  obtain ⟨w', hrun, hswept, -⟩ := swept_expireIfDue s ht ho field
  exact ⟨_, w', hrun, hswept.did may⟩

theorem liveField (s : Scope) (key field : Bytes) (may : Event → Bool) :
    Manages s.now key may (fun _ => 0) (s.liveField key field) := by
  intro w ht ho
  obtain ⟨w', hrun, hswept⟩ := swept_liveField s ht ho field
  exact ⟨_, w', hrun, hswept.did may⟩

theorem prepare (s : Scope) (key field : Bytes) (may : Event → Bool) :
    Manages s.now key may (fun _ => 0) (s.prepare key field) :=
  bind (checkType s.now key may) fun _ => bind (sweep s key may) fun _ =>
    (expireIfDue s key field may).discard

end Manages

/-- How an action on a key ends: it has done what it may, so that a primary leaves no container
without fields; it was refused for what it met; or the key holds a value of another type. -/
inductive Ends (s : Scope) (key : Bytes) (may : Event → Bool) (reported : α → Nat) (w : Work) :
    EStateM.Result HashError Work α → Prop
  | ok {a : α} {w' : Work} {evs : List Event} (logs : w.Logs s.now evs w')
      (events : ∀ ev ∈ evs, ev.key = key ∧ (ev.isReclaim .passive || may ev) = true)
      (deletions : evs.countP (·.isDeletion) = reported a)
      (settled : s.isPrimary = true → evs ≠ [] → w'.database.keys.holdsEmpty key = false) :
      Ends s key may reported w (.ok a w')
  | refused {err : HashError} {w' : Work} (swept : w.Swept s.now key w')
      (h : err.isRefusal = true) : Ends s key may reported w (.error err w')
  | mistyped (h : ¬w.database.keys.Open key) : Ends s key may reported w (.error .typeMismatch w)

/-- Where no live field was deleted, no container is left without fields. -/
theorem Work.Logs.settled {evs : List Event} (h : w.Logs now evs w') (hk : ∀ ev ∈ evs, ev.key = key)
    (hd : evs.countP (·.isDeletion) = 0) (hne : evs ≠ []) :
    w'.database.keys.holdsEmpty key = false := by
  obtain ⟨ev, hm⟩ := List.exists_mem_of_ne_nil evs hne
  have hall := (h.course.settled fun ev hm => Bool.eq_false_iff.mpr (List.countP_eq_zero.mp hd ev hm)).2
  exact hk ev hm ▸ hall ev hm

namespace Ends

theorem of_did {a : α} (h : w.Did s.now key may 0 w') (ha : reported a = 0) :
    Ends s key may reported w (.ok a w') := by
  obtain ⟨evs, hlogs, hevs, hn⟩ := h
  exact .ok hlogs hevs (hn.trans ha.symm) fun _ => hlogs.settled (fun ev hm => (hevs ev hm).1) hn

theorem imp {may' : Event → Bool} {res : EStateM.Result HashError Work α}
    (h : Ends s key may reported w res) (himp : ∀ ev, may ev = true → may' ev = true) :
    Ends s key may' reported w res := by
  cases h with
  | ok hlogs hevs hn hs =>
    refine .ok hlogs (fun ev hm => ?_) hn hs
    obtain ⟨hkey, hmay⟩ := hevs ev hm
    rw [Bool.or_eq_true] at hmay ⊢
    exact ⟨hkey, hmay.imp_right (himp ev)⟩
  | refused hswept h => exact .refused hswept h
  | mistyped h => exact .mistyped h

/-- Reclaiming expired fields first makes no difference to how an action ends. -/
theorem after {res : EStateM.Result HashError Work α} (hswept : w.Swept s.now key w')
    (ho : w'.database.keys.Open key) (h : Ends s key may reported w' res) :
    Ends s key may reported w res := by
  cases h with
  | @ok a w'' evs' hlogs' hevs' hn' hs =>
    obtain ⟨evs, hlogs, hevs, hn⟩ := hswept.did may
    have hall := hlogs.append hlogs'
    have hevents := List.forall_mem_append.mpr ⟨hevs, hevs'⟩
    have hdeletions : (evs ++ evs').countP (·.isDeletion) = reported a := by
      rw [List.countP_append, hn, hn', Nat.zero_add]
    refine .ok hall hevents hdeletions fun hp hne => ?_
    by_cases he : evs' = []
    · have hzero : (evs ++ evs').countP (·.isDeletion) = 0 := by
        rw [he, List.append_nil]
        exact hn
      exact hall.settled (fun ev hm => (hevents ev hm).1) hzero hne
    · exact hs hp he
  | refused hswept' h => exact .refused (hswept.trans hswept') h
  | mistyped h => exact absurd ho h

/-- What follows and changes nothing may give another answer. -/
theorem bind {k : α → DatabaseM β} {x : DatabaseM α} {reported' : β → Nat}
    (h : Ends s key may reported w (x.run w))
    (hk : ∀ a w, ∃ b, (k a).run w = .ok b w ∧ reported' b = reported a) :
    Ends s key may reported' w ((x >>= k).run w) := by
  rw [EStateM.run_bind]
  revert h
  generalize x.run w = res
  intro h
  cases h with
  | @ok a w' _ hlogs hevs hn hs =>
    obtain ⟨b, hrun, hb⟩ := hk a w'
    dsimp only
    rw [hrun]
    exact .ok hlogs hevs (hn.trans hb.symm) hs
  | refused hswept h => exact .refused hswept h
  | mistyped h => exact .mistyped h

end Ends

/-- A value of another type is refused before anything is done. -/
def Mistypes (key : Bytes) (x : DatabaseM α) : Prop :=
  ∀ w, w.database.keys.Tidy → ¬w.database.keys.Open key → x.run w = .error .typeMismatch w

namespace Mistypes

theorem container? (key : Bytes) : Mistypes key (DatabaseM.container? key) := by
  intro w ht ho
  obtain ⟨type, payload, hs⟩ := Scope.foreign_of_not_open ht ho
  exact run_container?_foreign hs

theorem bind {x : DatabaseM α} (h : Mistypes key x) (k : α → DatabaseM β) :
    Mistypes key (x >>= k) := by
  intro w ht ho
  rw [EStateM.run_bind, h w ht ho]

theorem checkType (key : Bytes) : Mistypes key (DatabaseM.checkType key) :=
  (container? key).bind _

theorem expireIfDue (s : Scope) (key field : Bytes) : Mistypes key (s.expireIfDue key field) :=
  (container? key).bind _

theorem liveField (s : Scope) (key field : Bytes) : Mistypes key (s.liveField key field) :=
  (expireIfDue s key field).bind _

end Mistypes

/-- From tidy keys, under a key that holds no value of another type, the action ends as it may. -/
def Tries (s : Scope) (key : Bytes) (may : Event → Bool) (reported : α → Nat) (x : DatabaseM α) :
    Prop :=
  ∀ w, w.database.keys.Tidy → w.database.keys.Open key → Ends s key may reported w (x.run w)

/-- What always succeeds ends so. -/
theorem Manages.tries {x : DatabaseM α} (h : Manages s.now key may (fun _ => 0) x) :
    Tries s key may (fun _ => 0) x := by
  intro w ht ho
  obtain ⟨a, w', hrun, hdid⟩ := h w ht ho
  rw [hrun]
  exact .of_did hdid rfl

namespace Tries

theorem ends {x : DatabaseM α} (h : Tries s key may reported x) (hm : Mistypes key x)
    (ht : w.database.keys.Tidy) : Ends s key may reported w (x.run w) := by
  by_cases ho : w.database.keys.Open key
  · exact h w ht ho
  · rw [hm w ht ho]
    exact .mistyped ho

/-- What does nothing but reclaim expired fields may come first. -/
theorem after {x : DatabaseM α} {k : α → DatabaseM β} {reported : β → Nat}
    (hx : Tries s key (fun _ => false) (fun _ => 0) x)
    (hk : ∀ a, Tries s key may reported (k a)) : Tries s key may reported (x >>= k) := by
  intro w ht ho
  have h := hx w ht ho
  rw [EStateM.run_bind]
  revert h
  generalize x.run w = res
  intro h
  cases h with
  | @ok a w' evs hlogs hevs hn _ =>
    have hdid : w.Did s.now key (fun _ => false) 0 w' := ⟨evs, hlogs, hevs, hn⟩
    exact .after hdid.swept (hdid.opens ho) (hk a w' (hdid.tidy ht) (hdid.opens ho))
  | refused hswept h => exact .refused hswept h
  | mistyped h => exact absurd ho h

theorem forM {γ : Type} {l : List γ} {f : γ → DatabaseM PUnit}
    (h : ∀ c ∈ l, Tries s key (fun _ => false) (fun _ => 0) (f c)) :
    Tries s key (fun _ => false) (fun _ => 0) (l.forM f) := by
  induction l with
  | nil => exact Manages.tries (.pure rfl)
  | cons c l ih =>
    exact after (h c List.mem_cons_self) fun _ => ih fun c hm => h c (List.mem_cons_of_mem _ hm)

/-- What follows and changes nothing may give another answer. -/
theorem bind {x : DatabaseM α} {k : α → DatabaseM β} {reported' : β → Nat}
    (hx : Tries s key may reported x)
    (hk : ∀ a w, ∃ b, (k a).run w = .ok b w ∧ reported' b = reported a) :
    Tries s key may reported' (x >>= k) :=
  fun w ht ho => (hx w ht ho).bind hk

end Tries

section Decided

variable {x : Scope → DatabaseM α} {text : Bytes → Prop} {shown : α → β}
  {plan : Option Record → Except HashError (β × Option Command)}

/-- How many live fields the command that is decided on deletes. -/
def deletions (c : Option Command) : Nat := (c.any (·.isDelete)).toNat

/-- What is decided is an error and nothing else, or one event at most. -/
theorem Decides.did (h : Decides x key field s.now text shown plan)
    (hmay : ∀ {current b c}, plan current = .ok (b, some c) → may c.event = true)
    (ht : w.database.keys.Tidy) (ho : w.database.keys.Open key) :
    (∃ err, plan ((w.fieldsAt key).live? field s.now) = .error err ∧ (x s).run w = .error err w) ∨
      ∃ a c w', plan ((w.fieldsAt key).live? field s.now) = .ok (shown a, c) ∧
        (x s).run w = .ok a w' ∧ w.Did s.now key may (deletions c) w' := by
  have hrun := h.run s w rfl ht ho
  cases hp : plan ((w.fieldsAt key).live? field s.now) with
  | error err =>
    rw [hp] at hrun
    exact .inl ⟨err, rfl, hrun⟩
  | ok out =>
    obtain ⟨b, c⟩ := out
    rw [hp] at hrun
    refine .inr ?_
    cases c with
    | none =>
      obtain ⟨a, hx, rfl⟩ := hrun
      exact ⟨a, none, w, rfl, hx, .refl ..⟩
    | some c =>
      obtain ⟨a, w', hx, rfl, happly⟩ := hrun
      have hsuits := h.suits _ _ _ hp
      obtain ⟨w'', happly', hlogs⟩ := logs_apply ht ho hsuits
      cases happly.symm.trans happly'
      have hdid := Work.Did.single hlogs (c.key_event.trans hsuits.key_eq) (hmay hp)
      rw [c.isDeletion_event] at hdid
      exact ⟨a, some c, w', rfl, hx, hdid⟩

/-- What may happen in a write about fields: their records are stored. -/
def mayStore (fields : List Bytes) (ev : Event) : Bool := ev.isStore && ev.field?.any (· ∈ fields)

namespace Stores

variable (hplan : Stores plan)

include hplan

theorem mayStore_event (h : Decides x key field now text shown plan) (hf : field ∈ fields)
    {current : Option Record} {b : β} {c : Command} (hp : plan current = .ok (b, some c)) :
    mayStore fields c.event = true := by
  rw [mayStore, Command.isStore_event (hplan.keeps hp), c.field?_event,
    (h.suits _ _ _ hp).field?_eq, Option.any_some, decide_eq_true hf]
  rfl

theorem deletions_eq {current : Option Record} {b : β} {c : Option Command}
    (h : plan current = .ok (b, c)) : deletions c = 0 := by
  cases c with
  | none => rfl
  | some c => rw [deletions, Option.any_some, hplan.keeps h, Bool.toNat_false]

theorem tries (h : Decides x key field s.now text shown plan) (hf : field ∈ fields) :
    Tries s key (mayStore fields) (fun _ => 0) (x s) := by
  intro w ht ho
  rcases h.did (hplan.mayStore_event h hf) ht ho with
    ⟨err, hp, hrun⟩ | ⟨a, c, w', hp, hrun, hdid⟩
  · rw [hrun]
    exact .refused (.refl w) (hplan.error hp)
  · rw [hrun]
    exact .of_did (hplan.deletions_eq hp ▸ hdid) rfl

/-- What is never refused always succeeds. -/
theorem manages (h : Decides x key field s.now text shown plan) (hf : field ∈ fields)
    (hne : ∀ {current err}, plan current ≠ .error err) :
    Manages s.now key (mayStore fields) (fun _ => 0) (x s) := by
  intro w ht ho
  rcases h.did (hplan.mayStore_event h hf) ht ho with
    ⟨err, hp, -⟩ | ⟨a, c, w', hp, hrun, hdid⟩
  · exact absurd hp hne
  · exact ⟨a, w', hrun, hplan.deletions_eq hp ▸ hdid⟩

end Stores

end Decided

section Writes

theorem manages_store (s : Scope) (key value : Bytes) (ttl : TtlUpdate) (hf : field ∈ fields) :
    Manages s.now key (mayStore fields) (fun _ => 0) (s.store key field value { ttl }) :=
  (Scope.storePlan_stores rfl).manages (Scope.store_decides key field value { ttl } s.now) hf
    (Scope.storePlan_ne_error ttl)

theorem tries_checkVersion (s : Scope) (key : Bytes) (u : FieldUpdate) :
    Tries s key may (fun _ => 0) (s.checkVersion key u) := by
  refine .after (Manages.liveField s key u.field _).tries fun current w _ _ => ?_
  cases hc : (VersionPolicy.matching u.version).check (current.map (·.version)) with
  | ok => exact .of_did (.refl ..) rfl
  | error err =>
    obtain rfl := VersionPolicy.error_of_check hc
    exact .refused (.refl w) rfl

/-- A batch that checks versions is refused before it writes anything. -/
theorem tries_setFieldsChecked (s : Scope) (key : Bytes) (updates : List FieldUpdate) :
    Tries s key (mayStore (updates.map (·.field))) (fun _ => 0) (s.setFieldsChecked key updates) := by
  refine .after (Manages.checkType s.now key _).tries fun _ =>
    .after (Manages.sweep s key _).tries fun _ =>
      .after (.forM fun u _ => tries_checkVersion s key u) fun _ => Manages.tries (.forM fun u hu => ?_)
  exact (manages_store s key u.value _ (List.mem_map_of_mem hu)).discard

theorem manages_setFields (s : Scope) (key : Bytes) (entries : List (Bytes × Bytes)) :
    Manages s.now key (mayStore (entries.map (·.1))) (fun _ => 0) (s.setFields key entries) := by
  refine .bind (.checkType s.now key _) fun _ => .bind (.sweep s key _) fun _ => .forM fun e he =>
    .bind (.discard (.expireIfDue s key e.1 _)) fun _ => .discard ?_
  exact manages_store s key e.2 .keep (List.mem_map_of_mem he)

/-- A field that has expired counts as absent. -/
theorem tries_unlessDue {x : DatabaseM Bool} (hx : Tries s key may (fun _ => 0) x) :
    Tries s key may (fun _ => 0) (do if ← s.expireIfDue key field then return false else x) := by
  refine .after (Manages.expireIfDue s key field _).tries fun expired => ?_
  cases expired with
  | true => exact Manages.tries (.pure rfl)
  | false => exact hx

theorem tries_write (s : Scope) {wr : FieldWrite α} (hv : wr.validate = .ok ()) :
    Tries s wr.key (mayStore wr.fields) (fun _ => 0) (wr.action s) := by
  have hself (field : Bytes) : field ∈ [field] := List.mem_singleton_self field
  have hprepare (key field : Bytes) := (Manages.prepare s key field fun _ => false).tries
  cases wr with
  | set key field value rule =>
    have hm := VersionPolicy.isMalformed_of_validate hv
    have hstore := (Scope.storePlan_stores hm).tries
      (Scope.store_decides key field value rule s.now) (hself field)
    refine .after (hprepare key field) fun _ => hstore.bind fun a w => ?_
    cases a <;> exact ⟨_, rfl, rfl⟩
  | setAll key entries => exact (manages_setFields s key entries).tries
  | setAllChecked key updates => exact tries_setFieldsChecked s key updates
  | incrBy key field delta bounds version ttl =>
    obtain ⟨_, hm, hb⟩ := ok_of_bind hv
    have hadd := Scope.addInt_decides key field delta bounds version ttl s.now
    exact .after (hprepare key field) fun _ =>
      (Scope.addIntPlan_stores (VersionPolicy.isMalformed_of_validate hm) hb).tries hadd
        (hself field)
  | incrByFloat key field delta bounds version ttl =>
    obtain ⟨_, hm, hv⟩ := ok_of_bind hv
    obtain ⟨_, hb, -⟩ := ok_of_bind hv
    have hadd := Scope.addFloat_decides key field delta bounds version ttl s.now
    exact .after (hprepare key field) fun _ =>
      (Scope.addFloatPlan_stores (VersionPolicy.isMalformed_of_validate hm) hb).tries hadd
        (hself field)
  | setVersion key field version =>
    have hne : version ≠ 0 := by
      rintro rfl
      cases hv
    exact .after (Manages.checkType s.now key _).tries fun _ =>
      .after (Manages.sweep s key _).tries fun _ =>
        tries_unlessDue (Scope.amendVersionPlan_stores.tries
          (Scope.amendVersion_decides key field hne s.now) (hself field))
  | setExpiry key field time version =>
    have hm := VersionPolicy.isMalformed_of_validate hv
    exact tries_unlessDue ((Scope.amendExpiryPlan_stores hm).tries
      (Scope.amendExpiry_decides key field time hm s.now) (hself field))
  | persist key field =>
    exact tries_unlessDue (Scope.dropExpiryPlan_stores.tries
      (Scope.dropExpiry_decides key field s.now) (hself field))

theorem mistypes_write (s : Scope) (wr : FieldWrite α) : Mistypes wr.key (wr.action s) := by
  cases wr with
  | setExpiry key field => exact (Mistypes.expireIfDue s key field).bind _
  | persist key field => exact (Mistypes.expireIfDue s key field).bind _
  | set key field => exact ((Mistypes.checkType key).bind _).bind _
  | incrBy key field => exact ((Mistypes.checkType key).bind _).bind _
  | incrByFloat key field => exact ((Mistypes.checkType key).bind _).bind _
  | setAll key => exact (Mistypes.checkType key).bind _
  | setAllChecked key => exact (Mistypes.checkType key).bind _
  | setVersion key => exact (Mistypes.checkType key).bind _

/-- A write stores records of the fields that it is about and deletes no live one. -/
theorem ends_write_about (s : Scope) {wr : FieldWrite α} (hv : wr.validate = .ok ())
    (ht : w.database.keys.Tidy) :
    Ends s wr.key (mayStore wr.fields) (fun _ => 0) w ((wr.action s).run w) :=
  (tries_write s hv).ends (mistypes_write s wr) ht

/-- A write of fields stores records and deletes no live one. -/
theorem ends_write (s : Scope) {wr : FieldWrite α} (hv : wr.validate = .ok ())
    (ht : w.database.keys.Tidy) :
    Ends s wr.key Event.isStore (fun _ => 0) w ((wr.action s).run w) :=
  (ends_write_about s hv ht).imp fun _ h => (Bool.and_eq_true_iff.mp h).1

end Writes

section Reads

/-- A read finds no field or answers, and has done nothing but reclaim expired fields. -/
theorem tries_getField (s : Scope) (key field : Bytes) :
    Tries s key may (fun _ => 0) (s.getField key field) := by
  refine .after (Manages.liveField s key field _).tries fun current => ?_
  cases current with
  | none => exact fun w _ _ => .refused (.refl w) rfl
  | some r => exact Manages.tries (.pure rfl)

theorem manages_timeLeft (s : Scope) (key field : Bytes) (unit : TimeUnit) :
    Manages s.now key may (fun _ => 0) (s.timeLeft key field unit) := by
  refine .bind (.container? s.now key may) fun c => ?_
  cases c with
  | none => exact .pure rfl
  | some c =>
    refine .bind (.liveField s key field may) fun current => ?_
    cases current with
    | none => exact .pure rfl
    | some r =>
      dsimp only
      split <;> exact .pure rfl

/-- A page of a scan shows the fields found with their values, and the expired ones it met have been
reclaimed. -/
theorem run_scan (s : Scope) {f : Fields} (cursor : UInt64) (pattern : Option Glob)
    (hc : count < 2 ^ 60) (ht : w.database.keys.Tidy)
    (hs : w.database.keys.get? key = some (.container ⟨key, f⟩)) :
    ∃ w', (s.scan key cursor pattern count).run w =
        .ok ((f.page cursor count pattern s.now).cursor,
          (f.page cursor count pattern s.now).fields.filterMap fun field =>
            (f.get? field).map fun r => (field, r.value)) w' ∧ w.Swept s.now key w' := by
  have hf : f.Consistent := (ht key _ hs).2
  have hfields : w.fieldsAt key = f := KeySpace.fieldsAt_of_get? hs
  rw [Scope.scan, EStateM.run_bind, run_container?_present hs]
  dsimp only
  rw [run_ofExcept_bind, Fields.scan_of_room hc]
  dsimp only
  split
  · next hp =>
    obtain ⟨w', hrun, hswept⟩ := swept_reclaimAll hp ht
      (hf.nodup_found cursor count pattern (·.isExpired s.now)) fun field hm => by
        obtain ⟨-, ⟨r, hr, hx⟩, -⟩ := (hf.mem_found s.now).mp hm
        exact ⟨r, hfields ▸ hr, hx⟩
    refine ⟨w', ?_, hswept⟩
    rw [EStateM.run_bind, Fields.expired_page, hrun]
    rfl
  · exact ⟨w, rfl, .refl w⟩

/-- A scan of a container that asks for more room than there can be breaks off and has done nothing. -/
theorem run_scan_noRoom (s : Scope) {c : Container} (cursor : UInt64) (pattern : Option Glob)
    (hc : 2 ^ 60 ≤ count) (hs : w.database.keys.get? key = some (.container c)) :
    (s.scan key cursor pattern count).run w = .error .noRoom w := by
  rw [Scope.scan, EStateM.run_bind, run_container?_present hs]
  dsimp only
  rw [run_ofExcept_bind, Fields.scan_of_no_room hc]

/-- A scan of a key that holds no value of another type gives a page of its fields, or it breaks off for
want of room and has done nothing. -/
theorem scan_cases (s : Scope) (ht : w.database.keys.Tidy) (ho : w.database.keys.Open key)
    (cursor : UInt64) (pattern : Option Glob) (count : Nat) :
    (∃ next found w', (s.scan key cursor pattern count).run w = .ok (next, found) w' ∧
      w.Swept s.now key w' ∧ Fields.Page (w.fieldsAt key) s.now pattern cursor next found) ∨
    (2 ^ 60 ≤ count ∧ (s.scan key cursor pattern count).run w = .error .noRoom w) := by
  cases ht.slot key with
  | foreign _ _ hs => exact absurd ho (KeySpace.not_open_of_foreign hs)
  | absent hs =>
    refine .inl ⟨0, [], w, ?_, .refl w, ?_⟩
    · rw [Scope.scan, EStateM.run_bind, run_container?_absent hs]
      rfl
    · rw [Work.fieldsAt, KeySpace.fieldsAt_of_get?_none hs]
      exact .empty ..
  | present f hf hs =>
    rcases Nat.lt_or_ge count (2 ^ 60) with hc | hc
    · obtain ⟨w', hrun, hswept⟩ := run_scan s cursor pattern hc ht hs
      rw [Work.fieldsAt, KeySpace.fieldsAt_of_get? hs]
      exact .inl ⟨_, _, w', hrun, hswept, .of_page hf cursor count pattern s.now⟩
    · exact .inr ⟨hc, run_scan_noRoom s cursor pattern hc hs⟩

theorem tries_scan (s : Scope) (key : Bytes) (cursor : UInt64) (pattern : Option Glob) (count : Nat) :
    Tries s key may (fun _ => 0) (s.scan key cursor pattern count) := by
  intro w ht ho
  obtain ⟨next, found, w', hrun, hswept, -⟩ | ⟨-, hrun⟩ := scan_cases s ht ho cursor pattern count
  · rw [hrun]
    exact .of_did (hswept.did may) rfl
  · rw [hrun]
    exact .refused (.refl w) rfl

theorem tries_read (s : Scope) (r : FieldRead α) :
    Tries s r.key (fun _ => false) (fun _ => 0) (r.action s) := by
  cases r with
  | get key field => exact tries_getField s key field
  | version key field => exact (tries_getField s key field).bind fun _ _ => ⟨_, rfl, rfl⟩
  | getAll key fields =>
    have hone (field : Bytes) : Manages s.now key (fun _ => false) (fun _ => 0)
        (do return (← s.liveField key field).map Record.view) :=
      .bind (.liveField s key field _) fun _ => .pure rfl
    have h : Manages s.now key (fun _ => false) (fun _ => 0) (s.getFields key fields) := by
      refine .bind (.checkType s.now key _) fun _ => (Manages.mapM fun field _ => hone field).congr
        fun views => ?_
      simp [List.map_const']
    exact h.tries
  | exist key field =>
    exact Manages.tries (.bind (.liveField s key field _) fun _ => .pure rfl)
  | valueLength key field =>
    exact Manages.tries (.bind (.liveField s key field _) fun _ => .pure rfl)
  | timeLeft key field unit => exact (manages_timeLeft s key field unit).tries
  | scan key cursor pattern count => exact tries_scan s key cursor pattern count

theorem mistypes_read (s : Scope) (r : FieldRead α) : Mistypes r.key (r.action s) := by
  cases r with
  | get key field => exact (Mistypes.liveField s key field).bind _
  | version key field => exact ((Mistypes.liveField s key field).bind _).bind _
  | getAll key => exact (Mistypes.checkType key).bind _
  | exist key field => exact (Mistypes.liveField s key field).bind _
  | valueLength key field => exact (Mistypes.liveField s key field).bind _
  | timeLeft key => exact (Mistypes.container? key).bind _
  | scan key => exact (Mistypes.container? key).bind _

/-- A read of fields does nothing but reclaim expired ones. -/
theorem ends_read (s : Scope) (r : FieldRead α) (ht : w.database.keys.Tidy) :
    Ends s r.key (fun _ => false) (fun _ => 0) w ((r.action s).run w) :=
  (tries_read s r).ends (mistypes_read s r) ht

end Reads

section Deletes

/-- What may happen in a delete. -/
def mayDelete (ev : Event) : Bool := ev.isDeletion || ev.isDrop

/-- What may happen in a delete about fields. -/
def mayDeleteAmong (fields : List Bytes) (ev : Event) : Bool :=
  ev.isDeletion && ev.field?.any (· ∈ fields) || ev.isDrop

theorem mayDelete_of_among {ev : Event} (h : mayDeleteAmong fields ev = true) :
    mayDelete ev = true := by
  rw [mayDeleteAmong, Bool.or_eq_true] at h
  rw [mayDelete, Bool.or_eq_true]
  exact h.imp_left fun h => (Bool.and_eq_true_iff.mp h).1

/-- A delete of one field deletes it or not, or is refused for its version and has done nothing. -/
theorem did_deleteOne (s : Scope) {version : VersionPolicy} (hv : version.isMalformed = false)
    (hf : field ∈ fields) (ht : w.database.keys.Tidy) (ho : w.database.keys.Open key) :
    (∃ deleted w', (s.deleteOne key field version).run w = .ok deleted w' ∧
      w.Did s.now key (mayDeleteAmong fields) deleted.toNat w') ∨
    (s.deleteOne key field version).run w = .error .versionConflict w := by
  obtain ⟨w', hrun, hswept, hkept⟩ := swept_expireIfDue s ht ho field
  rw [Scope.deleteOne, EStateM.run_bind, hrun]
  cases hx : ((w.fieldsAt key).get? field).any (·.isExpired s.now) with
  | true => exact .inl ⟨false, w', rfl, hswept.did _⟩
  | false =>
    obtain rfl := hkept hx
    have hdecides := Scope.deleteLive_decides key field hv s.now
    have hmay {current b c} (hp : Scope.deleteLivePlan key field version current = .ok (b, some c)) :
        mayDeleteAmong fields c.event = true := by
      obtain ⟨found, -, hp⟩ := ok_of_map hp
      cases found <;> cases hp
      exact congrArg (fun b => true && b || false) (decide_eq_true hf)
    rcases hdecides.did hmay ht ho with ⟨err, hp, hrun⟩ | ⟨deleted, c, w'', hp, hrun, hdid⟩
    · rw [Scope.error_of_deleteLivePlan hv hp] at hrun
      exact .inr hrun
    · refine .inl ⟨deleted, w'', hrun, ?_⟩
      obtain ⟨found, -, hp⟩ := ok_of_map hp
      cases found <;> cases hp <;> exact hdid

/-- A delete in a batch whose version does not match is passed over. -/
theorem run_deleteIfMatching (s : Scope) (key field : Bytes) (version : VersionPolicy) (w : Work) :
    (s.deleteIfMatching key field version).run w =
      match (s.deleteOne key field version).run w with
      | .ok deleted w' => .ok deleted.toNat w'
      | .error err w' => if err = .versionConflict then .ok 0 w' else .error err w' := by
  have hbind : (s.deleteOne key field version >>= fun deleted => pure deleted.toNat) w =
      match (s.deleteOne key field version).run w with
        | .ok deleted w => .ok deleted.toNat w
        | .error err w => .error err w := by
    change (s.deleteOne key field version >>= _).run w = _
    rw [EStateM.run_bind]
    cases (s.deleteOne key field version).run w <;> rfl
  change EStateM.tryCatch (s.deleteOne key field version >>= fun deleted => pure deleted.toNat) _ w = _
  unfold EStateM.tryCatch
  rw [hbind]
  cases (s.deleteOne key field version).run w with
  | ok => rfl
  | error err w' =>
    dsimp only
    split <;> rfl

/-- So it succeeds in any case. -/
theorem manages_deleteIfMatching (s : Scope) {version : VersionPolicy}
    (hv : version.isMalformed = false) (key : Bytes) (hf : field ∈ fields) :
    Manages s.now key (mayDeleteAmong fields) id (s.deleteIfMatching key field version) := by
  intro w ht ho
  rw [run_deleteIfMatching]
  rcases did_deleteOne s hv hf ht ho with ⟨deleted, w', hrun, hdid⟩ | hrun
  · rw [hrun]
    exact ⟨deleted.toNat, w', rfl, hdid⟩
  · rw [hrun]
    exact ⟨0, w, rfl, .refl ..⟩

/-- A delete ends by dropping a container that is left without fields, if a primary does it. -/
theorem ends_dropEmpty {reported : β → Nat} {b : β} (h : w.Did s.now key (mayDeleteAmong fields) n w')
    (hb : reported b = n) (ht : w.database.keys.Tidy) :
    Ends s key (mayDeleteAmong fields) reported w
      ((do s.dropEmpty key; return b : DatabaseM β).run w') := by
  obtain ⟨evs, hlogs, hevs, hn⟩ := h
  have hrun : (do s.dropEmpty key; return b : DatabaseM β).run w' =
      .ok b (if s.isPrimary && w'.database.keys.holdsEmpty key then w'.withoutKey key else w') := by
    rw [EStateM.run_bind, run_dropEmpty s (hlogs.tidy ht)]
    rfl
  rw [hrun]
  split
  · next hd =>
    have hdropped : w'.Logs s.now [.dropped key] (w'.withoutKey key) :=
      .single (.dropped (Bool.and_eq_true_iff.mp hd).2) rfl
    refine .ok (hlogs.append hdropped)
      (List.forall_mem_append.mpr ⟨hevs, List.forall_mem_singleton.mpr ⟨rfl, rfl⟩⟩) ?_ fun _ _ => ?_
    · rw [List.countP_append, hn, hb]
      rfl
    · exact Database.holdsEmpty_of_absent (Database.get?_deleteKey _ _)
  · next hkept =>
    refine .ok hlogs hevs (hn.trans hb.symm) fun hp _ => ?_
    rw [hp, Bool.true_and] at hkept
    exact Bool.eq_false_iff.mpr hkept

theorem ends_deleteFieldsChecked (s : Scope) (key : Bytes) (entries : List (Bytes × VersionPolicy))
    (hv : ∀ e ∈ entries, e.2.isMalformed = false) (ht : w.database.keys.Tidy) :
    Ends s key (mayDeleteAmong (entries.map (·.1))) id w
      ((s.deleteFieldsChecked key entries).run w) := by
  refine Tries.ends ?_ ((Mistypes.checkType key).bind _) ht
  refine .after (Manages.checkType s.now key _).tries fun _ w ht ho => ?_
  have hall : Manages s.now key (mayDeleteAmong (entries.map (·.1)))
      (fun counts => (counts.map id).sum) (entries.mapM fun e => s.deleteIfMatching key e.1 e.2) :=
    .mapM fun e he => manages_deleteIfMatching s (hv e he) key (List.mem_map_of_mem he)
  obtain ⟨counts, w', hrun, hdid⟩ := hall w ht ho
  rw [EStateM.run_bind, hrun]
  refine ends_dropEmpty hdid ?_ ht
  dsimp only
  rw [List.map_id]
  exact List.sum_eq_foldl.symm

theorem ends_deleteField (s : Scope) (key field : Bytes) {version : VersionPolicy}
    (hv : version.isMalformed = false) (ht : w.database.keys.Tidy) :
    Ends s key (mayDeleteAmong [field]) Bool.toNat w ((s.deleteField key field version).run w) := by
  refine Tries.ends ?_ ((Mistypes.checkType key).bind _) ht
  refine .after (Manages.checkType s.now key _).tries fun _ w ht ho => ?_
  rw [EStateM.run_bind]
  rcases did_deleteOne s hv (List.mem_singleton_self field) ht ho with
    ⟨deleted, w', hrun, hdid⟩ | hrun
  · rw [hrun]
    exact ends_dropEmpty hdid rfl ht
  · rw [hrun]
    exact .refused (.refl w) rfl

/-- A delete deletes as many live fields as it reports, of those that it is about. -/
theorem ends_delete_about (s : Scope) {d : FieldDelete α} (hv : d.validate = .ok ())
    (ht : w.database.keys.Tidy) :
    Ends s d.key (mayDeleteAmong d.fields) d.count w ((d.action s).run w) := by
  have hall {γ : Type} (key : Bytes) (entries : List γ) (name : γ → Bytes)
      (version : γ → VersionPolicy) (hv : ∀ e ∈ entries, (version e).isMalformed = false) :
      Ends s key (mayDeleteAmong (entries.map name)) id w
        ((s.deleteFieldsChecked key (entries.map fun e => (name e, version e))).run w) := by
    have hends := ends_deleteFieldsChecked s key (entries.map fun e => (name e, version e))
      (List.forall_mem_map.mpr hv) ht
    rwa [List.map_map] at hends
  cases d with
  | one key field version =>
    exact ends_deleteField s key field (VersionPolicy.isMalformed_of_validate hv) ht
  | all key fields =>
    have hends := hall key fields id (fun _ => .next) fun _ _ => rfl
    rwa [List.map_id] at hends
  | allChecked key entries => exact hall key entries (·.1) (fun e => .matching e.2) fun _ _ => rfl

/-- A delete of fields deletes as many live fields as it reports. -/
theorem ends_delete (s : Scope) {d : FieldDelete α} (hv : d.validate = .ok ())
    (ht : w.database.keys.Tidy) : Ends s d.key mayDelete d.count w ((d.action s).run w) :=
  (ends_delete_about s hv ht).imp fun _ => mayDelete_of_among

end Deletes

end ExpiringHash
