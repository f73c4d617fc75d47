import ExpiringHash.Engine.Request
import ExpiringHash.Proofs.Database.Decisions
import ExpiringHash.Proofs.Effect.Related

/-!
# Congruences of actions

A relation of databases is a congruence of two scopes if the few actions that all others are made of
respect it: clearing expired fields away, reading a live field, the writes that a live record
decides, and dropping empty containers. Then every write, delete and read of fields gives the same
answer from related databases and leaves them related.
-/
namespace ExpiringHash

open DatabaseM

variable {R : Work → Work → Prop} {s t : Scope} {α β : Type}

/-- The actions that all others are made of respect a relation. -/
structure Congruent (R : Work → Work → Prop) (s t : Scope) : Prop where
  now : t.now = s.now
  checked : ∀ key, Related R (· = ·) (checkType key) (checkType key)
  /-- A write first clears away expired fields of its container. -/
  opened : ∀ key, Related R (· = ·) (do checkType key; s.sweep key) (do checkType key; t.sweep key)
  expired : ∀ key field, Related R (fun _ _ => True) (s.expireIfDue key field) (t.expireIfDue key field)
  live : ∀ key field, Related R (· = ·) (s.liveField key field) (t.liveField key field)
  dropped : ∀ key, Related R (· = ·) (s.dropEmpty key) (t.dropEmpty key)
  decided : ∀ {α β : Type} {x : Scope → DatabaseM α} {key field : Bytes} {text : Bytes → Prop}
    {shown : α → β} {plan : Option Record → Except HashError (β × Option Command)},
    Decides x key field s.now text shown plan →
      Related R (fun a b => shown a = shown b) (x s) (x t)
  /-- A field that has expired counts as absent, and so does one that has been cleared away. -/
  unlessDue : ∀ {x : Scope → DatabaseM Bool} {key field : Bytes} {text : Bytes → Prop}
    {plan : Option Record → Except HashError (Bool × Option Command)},
    Decides x key field s.now text id plan → plan none = .ok (false, none) →
      Related R (· = ·) (do if ← s.expireIfDue key field then return false else x s)
        (do if ← t.expireIfDue key field then return false else x t)

namespace Congruent

variable (h : Congruent R s t)

include h

theorem prepare (key field : Bytes) :
    Related R (· = ·) (s.prepare key field) (t.prepare key field) := by
  have hall := Related.bind_eq (h.opened key) fun _ => (h.expired key field).discard
  rw [bind_assoc, bind_assoc] at hall
  exact hall

theorem store (key field value : Bytes) (rule : WriteRule) :
    Related R (fun a b => a.map Written.created = b.map Written.created)
      (s.store key field value rule) (t.store key field value rule) := by
  have hp := Scope.store_decides key field value rule s.now
  exact h.decided hp

theorem setField (key field value : Bytes) (rule : WriteRule) :
    Related R (· = ·) (s.setField key field value rule) (t.setField key field value rule) := by
  refine Related.bind_eq (h.prepare key field) fun _ =>
    Related.bind (h.store key field value rule) fun a b hab => ?_
  cases a with
  | none =>
    cases b with
    | none => exact Related.pure rfl
    | some b => cases hab
  | some a =>
    cases b with
    | none => cases hab
    | some b =>
      have hc : a.created = b.created := Option.some.inj hab
      refine Related.pure ?_
      rw [hc]

theorem setFields (key : Bytes) (entries : List (Bytes × Bytes)) :
    Related R (· = ·) (s.setFields key entries) (t.setFields key entries) := by
  have hall := Related.bind_eq (h.opened key) fun _ =>
    Related.forM (l := entries) fun e =>
      Related.bind_eq (h.expired key e.1).discard fun _ =>
        (h.store key e.1 e.2 { ttl := .keep }).discard
  rw [bind_assoc, bind_assoc] at hall
  exact hall

theorem checkVersion (key : Bytes) (u : FieldUpdate) :
    Related R (· = ·) (s.checkVersion key u) (t.checkVersion key u) :=
  Related.bind_eq (h.live key u.field) fun _ => Related.ofExcept _

theorem setFieldsChecked (key : Bytes) (updates : List FieldUpdate) :
    Related R (· = ·) (s.setFieldsChecked key updates) (t.setFieldsChecked key updates) := by
  have hall := Related.bind_eq (h.opened key) fun _ =>
    Related.bind_eq (Related.forM (l := updates) fun u => h.checkVersion key u) fun _ =>
      Related.forM (l := updates) fun u =>
        (h.store key u.field u.value { ttl := .set (.after u.ttl) }).discard
  rw [bind_assoc, bind_assoc] at hall
  exact hall

/-- A write that is not malformed in itself respects the relation. -/
theorem write {w : FieldWrite α} (hv : w.validate = .ok ()) :
    Related R (· = ·) (w.action s) (w.action t) := by
  cases w with
  | set key field value rule => exact h.setField key field value rule
  | setAll key entries => exact h.setFields key entries
  | setAllChecked key updates => exact h.setFieldsChecked key updates
  | incrBy key field delta bounds version ttl =>
    have hp := Scope.addInt_decides key field delta bounds version ttl s.now
    exact Related.bind_eq (h.prepare key field) fun _ => h.decided hp
  | incrByFloat key field delta bounds version ttl =>
    have hp := Scope.addFloat_decides key field delta bounds version ttl s.now
    exact Related.bind_eq (h.prepare key field) fun _ => h.decided hp
  | setVersion key field version =>
    have hne : version ≠ 0 := by
      rintro rfl
      cases hv
    have hp := Scope.amendVersion_decides key field hne s.now
    have hall := Related.bind_eq (h.opened key) fun _ => h.unlessDue hp rfl
    rw [bind_assoc, bind_assoc] at hall
    exact hall
  | setExpiry key field time version =>
    have hm := VersionPolicy.isMalformed_of_validate hv
    exact h.unlessDue (Scope.amendExpiry_decides key field time hm s.now)
      (Scope.amendExpiryPlan_none key field time hm s.now)
  | persist key field =>
    exact h.unlessDue (Scope.dropExpiry_decides key field s.now) rfl

theorem deleteOne (key field : Bytes) {version : VersionPolicy}
    (hv : version.isMalformed = false) :
    Related R (· = ·) (s.deleteOne key field version) (t.deleteOne key field version) := by
  exact h.unlessDue (Scope.deleteLive_decides key field hv s.now)
    (Scope.deleteLivePlan_none key field hv)

theorem deleteIfMatching (key field : Bytes) {version : VersionPolicy}
    (hv : version.isMalformed = false) :
    Related R (· = ·) (s.deleteIfMatching key field version)
      (t.deleteIfMatching key field version) := by
  refine Related.tryCatch (Related.bind_eq (h.deleteOne key field hv) fun _ => Related.pure rfl)
    fun e => ?_
  split
  · exact Related.pure rfl
  · exact Related.throw e

theorem deleteFieldsChecked (key : Bytes) {entries : List (Bytes × VersionPolicy)}
    (hv : ∀ e ∈ entries, e.2.isMalformed = false) :
    Related R (· = ·) (s.deleteFieldsChecked key entries) (t.deleteFieldsChecked key entries) := by
  refine Related.bind_eq (h.checked key) fun _ => Related.bind_eq (Related.mapM_mem fun e he => ?_)
    fun counts => Related.bind_eq (h.dropped key) fun _ => Related.pure rfl
  exact h.deleteIfMatching key e.1 (hv e he)

/-- A delete that is not malformed in itself respects the relation. -/
theorem delete {d : FieldDelete α} (hv : d.validate = .ok ()) :
    Related R (· = ·) (d.action s) (d.action t) := by
  cases d with
  | one key field version =>
    have hm := VersionPolicy.isMalformed_of_validate hv
    exact Related.bind_eq (h.checked key) fun _ =>
      Related.bind_eq (h.deleteOne key field hm) fun _ =>
        Related.bind_eq (h.dropped key) fun _ => Related.pure rfl
  | all key fields =>
    refine h.deleteFieldsChecked key fun e he => ?_
    obtain ⟨field, -, rfl⟩ := List.mem_map.mp he
    rfl
  | allChecked key entries =>
    refine h.deleteFieldsChecked key fun e he => ?_
    obtain ⟨entry, -, rfl⟩ := List.mem_map.mp he
    rfl

theorem getField (key field : Bytes) :
    Related R (· = ·) (s.getField key field) (t.getField key field) := by
  refine Related.bind_eq (h.live key field) fun record => ?_
  cases record with
  | none => exact Related.throw _
  | some r => exact Related.pure rfl

theorem getFields (key : Bytes) (fields : List Bytes) :
    Related R (· = ·) (s.getFields key fields) (t.getFields key fields) :=
  Related.bind_eq (h.checked key) fun _ => Related.mapM fun field =>
    Related.bind_eq (h.live key field) fun _ => Related.pure rfl

theorem fieldExists (key field : Bytes) :
    Related R (· = ·) (s.fieldExists key field) (t.fieldExists key field) :=
  Related.bind_eq (h.live key field) fun _ => Related.pure rfl

theorem valueLength (key field : Bytes) :
    Related R (· = ·) (s.valueLength key field) (t.valueLength key field) :=
  Related.bind_eq (h.live key field) fun _ => Related.pure rfl

end Congruent

end ExpiringHash
