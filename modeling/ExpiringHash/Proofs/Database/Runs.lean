import ExpiringHash.Database.Apply
import ExpiringHash.Database.Write
import ExpiringHash.Proofs.Database.InStep
import ExpiringHash.Proofs.Effect.Leads

/-!
# Runs of actions

What the elementary actions do to tidy keys. A key is foreign, absent or holds a container of its
own. Every write, delete and applied command that takes effect comes down to one rewrite of the
fields of a key (`Work.rewrite`), and what does not take effect leaves the database as it is.
-/
namespace ExpiringHash

open DatabaseM

namespace KeySpace

variable {ks : KeySpace} {key : Bytes}

/-- What a key of a tidy key space can hold. -/
inductive Slot (ks : KeySpace) (key : Bytes) : Prop
  | foreign (type : String) (payload : Bytes) (h : ks.get? key = some (.foreign type payload))
  | absent (h : ks.get? key = none)
  | present (f : Fields) (hf : f.Consistent) (h : ks.get? key = some (.container ⟨key, f⟩))

theorem Tidy.slot (h : ks.Tidy) (key : Bytes) : ks.Slot key := by
  cases hv : ks.get? key with
  | none => exact .absent hv
  | some v =>
    cases v with
    | foreign type payload => exact .foreign type payload hv
    | container c =>
      obtain ⟨rfl, hf⟩ := h key _ hv
      exact .present c.fields hf hv

theorem container?_foreign {type : String} {payload : Bytes}
    (h : ks.get? key = some (.foreign type payload)) : ks.container? key = .error .typeMismatch := by
  simp only [container?, h]

theorem container?_absent (h : ks.get? key = none) : ks.container? key = .ok none := by
  simp only [container?, h]

theorem container?_present {c : Container} (h : ks.get? key = some (.container c)) :
    ks.container? key = .ok (some c) := by
  simp only [container?, h]

/-- The key holds no value of another type. -/
def Open (ks : KeySpace) (key : Bytes) : Prop := ks.checkType key = .ok ()

theorem open_of_absent (h : ks.get? key = none) : ks.Open key := by
  simp only [Open, checkType, container?_absent h, Except.map]

theorem open_of_present {c : Container} (h : ks.get? key = some (.container c)) : ks.Open key := by
  simp only [Open, checkType, container?_present h, Except.map]

theorem not_open_of_foreign {type : String} {payload : Bytes}
    (h : ks.get? key = some (.foreign type payload)) : ¬ks.Open key := by
  simp [Open, checkType, container?_foreign h, Except.map]

theorem open_of_fieldsAt {field : Bytes} {r : Record} (h : (ks.fieldsAt key).get? field = some r) :
    ks.Open key := by
  cases hv : ks.get? key with
  | none => exact open_of_absent hv
  | some v =>
    cases v with
    | container c => exact open_of_present hv
    | foreign type payload =>
      rw [fieldsAt_of_foreign hv] at h
      cases h

theorem open_congr {ks' : KeySpace} (h : ks'.get? key = ks.get? key) : ks'.Open key ↔ ks.Open key := by
  simp only [Open, checkType, container?, h]

end KeySpace

namespace Work

/-- The work with a command sent. -/
def say (w : Work) (c : Command) : Work := { w with emitted := c :: w.emitted }

/-- The work with the fields of a key changed, the index following and a command sent. -/
def rewrite (w : Work) (key : Bytes) (change : ExpiryShift × Fields) (c : Command) : Work :=
  { database :=
      { w.database with
        keys := w.database.keys.putContainer key ⟨key, change.2⟩
        index := w.database.index.apply key change.1 }
    emitted := c :: w.emitted }

/-- The work with the fields of a key changed and nothing else. -/
def refill (w : Work) (key : Bytes) (g : Fields) : Work :=
  { w with database := w.database.putContainer key ⟨key, g⟩ }

/-- The work with one expired field more counted. -/
def counted (w : Work) (t : Trigger) : Work :=
  { w with database := { w.database with tally := w.database.tally.count t } }

/-- The work with a key deleted and a command sent that says so. -/
def withoutKey (w : Work) (key : Bytes) : Work :=
  Work.say ⟨(w.database.deleteKey key).2, w.emitted⟩ (.deleteKey key)

/-- The fields under a key. -/
def fieldsAt (w : Work) (key : Bytes) : Fields := w.database.keys.fieldsAt key

end Work

section Runs

variable {w : Work} {key field : Bytes} {α β : Type} {f : Fields}

theorem run_database (w : Work) : database.run w = .ok w.database w := rfl

theorem run_container? (w : Work) (key : Bytes) :
    (container? key).run w = match w.database.keys.container? key with
      | .ok c => .ok c w
      | .error e => .error e w := by
  change (MonadExcept.ofExcept (w.database.keys.container? key) : DatabaseM _).run w = _
  cases w.database.keys.container? key <;> rfl

/-- Looking up a container changes nothing. -/
theorem leads_container? {R : Work → Work → Prop} [IsPreorder Work R] (key : Bytes) :
    Leads R (container? key) :=
  Leads.bind (Leads.bind Leads.get fun _ => Leads.pure _) fun _ => Leads.ofExcept _

theorem leads_checkType {R : Work → Work → Prop} [IsPreorder Work R] (key : Bytes) :
    Leads R (checkType key) :=
  (leads_container? key).discard

theorem run_checkType (w : Work) (key : Bytes) :
    (checkType key).run w = match w.database.keys.checkType key with
      | .ok _ => .ok () w
      | .error e => .error e w := by
  rw [checkType, run_discard, run_container?, KeySpace.checkType]
  cases w.database.keys.container? key <;> rfl

theorem run_container?_foreign {type : String} {payload : Bytes}
    (h : w.database.keys.get? key = some (.foreign type payload)) :
    (container? key).run w = .error .typeMismatch w := by
  rw [run_container?, KeySpace.container?_foreign h]

theorem run_container?_absent (h : w.database.keys.get? key = none) :
    (container? key).run w = .ok none w := by
  rw [run_container?, KeySpace.container?_absent h]

theorem run_container?_present {c : Container}
    (h : w.database.keys.get? key = some (.container c)) :
    (container? key).run w = .ok (some c) w := by
  rw [run_container?, KeySpace.container?_present h]

/-- Filing the fields that a container has already changes nothing. -/
theorem refill_self (h : w.database.keys.get? key = some (.container ⟨key, f⟩)) :
    w.refill key f = w := by
  have hk : w.database.keys.putContainer key ⟨key, f⟩ = w.database.keys :=
    SortedTable.put_of_get? h
  simp only [Work.refill, Database.putContainer, hk]

section Write

variable {op : Fields → Except HashError (α × Fields)} {a : α} {g : Fields} {e : HashError}

theorem run_write_foreign {type : String} {payload : Bytes}
    (h : w.database.keys.get? key = some (.foreign type payload)) :
    (write key op).run w = .error .typeMismatch w := by
  rw [write, EStateM.run_bind, run_container?_foreign h]

theorem run_write_open (ht : w.database.keys.Tidy) (ho : w.database.keys.Open key) :
    (write key op).run w = match op (w.fieldsAt key) with
      | .error e => .error e w
      | .ok (a, g) =>
        .ok a (if (w.database.keys.get? key).isNone && g.isEmpty then w else w.refill key g) := by
  rw [write, EStateM.run_bind]
  cases ht.slot key with
  | foreign _ _ hs => exact absurd ho (KeySpace.not_open_of_foreign hs)
  | absent hs =>
    rw [Work.fieldsAt, KeySpace.fieldsAt_of_get?_none hs, run_container?_absent hs]
    cases op ∅ with
    | error e => rfl
    | ok r =>
      obtain ⟨a, g⟩ := r
      change EStateM.run (if (!g.isEmpty) = true then _ else _) w = _
      rw [hs]
      cases hg : g.isEmpty <;> simp only [hg] <;> rfl
  | present f _ hs =>
    rw [Work.fieldsAt, KeySpace.fieldsAt_of_get? hs, run_container?_present hs]
    dsimp only
    cases op f with
    | error e => rfl
    | ok r =>
      rw [hs]
      rfl

theorem run_write_error (ht : w.database.keys.Tidy) (ho : w.database.keys.Open key)
    (h : op (w.fieldsAt key) = .error e) : (write key op).run w = .error e w := by
  rw [run_write_open ht ho, h]

theorem run_write_kept (ht : w.database.keys.Tidy) (ho : w.database.keys.Open key)
    (h : op (w.fieldsAt key) = .ok (a, w.fieldsAt key)) : (write key op).run w = .ok a w := by
  rw [run_write_open ht ho, h]
  cases ht.slot key with
  | foreign _ _ hs => exact absurd ho (KeySpace.not_open_of_foreign hs)
  | absent hs =>
    rw [Work.fieldsAt, KeySpace.fieldsAt_of_get?_none hs, hs]
    rfl
  | present f _ hs =>
    rw [Work.fieldsAt, KeySpace.fieldsAt_of_get? hs, hs]
    change EStateM.Result.ok a (w.refill key f) = _
    rw [refill_self hs]

theorem run_write_changed (ht : w.database.keys.Tidy) (ho : w.database.keys.Open key)
    (h : op (w.fieldsAt key) = .ok (a, g)) (hg : g.isEmpty = false) :
    (write key op).run w = .ok a (w.refill key g) := by
  rw [run_write_open ht ho, h]
  simp only [hg, Bool.and_false, Bool.false_eq_true, if_false]

theorem run_revise_foreign {type : String} {payload : Bytes}
    (h : w.database.keys.get? key = some (.foreign type payload)) :
    (revise key a op).run w = .error .typeMismatch w := by
  rw [revise, EStateM.run_bind, run_container?_foreign h]

theorem run_revise_absent (h : w.database.keys.get? key = none) :
    (revise key a op).run w = .ok a w := by
  rw [revise, EStateM.run_bind, run_container?_absent h]
  rfl

theorem run_revise_error {b : α} (hs : w.database.keys.get? key = some (.container ⟨key, f⟩))
    (h : op f = .error e) : (revise key b op).run w = .error e w := by
  rw [revise, EStateM.run_bind, run_container?_present hs]
  simp only [h]
  rfl

theorem run_revise_changed {b : α} (hs : w.database.keys.get? key = some (.container ⟨key, f⟩))
    (h : op f = .ok (a, g)) : (revise key b op).run w = .ok a (w.refill key g) := by
  rw [revise, EStateM.run_bind, run_container?_present hs]
  simp only [h]
  rfl

theorem run_revise_kept {b : α} (hs : w.database.keys.get? key = some (.container ⟨key, f⟩))
    (h : op f = .ok (a, f)) : (revise key b op).run w = .ok a w := by
  rw [run_revise_changed hs h, refill_self hs]

end Write

section Apply

variable {r : Record} {s : Scope}

theorem run_apply_set (ht : w.database.keys.Tidy) (ho : w.database.keys.Open key)
    (field value : Bytes) (version expiry : UInt64) :
    (Scope.apply (.set key field value version expiry)).run w =
      .ok () (w.rewrite key ((w.fieldsAt key).put field ⟨value, version, expiry⟩)
        (.set key field value version expiry)) := by
  rw [Scope.apply, EStateM.run_bind, Scope.perform, EStateM.run_bind,
    run_write_changed ht ho rfl (Fields.isEmpty_put ..)]
  rfl

theorem run_apply_delete (hs : w.database.keys.get? key = some (.container ⟨key, f⟩))
    (hr : f.get? field = some r) :
    (Scope.apply (.delete key field)).run w =
      .ok () (w.rewrite key (f.shiftTo (f.remove field).2 field r.expireAt 0, (f.remove field).2)
        (.delete key field)) := by
  rw [Scope.apply, EStateM.run_bind, Scope.perform, EStateM.run_bind,
    run_revise_changed hs (congrArg Except.ok (Fields.remove_of_get? hr))]
  rw [Fields.remove_of_get? hr]
  rfl

theorem run_apply_delete_missing (hs : w.database.keys.get? key = some (.container ⟨key, f⟩))
    (hr : f.get? field = none) :
    (Scope.apply (.delete key field)).run w = .ok () (w.say (.delete key field)) := by
  rw [Scope.apply, EStateM.run_bind, Scope.perform, EStateM.run_bind,
    run_revise_kept hs (congrArg Except.ok (Fields.remove_of_get?_none hr))]
  rfl

theorem run_apply_delete_absent (hs : w.database.keys.get? key = none) (field : Bytes) :
    (Scope.apply (.delete key field)).run w = .ok () (w.say (.delete key field)) := by
  rw [Scope.apply, EStateM.run_bind, Scope.perform, EStateM.run_bind, run_revise_absent hs]
  rfl

theorem run_apply_deleteKey (w : Work) (key : Bytes) :
    (Scope.apply (.deleteKey key)).run w = .ok () (w.withoutKey key) := rfl

/-- A change of one record in place. -/
theorem run_updateRecord (hs : w.database.keys.get? key = some (.container ⟨key, f⟩))
    (hr : f.get? field = some r) (change : Record → Record) (c : Command) :
    (do Scope.updateRecord key field change; emit c : DatabaseM Unit).run w =
      .ok () (w.rewrite key (f.put field (change r)) c) := by
  rw [EStateM.run_bind, Scope.updateRecord, EStateM.run_bind,
    run_revise_changed hs (congrArg Except.ok (Fields.update_of_get? change hr))]
  rfl

theorem run_updateRecord_missing (hs : w.database.keys.get? key = some (.container ⟨key, f⟩))
    (hr : f.get? field = none) (change : Record → Record) (c : Command) :
    (do Scope.updateRecord key field change; emit c : DatabaseM Unit).run w = .ok () (w.say c) := by
  rw [EStateM.run_bind, Scope.updateRecord, EStateM.run_bind,
    run_revise_kept hs (congrArg Except.ok (Fields.update_of_get?_none change hr))]
  rfl

theorem run_updateRecord_absent (hs : w.database.keys.get? key = none)
    (change : Record → Record) (c : Command) :
    (do Scope.updateRecord key field change; emit c : DatabaseM Unit).run w = .ok () (w.say c) := by
  rw [EStateM.run_bind, Scope.updateRecord, EStateM.run_bind, run_revise_absent hs]
  rfl

theorem run_updateRecord_foreign {type : String} {payload : Bytes}
    (hs : w.database.keys.get? key = some (.foreign type payload))
    (change : Record → Record) (c : Command) :
    (do Scope.updateRecord key field change; emit c : DatabaseM Unit).run w =
      .error .typeMismatch w := by
  rw [EStateM.run_bind, Scope.updateRecord, EStateM.run_bind, run_revise_foreign hs]

end Apply

end Runs

end ExpiringHash
