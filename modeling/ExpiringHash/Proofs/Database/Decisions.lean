import ExpiringHash.Database.Delete
import ExpiringHash.Proofs.Database.Runs
import ExpiringHash.Proofs.Fields.Outcomes

/-!
# Writes are decided by the live record of their field

Once expired fields have been dealt with, a write or delete of one field looks at nothing but the
live record of that field: by it alone it is refused, or does nothing, or does what applying one
command does, and sends that command. So what a write stores never depends on records that have
expired, and a replica that applies the command comes to the same fields.
-/
namespace ExpiringHash

open DatabaseM

/-- A command that a write of a field can decide on, given its live record: to store a text of a
kind, or to change or delete what is live. -/
inductive Command.Suits (current : Option Record) (key field : Bytes) (text : Bytes → Prop) :
    Command → Prop
  | set {value : Bytes} (version expiry : UInt64) (h : text value) :
      Suits current key field text (.set key field value version expiry)
  | delete {old : Record} (h : current = some old) : Suits current key field text (.delete key field)
  | expireAt {old : Record} (expiry version : UInt64) (h : current = some old) :
      Suits current key field text (.expireAt key field expiry version)
  | persist {old : Record} (h : current = some old) :
      Suits current key field text (.persist key field)
  | setVersion {old : Record} (version : UInt64) (h : current = some old) :
      Suits current key field text (.setVersion key field version)

namespace Command

/-- The field that the command changes, if it changes one. -/
def field? : Command → Option Bytes
  | .set _ field .. | .delete _ field | .expireAt _ field .. | .persist _ field
  | .setVersion _ field _ => some field
  | .deleteKey _ => none

/-- The record that a command leaves in its field. -/
def outcome (current : Option Record) : Command → Option Record
  | .set _ _ value version expiry => some { value, version, expireAt := expiry }
  | .delete .. => none
  | .expireAt _ _ expiry version => current.map fun r => { r with version, expireAt := expiry }
  | .persist .. => current.map fun r => { r with expireAt := 0 }
  | .setVersion _ _ version => current.map fun r => { r with version }
  | .deleteKey _ => none

end Command

theorem Command.Suits.key_eq {current : Option Record} {key field : Bytes} {text : Bytes → Prop}
    {c : Command} (h : c.Suits current key field text) : c.key = key := by
  cases h <;> rfl

theorem Command.Suits.field?_eq {current : Option Record} {key field : Bytes} {text : Bytes → Prop}
    {c : Command} (h : c.Suits current key field text) : c.field? = some field := by
  cases h <;> rfl

variable {α β : Type}

/-- An action fails with an error, does nothing, or does what one command does, as is decided; the
answer is shown in part. -/
def Does (x : DatabaseM α) (w : Work) (shown : α → β) : Except HashError (β × Option Command) → Prop
  | .error e => x.run w = .error e w
  | .ok (b, none) => ∃ a, x.run w = .ok a w ∧ shown a = b
  | .ok (b, some c) =>
    ∃ a w', x.run w = .ok a w' ∧ shown a = b ∧ (Scope.apply c).run w = .ok () w'

/-- What an action does is decided by the live record of a field alone. -/
structure Decides (x : Scope → DatabaseM α) (key field : Bytes) (now : UInt64)
    (text : Bytes → Prop) (shown : α → β)
    (plan : Option Record → Except HashError (β × Option Command)) : Prop where
  suits : ∀ current b c, plan current = .ok (b, some c) → c.Suits current key field text
  foreign : ∀ s w, ¬w.database.keys.Open key → w.database.keys.Tidy →
    (x s).run w = .error .typeMismatch w
  run : ∀ (s : Scope) (w : Work), s.now = now → w.database.keys.Tidy → w.database.keys.Open key →
    Does (x s) w shown (plan ((w.fieldsAt key).live? field now))

/-- An answer with the command that tells of a change, if there is one. -/
def told {ρ : Type} (idle : β) (answer : ρ → β) (tell : ρ → Command) :
    Option ρ → β × Option Command
  | none => (idle, none)
  | some r => (answer r, some (tell r))

namespace Scope

variable {w : Work} {key field : Bytes} {now : UInt64}

/-- Adds to an integer field, once expired fields have been dealt with. -/
def addInt (key field : Bytes) (delta : Int) (bounds : Bounds Int) (version : VersionPolicy)
    (ttl : TtlUpdate) (s : Scope) : DatabaseM Int := do
  let (sum, w) ← write key fun f => f.incrBy field delta bounds version ttl s.now
  publish key field (Numeral.ofInt sum) w
  return sum

/-- Adds to a floating-point field, once expired fields have been dealt with. -/
def addFloat (key field : Bytes) (delta : Float) (bounds : Bounds Float)
    (version : VersionPolicy) (ttl : TtlUpdate) (s : Scope) : DatabaseM Bytes := do
  let (value, w) ← write key fun f => f.incrByFloat field delta bounds version ttl s.now
  publish key field value w
  return value

/-- Sets the version of a live field. -/
def amendVersion (key field : Bytes) (version : UInt64) (s : Scope) : DatabaseM Bool := do
  if ← revise key false fun f => f.setVersion field version s.now then
    emit (.setVersion key field version)
    return true
  else return false

/-- Gives a live field an expiry. -/
def amendExpiry (key field : Bytes) (time : ExpireTime) (version : VersionPolicy) (s : Scope) :
    DatabaseM Bool := do
  match ← revise key none fun f => f.setExpiry field time version s.now with
  | none => return false
  | some w =>
    follow key w.shift
    emit (.expireAt key field w.expireAt w.version)
    return true

/-- Takes the expiry off a live field. -/
def dropExpiry (key field : Bytes) (s : Scope) : DatabaseM Bool := do
  match ← revise key none fun f => .ok (f.persist field s.now) with
  | none => return false
  | some shift =>
    follow key shift
    emit (.persist key field)
    return true

/-- Deletes a live field. -/
def deleteLive (key field : Bytes) (version : VersionPolicy) (s : Scope) : DatabaseM Bool := do
  match ← revise key none fun f => f.delete field version s.now with
  | none => return false
  | some (_, shift) =>
    follow key shift
    emit (.delete key field)
    return true

theorem foreign_of_not_open {ks : KeySpace} (ht : ks.Tidy) (ho : ¬ks.Open key) :
    ∃ type payload, ks.get? key = some (.foreign type payload) := by
  cases ht.slot key with
  | foreign type payload hs => exact ⟨type, payload, hs⟩
  | absent hs => exact absurd (KeySpace.open_of_absent hs) ho
  | present f _ hs => exact absurd (KeySpace.open_of_present hs) ho

/-- What a conditional write does over what is live. -/
def storePlan (key field value : Bytes) (rule : WriteRule) (now : UInt64)
    (current : Option Record) : Except HashError (Option Bool × Option Command) :=
  (Fields.setPlan value rule now current).map
    (told none (fun _ => some current.isNone) fun r => .set key field value r.version r.expireAt)

theorem store_decides (key field value : Bytes) (rule : WriteRule) (now : UInt64) :
    Decides (fun s => s.store key field value rule) key field now (· = value)
      (Option.map Written.created) (storePlan key field value rule now) := by
  refine ⟨?_, ?_, ?_⟩
  · intro current b c h
    obtain ⟨r?, -, h⟩ := ok_of_map h
    cases r? with
    | none => cases h
    | some r =>
      cases h
      exact .set _ _ rfl
  · intro s w ho ht
    obtain ⟨type, payload, hs⟩ := foreign_of_not_open ht ho
    rw [store, EStateM.run_bind, run_write_foreign hs]
  · rintro s w rfl ht ho
    have hop := Fields.set_eq (w.fieldsAt key) field value rule s.now
    unfold storePlan
    cases hp : Fields.setPlan value rule s.now ((w.fieldsAt key).live? field s.now) with
    | error e =>
      rw [hp] at hop
      change (s.store key field value rule).run w = .error e w
      rw [store, EStateM.run_bind, run_write_error ht ho hop]
    | ok r? =>
      rw [hp] at hop
      cases r? with
      | none =>
        refine ⟨none, ?_, rfl⟩
        rw [store, EStateM.run_bind, run_write_kept ht ho hop]
        rfl
      | some r =>
        obtain rfl := Fields.value_of_setPlan hp
        refine ⟨some ((w.fieldsAt key).stored field _ r).1, _, ?_, rfl, run_apply_set ht ho ..⟩
        rw [store, EStateM.run_bind, run_write_changed ht ho hop (Fields.isEmpty_put ..)]
        rfl

/-- What an addition to an integer does over what is live. -/
def addIntPlan (key field : Bytes) (delta : Int) (bounds : Bounds Int) (version : VersionPolicy)
    (ttl : TtlUpdate) (now : UInt64) (current : Option Record) :
    Except HashError (Int × Option Command) :=
  (Fields.incrByPlan delta bounds version ttl now current).map fun out =>
    (out.1, some (.set key field (Numeral.ofInt out.1) out.2.version out.2.expireAt))

theorem addInt_decides (key field : Bytes) (delta : Int) (bounds : Bounds Int)
    (version : VersionPolicy) (ttl : TtlUpdate) (now : UInt64) :
    Decides (addInt key field delta bounds version ttl) key field now
      (fun text => ∃ sum, Numeral.fitsInt64 sum = true ∧ text = Numeral.ofInt sum) id
      (addIntPlan key field delta bounds version ttl now) := by
  refine ⟨?_, ?_, ?_⟩
  · intro current b c h
    obtain ⟨⟨sum, r⟩, hp, h⟩ := ok_of_map h
    cases h
    exact .set _ _ ⟨_, (Fields.value_of_incrByPlan hp).2, rfl⟩
  · intro s w ho ht
    obtain ⟨type, payload, hs⟩ := foreign_of_not_open ht ho
    rw [addInt, EStateM.run_bind, run_write_foreign hs]
  · rintro s w rfl ht ho
    have hop := Fields.incrBy_eq (w.fieldsAt key) field delta bounds version ttl s.now
    unfold addIntPlan
    cases hp : Fields.incrByPlan delta bounds version ttl s.now
        ((w.fieldsAt key).live? field s.now) with
    | error e =>
      rw [hp] at hop
      change (addInt key field delta bounds version ttl s).run w = .error e w
      rw [addInt, EStateM.run_bind, run_write_error ht ho hop]
    | ok out =>
      obtain ⟨sum, r⟩ := out
      rw [hp] at hop
      refine ⟨sum, _, ?_, rfl, run_apply_set ht ho ..⟩
      rw [addInt, EStateM.run_bind, run_write_changed ht ho hop (Fields.isEmpty_put ..)]
      dsimp only
      rw [← (Fields.value_of_incrByPlan hp).1]
      rfl

/-- What an addition to a floating-point number does over what is live. -/
def addFloatPlan (key field : Bytes) (delta : Float) (bounds : Bounds Float)
    (version : VersionPolicy) (ttl : TtlUpdate) (now : UInt64) (current : Option Record) :
    Except HashError (Bytes × Option Command) :=
  (Fields.incrByFloatPlan delta bounds version ttl now current).map fun out =>
    (FloatText.ofFloat out.1,
      some (.set key field (FloatText.ofFloat out.1) out.2.version out.2.expireAt))

theorem addFloat_decides (key field : Bytes) (delta : Float) (bounds : Bounds Float)
    (version : VersionPolicy) (ttl : TtlUpdate) (now : UInt64) :
    Decides (addFloat key field delta bounds version ttl) key field now
      (fun text => ∃ sum, text = FloatText.ofFloat sum) id
      (addFloatPlan key field delta bounds version ttl now) := by
  refine ⟨?_, ?_, ?_⟩
  · intro current b c h
    obtain ⟨⟨sum, r⟩, -, h⟩ := ok_of_map h
    cases h
    exact .set _ _ ⟨sum, rfl⟩
  · intro s w ho ht
    obtain ⟨type, payload, hs⟩ := foreign_of_not_open ht ho
    rw [addFloat, EStateM.run_bind, run_write_foreign hs]
  · rintro s w rfl ht ho
    have hop := Fields.incrByFloat_eq (w.fieldsAt key) field delta bounds version ttl s.now
    unfold addFloatPlan
    cases hp : Fields.incrByFloatPlan delta bounds version ttl s.now
        ((w.fieldsAt key).live? field s.now) with
    | error e =>
      rw [hp] at hop
      change (addFloat key field delta bounds version ttl s).run w = .error e w
      rw [addFloat, EStateM.run_bind, run_write_error ht ho hop]
    | ok out =>
      obtain ⟨sum, r⟩ := out
      rw [hp] at hop
      refine ⟨FloatText.ofFloat sum, _, ?_, rfl, run_apply_set ht ho ..⟩
      rw [addFloat, EStateM.run_bind, run_write_changed ht ho hop (Fields.isEmpty_put ..)]
      dsimp only
      rw [← Fields.value_of_incrByFloatPlan hp]
      rfl

/-- Without a container there is nothing to amend. -/
theorem live?_of_absent (hs : w.database.keys.get? key = none) (field : Bytes) (now : UInt64) :
    (w.fieldsAt key).live? field now = none := by
  rw [Work.fieldsAt, KeySpace.fieldsAt_of_get?_none hs]
  rfl

/-- An amendment does nothing without a container, and is decided by what it does to one. -/
theorem decides_of_revise {ρ : Type} {absent : ρ} {k : ρ → DatabaseM Bool}
    {op : Scope → Fields → Except HashError (ρ × Fields)}
    {plan : Option Record → Except HashError (Bool × Option Command)}
    (hnone : plan none = .ok (false, none)) (habsent : k absent = pure false)
    (hsuits : ∀ current b c, plan current = .ok (b, some c) →
      c.Suits current key field fun _ => False)
    (hpresent : ∀ (s : Scope) (w : Work) (f : Fields), s.now = now → f.Consistent →
      w.database.keys.get? key = some (.container ⟨key, f⟩) →
      Does (do k (← revise key absent (op s))) w id (plan (f.live? field now))) :
    Decides (fun s => do k (← revise key absent (op s))) key field now (fun _ => False) id plan where
  suits := hsuits
  foreign s w ho ht := by
    obtain ⟨type, payload, hs⟩ := foreign_of_not_open ht ho
    rw [EStateM.run_bind, run_revise_foreign hs]
  run s w hnow ht ho := by
    cases ht.slot key with
    | foreign _ _ hs => exact absurd ho (KeySpace.not_open_of_foreign hs)
    | absent hs =>
      rw [live?_of_absent hs, hnone]
      refine ⟨false, ?_, rfl⟩
      rw [EStateM.run_bind, run_revise_absent hs]
      dsimp only
      rw [habsent]
      rfl
    | present f hf hs =>
      rw [Work.fieldsAt, KeySpace.fieldsAt_of_get? hs]
      exact hpresent s w f hnow hf hs

/-- What a change of expiry does to what is live. -/
def amendExpiryPlan (key field : Bytes) (time : ExpireTime) (version : VersionPolicy) (now : UInt64)
    (current : Option Record) : Except HashError (Bool × Option Command) :=
  (Fields.setExpiryPlan time version now current).map
    (told false (fun _ => true) fun r => .expireAt key field r.expireAt r.version)

theorem amendExpiryPlan_none (key field : Bytes) (time : ExpireTime) {version : VersionPolicy}
    (hv : version.isMalformed = false) (now : UInt64) :
    amendExpiryPlan key field time version now none = .ok (false, none) := by
  rw [amendExpiryPlan, Fields.setExpiryPlan_none hv]
  rfl

theorem amendExpiry_decides (key field : Bytes) (time : ExpireTime) {version : VersionPolicy}
    (hv : version.isMalformed = false) (now : UInt64) :
    Decides (amendExpiry key field time version) key field now (fun _ => False) id
      (amendExpiryPlan key field time version now) := by
  refine decides_of_revise (amendExpiryPlan_none key field time hv now) rfl ?_ ?_
  · intro current b c h
    obtain ⟨r?, hp, h⟩ := ok_of_map h
    cases r? with
    | none => cases h
    | some r =>
      cases h
      obtain ⟨old, hold, -⟩ := Fields.of_setExpiryPlan hp
      exact .expireAt _ _ hold
  · rintro s w f rfl - hs
    have hop := Fields.setExpiry_eq f field time version s.now
    unfold amendExpiryPlan
    cases hp : Fields.setExpiryPlan time version s.now (f.live? field s.now) with
    | error e =>
      rw [hp] at hop
      change (amendExpiry key field time version s).run w = .error e w
      rw [amendExpiry, EStateM.run_bind, run_revise_error hs hop]
    | ok r? =>
      rw [hp] at hop
      cases r? with
      | none =>
        refine ⟨false, ?_, rfl⟩
        rw [EStateM.run_bind, run_revise_kept hs hop]
        rfl
      | some r =>
        obtain ⟨old, hold, hr⟩ := Fields.of_setExpiryPlan hp
        refine ⟨true, _, ?_, rfl, run_updateRecord hs (Fields.get?_of_live? hold) _ _⟩
        rw [EStateM.run_bind, run_revise_changed hs hop, hr]
        rfl

/-- What taking the expiry off does to what is live. -/
def dropExpiryPlan (key field : Bytes) (current : Option Record) :
    Except HashError (Bool × Option Command) :=
  .ok (told false (fun _ => true) (fun _ => .persist key field) (current.filter (·.hasTtl)))

theorem dropExpiry_decides (key field : Bytes) (now : UInt64) :
    Decides (dropExpiry key field) key field now (fun _ => False) id
      (dropExpiryPlan key field) := by
  refine decides_of_revise rfl rfl ?_ ?_
  · intro current b c h
    unfold dropExpiryPlan at h
    cases hc : current.filter (·.hasTtl) with
    | none =>
      rw [hc] at h
      cases h
    | some old =>
      rw [hc] at h
      cases h
      exact .persist (Option.filter_eq_some_iff.mp hc).1
  · rintro s w f rfl - hs
    have hop := congrArg (@Except.ok HashError _) (Fields.persist_eq f field s.now)
    unfold dropExpiryPlan
    cases hp : (f.live? field s.now).filter (·.hasTtl) with
    | none =>
      rw [hp] at hop
      refine ⟨false, ?_, rfl⟩
      rw [EStateM.run_bind, run_revise_kept hs hop]
      rfl
    | some old =>
      rw [hp] at hop
      have hold := (Option.filter_eq_some_iff.mp hp).1
      refine ⟨true, _, ?_, rfl, run_updateRecord hs (Fields.get?_of_live? hold) _ _⟩
      rw [EStateM.run_bind, run_revise_changed hs hop]
      rfl

/-- What setting a version does to what is live. -/
def amendVersionPlan (key field : Bytes) (version : UInt64) (current : Option Record) :
    Except HashError (Bool × Option Command) :=
  .ok (told false (fun _ => true) (fun _ => .setVersion key field version) current)

theorem amendVersion_decides (key field : Bytes) {version : UInt64} (hv : version ≠ 0)
    (now : UInt64) :
    Decides (amendVersion key field version) key field now (fun _ => False) id
      (amendVersionPlan key field version) := by
  refine decides_of_revise rfl rfl ?_ ?_
  · intro current b c h
    cases current with
    | none => cases h
    | some old =>
      cases h
      exact .setVersion _ rfl
  · rintro s w f rfl hf hs
    have hop := Fields.setVersion_eq hf field version s.now
    rw [if_neg hv] at hop
    unfold amendVersionPlan
    cases hl : f.live? field s.now with
    | none =>
      rw [hl] at hop
      refine ⟨false, ?_, rfl⟩
      rw [EStateM.run_bind, run_revise_kept hs hop]
      rfl
    | some old =>
      rw [hl] at hop
      have hget := Fields.get?_of_live? hl
      refine ⟨true, _, ?_, rfl, run_updateRecord hs hget _ _⟩
      rw [EStateM.run_bind, run_revise_changed hs hop]
      have hi := w.database.index.apply_of_isTrivial key
        (hf.isTrivial_put (r := { old with version }) hget rfl)
      simp only [Work.rewrite, hi]
      rfl

/-- What a delete does to what is live. -/
def deleteLivePlan (key field : Bytes) (version : VersionPolicy) (current : Option Record) :
    Except HashError (Bool × Option Command) :=
  (Fields.deletePlan version current).map fun found =>
    (found, if found then some (.delete key field) else none)

theorem deleteLivePlan_none (key field : Bytes) {version : VersionPolicy}
    (hv : version.isMalformed = false) :
    deleteLivePlan key field version none = .ok (false, none) := by
  rw [deleteLivePlan, Fields.deletePlan_none hv]
  rfl

theorem deleteLive_decides (key field : Bytes) {version : VersionPolicy}
    (hv : version.isMalformed = false) (now : UInt64) :
    Decides (deleteLive key field version) key field now (fun _ => False) id
      (deleteLivePlan key field version) := by
  refine decides_of_revise (deleteLivePlan_none key field hv) rfl ?_ ?_
  · intro current b c h
    obtain ⟨found, hp, h⟩ := ok_of_map h
    cases found with
    | false => cases h
    | true =>
      cases h
      obtain ⟨old, hold⟩ := Fields.live_of_deletePlan hp
      exact .delete hold
  · rintro s w f rfl - hs
    have hop := Fields.delete_eq f field version s.now
    unfold deleteLivePlan
    cases hp : Fields.deletePlan version (f.live? field s.now) with
    | error e =>
      rw [hp] at hop
      change (deleteLive key field version s).run w = .error e w
      rw [deleteLive, EStateM.run_bind, run_revise_error hs hop]
    | ok found =>
      rw [hp] at hop
      cases found with
      | false =>
        refine ⟨false, ?_, rfl⟩
        rw [EStateM.run_bind, run_revise_kept hs hop]
        rfl
      | true =>
        obtain ⟨old, hold⟩ := Fields.live_of_deletePlan hp
        have hget := Fields.get?_of_live? hold
        refine ⟨true, _, ?_, rfl, run_apply_delete hs hget⟩
        change f.delete field version s.now = .ok (f.remove field) at hop
        rw [Fields.remove_of_get? hget] at hop
        rw [EStateM.run_bind, run_revise_changed hs hop, Fields.remove_of_get? hget]
        rfl

end Scope

end ExpiringHash
