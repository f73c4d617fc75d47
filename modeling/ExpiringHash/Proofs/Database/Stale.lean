import ExpiringHash.Proofs.Database.Batches

/-!
# Writes that come too late

A write or delete that demands another version than that of the live record writes nothing. It is
refused for its version, unless it was to be refused or passed over for something that is looked at
before the version.
-/
namespace ExpiringHash

open DatabaseM

namespace FieldWrite

variable {α : Type}

/-- The write demands that a field have a version. -/
def Demands (key field : Bytes) (v : UInt64) : FieldWrite α → Prop
  | .set k f _ rule => k = key ∧ f = field ∧ rule.version = .matching v
  | .setAllChecked k updates => k = key ∧ ∃ u ∈ updates, u.field = field ∧ u.version = v
  | .incrBy k f _ _ version _ => k = key ∧ f = field ∧ version = .matching v
  | .incrByFloat k f _ _ version _ => k = key ∧ f = field ∧ version = .matching v
  | .setExpiry k f _ version => k = key ∧ f = field ∧ version = .matching v
  | .setAll .. | .setVersion .. | .persist .. => False

/-- What a write with well-formed options answers over a live record whose version is not the one
demanded: a condition is looked at before the version, and so is a summand. -/
def staleAnswer (old : Record) : ∀ {α : Type}, FieldWrite α → Except HashError α
  | _, .set _ _ _ rule =>
    if rule.condition.allows true then .error .versionConflict else .ok .conditionNotMet
  | _, .incrBy .. => do
    discard (Fields.readInt old.value)
    throw .versionConflict
  | _, .incrByFloat .. => do
    discard (Fields.readFloat old.value)
    throw .versionConflict
  | _, _ => .error .versionConflict

end FieldWrite

/-- The delete demands that a field have a version. -/
def FieldDelete.Demands {α : Type} (key field : Bytes) (v : UInt64) : FieldDelete α → Prop
  | .one k f version => k = key ∧ f = field ∧ version = .matching v
  | .all .. | .allChecked .. => False

variable {α β : Type} {s : Scope} {key field k : Bytes} {w w' : Work} {old : Record} {v : UInt64}
  {answer : Except HashError α}

/-- The action answers so over a live record, and does nothing but reclaim expired fields. -/
def Replies (s : Scope) (key field : Bytes) (old : Record) (answer : Except HashError α)
    (x : DatabaseM α) : Prop :=
  ∀ w : Work, w.database.keys.Tidy → (w.fieldsAt key).live? field s.now = some old →
    ∃ w', w.Swept s.now key w' ∧ x.run w = outcomeIn w' answer

/-- A key with a live field holds no value of another type. -/
theorem open_of_live (h : (w.fieldsAt key).live? field s.now = some old) :
    w.database.keys.Open key :=
  KeySpace.open_of_fieldsAt (Fields.get?_of_live? h)

namespace Replies

/-- What does nothing but reclaim expired fields may come first. -/
theorem after {x : DatabaseM β} {next : β → DatabaseM α}
    (hx : Manages s.now key (fun _ => false) (fun _ => 0) x)
    (hk : ∀ b, Replies s key field old answer (next b)) :
    Replies s key field old answer (x >>= next) := by
  intro w ht hold
  obtain ⟨b, w₁, hrun, hdid⟩ := hx w ht (open_of_live hold)
  obtain ⟨w₂, hswept, hrun'⟩ := hk b w₁ (hdid.tidy ht) (Work.Swept.live? hdid.swept hold)
  refine ⟨w₂, hdid.swept.trans hswept, ?_⟩
  rw [EStateM.run_bind, hrun]
  exact hrun'

/-- What is decided by the live record is answered so. -/
theorem of_decides {x : Scope → DatabaseM α} {text : Bytes → Prop} {shown : α → β}
    {plan : Option Record → Except HashError (β × Option Command)} {err : HashError}
    (h : Decides x key field s.now text shown plan) (hp : plan (some old) = .error err) :
    Replies s key field old (.error err) (x s) := by
  intro w ht hold
  have hrun := h.run s w rfl ht (open_of_live hold)
  rw [hold, hp] at hrun
  exact ⟨w, .refl w, hrun⟩

/-- What is decided first may be refused for what it needs before it is refused for its version. -/
theorem of_base {γ : Type} {x : Scope → DatabaseM α} {text : Bytes → Prop} {shown : α → β}
    {plan : Option Record → Except HashError (β × Option Command)} {base : Except HashError γ}
    (h : Decides x key field s.now text shown plan)
    (hp : plan (some old) = base >>= fun _ => .error .versionConflict) :
    Replies s key field old (do discard base; throw .versionConflict) (x s) := by
  cases base with
  | error err => exact of_decides h hp
  | ok => exact of_decides h hp

/-- What follows a refusal is not reached. -/
theorem bind_error {x : DatabaseM β} {err : HashError} (hx : Replies s key field old (.error err) x)
    (next : β → DatabaseM α) : Replies s key field old (.error err) (x >>= next) := by
  intro w ht hold
  obtain ⟨w', hswept, hrun⟩ := hx w ht hold
  refine ⟨w', hswept, ?_⟩
  rw [EStateM.run_bind, hrun]
  rfl

/-- A live field is not due. -/
theorem unlessDue {next : Bool → DatabaseM α} (hx : Replies s key field old answer (next false)) :
    Replies s key field old answer (s.expireIfDue key field >>= next) := by
  intro w ht hold
  obtain ⟨w₁, hrun, -, hkept⟩ := swept_expireIfDue s ht (open_of_live hold) field
  obtain ⟨hget, hlive⟩ := Fields.live?_eq_some_iff.mp hold
  have hdue : ((w.fieldsAt key).get? field).any (·.isExpired s.now) = false := by
    rw [hget]
    exact hlive
  obtain rfl := hkept hdue
  obtain ⟨w', hswept, hrun'⟩ := hx w₁ ht hold
  refine ⟨w', hswept, ?_⟩
  rw [EStateM.run_bind, hrun, hdue]
  exact hrun'

end Replies

/-- The action succeeds and leaves a live record as it is. -/
def Endures (s : Scope) (key field : Bytes) (old : Record) (x : DatabaseM α) : Prop :=
  ∀ w : Work, w.database.keys.Tidy → (w.fieldsAt key).live? field s.now = some old →
    ∃ a w', x.run w = .ok a w' ∧ w'.database.keys.Tidy ∧
      (w'.fieldsAt key).live? field s.now = some old

namespace Endures

theorem pure (a : α) : Endures s key field old (Pure.pure a) :=
  fun w ht hold => ⟨a, w, rfl, ht, hold⟩

theorem bind {x : DatabaseM α} {next : α → DatabaseM β} (hx : Endures s key field old x)
    (hk : ∀ a, Endures s key field old (next a)) : Endures s key field old (x >>= next) := by
  intro w ht hold
  obtain ⟨a, w₁, hrun, ht₁, hold₁⟩ := hx w ht hold
  rw [EStateM.run_bind, hrun]
  exact hk a w₁ ht₁ hold₁

theorem mapM {l : List α} {step : α → DatabaseM β} (h : ∀ c ∈ l, Endures s key field old (step c)) :
    Endures s key field old (l.mapM step) := by
  induction l with
  | nil =>
    rw [List.mapM_nil]
    exact .pure _
  | cons c l ih =>
    rw [List.mapM_cons]
    exact .bind (h c List.mem_cons_self) fun _ =>
      .bind (ih fun d hd => h d (List.mem_cons_of_mem c hd)) fun _ => .pure _

end Endures

/-- Reclaiming expired fields leaves a live record. -/
theorem Manages.endures {x : DatabaseM α} {n : α → Nat}
    (h : Manages s.now key (fun _ => false) n x) : Endures s key field old x := by
  intro w ht hold
  obtain ⟨a, w', hrun, hdid⟩ := h w ht (open_of_live hold)
  exact ⟨a, w', hrun, hdid.tidy ht, hdid.swept.live? hold⟩

/-- What is decided by another field leaves the record. -/
theorem run_elsewhere {x : Scope → DatabaseM α} {other : Bytes} {text : Bytes → Prop} {shown : α → β}
    {plan : Option Record → Except HashError (β × Option Command)}
    (h : Decides x key other s.now text shown plan) (hne : other ≠ field)
    (ht : w.database.keys.Tidy) (hold : (w.fieldsAt key).live? field s.now = some old) :
    (∃ a w', (x s).run w = .ok a w' ∧ w'.database.keys.Tidy ∧
      (w'.fieldsAt key).live? field s.now = some old) ∨
    ∃ err, plan ((w.fieldsAt key).live? other s.now) = .error err ∧ (x s).run w = .error err w := by
  have ho := open_of_live hold
  have hrun := h.run s w rfl ht ho
  cases hp : plan ((w.fieldsAt key).live? other s.now) with
  | error err =>
    rw [hp] at hrun
    exact .inr ⟨err, rfl, hrun⟩
  | ok out =>
    obtain ⟨b, c⟩ := out
    rw [hp] at hrun
    cases c with
    | none =>
      obtain ⟨a, hrun, -⟩ := hrun
      exact .inl ⟨a, w, hrun, ht, hold⟩
    | some c =>
      obtain ⟨a, w', hrun, -, happly⟩ := hrun
      have hsuits := h.suits _ _ _ hp
      obtain ⟨w'', happly', hlogs⟩ := logs_apply ht ho hsuits
      cases happly.symm.trans happly'
      have hother : c.event.field? = some other := c.field?_event.trans hsuits.field?_eq
      obtain ⟨hget, hlive⟩ := Fields.live?_eq_some_iff.mp hold
      exact .inl ⟨a, w', hrun, hlogs.tidy ht, Fields.live?_eq_some_iff.mpr
        ⟨(get?_of_logs hlogs hother (Ne.symm hne)).trans hget, hlive⟩⟩

/-- A container with a live record is not without fields. -/
theorem endures_dropEmpty (s : Scope) : Endures s key field old (s.dropEmpty key) := by
  intro w ht hold
  have hfull : w.database.keys.holdsEmpty key = false := Bool.eq_false_iff.mpr fun hempty => by
    obtain ⟨c, hc, he⟩ := holdsEmpty_iff.mp hempty
    have hget := Fields.get?_of_live? hold
    rw [Work.fieldsAt, KeySpace.fieldsAt_of_get? hc, Fields.isEmpty_iff_get?.mp he] at hget
    cases hget
  refine ⟨(), w, ?_, ht, hold⟩
  rw [run_dropEmpty s ht, hfull, Bool.and_false, if_neg Bool.false_ne_true]

section Stale

variable (h0 : v ≠ 0) (hne : old.version ≠ v)

include h0 hne

/-- One check of a batch that fails is enough. -/
theorem replies_checkVersions {updates : List FieldUpdate}
    (hm : ∃ u ∈ updates, u.field = field ∧ u.version = v) :
    Replies s key field old (.error .versionConflict) (updates.forM (s.checkVersion key)) := by
  intro w ht hold
  obtain ⟨w', hswept, hfails, -⟩ := swept_checkVersions s ht (open_of_live hold) updates
  obtain ⟨u, hm, rfl, rfl⟩ := hm
  exact ⟨w', hswept, hfails ⟨u, hm, h0, old, hold, hne⟩⟩

theorem replies_setField {value : Bytes} {rule : WriteRule} (hrule : rule.version = .matching v) :
    Replies s key field old
      (if rule.condition.allows true then .error .versionConflict else .ok .conditionNotMet)
      (s.setField key field value rule) := by
  have hstore := Scope.store_decides key field value rule s.now
  have hplan : Scope.storePlan key field value rule s.now (some old) =
      if rule.condition.allows true then .error .versionConflict else .ok (none, none) := by
    rw [Scope.storePlan, Fields.setPlan_stale h0 hne hrule]
    split <;> rfl
  refine .after (Manages.prepare s key field _) fun _ => ?_
  split
  · next hallows =>
    rw [if_pos hallows] at hplan
    exact (Replies.of_decides hstore hplan).bind_error _
  · next hallows =>
    rw [if_neg hallows] at hplan
    intro w ht hold
    have hrun := hstore.run s w rfl ht (open_of_live hold)
    rw [hold, hplan] at hrun
    obtain ⟨written, hrun, hshown⟩ := hrun
    obtain rfl := Option.map_eq_none_iff.mp hshown
    refine ⟨w, .refl w, ?_⟩
    rw [EStateM.run_bind, hrun]
    rfl

/-- A write that demands another version answers as it must, and writes nothing. -/
theorem replies_write {wr : FieldWrite α} (hv : wr.validate = .ok ())
    (hd : wr.Demands key field v) : Replies s key field old (wr.staleAnswer old) (wr.action s) := by
  cases wr with
  | setAll => cases hd
  | setVersion => cases hd
  | persist => cases hd
  | set k f value rule =>
    obtain ⟨rfl, rfl, hrule⟩ := hd
    exact replies_setField h0 hne hrule
  | setAllChecked k updates =>
    obtain ⟨rfl, hm⟩ := hd
    exact .after (Manages.checkType s.now k _) fun _ => .after (Manages.sweep s k _) fun _ =>
      (replies_checkVersions h0 hne hm).bind_error _
  | incrBy k f delta bounds version ttl =>
    obtain ⟨rfl, rfl, rfl⟩ := hd
    obtain ⟨_, -, hb⟩ := ok_of_bind hv
    refine .after (Manages.prepare s k f _) fun _ =>
      Replies.of_base (Scope.addInt_decides k f delta bounds (.matching v) ttl s.now) ?_
    rw [Scope.addIntPlan, Fields.incrByPlan_stale h0 hne hb]
    cases Fields.readInt old.value <;> rfl
  | incrByFloat k f delta bounds version ttl =>
    obtain ⟨rfl, rfl, rfl⟩ := hd
    obtain ⟨_, -, hrest⟩ := ok_of_bind hv
    obtain ⟨_, hb, hfinite⟩ := ok_of_bind hrest
    have hfinite : delta.isFinite = true := by
      cases hd : delta.isFinite with
      | true => rfl
      | false =>
        rw [hd] at hfinite
        cases hfinite
    refine .after (Manages.prepare s k f _) fun _ =>
      Replies.of_base (Scope.addFloat_decides k f delta bounds (.matching v) ttl s.now) ?_
    rw [Scope.addFloatPlan, Fields.incrByFloatPlan_stale h0 hne hb hfinite]
    cases Fields.readFloat old.value <;> rfl
  | setExpiry k f time version =>
    obtain ⟨rfl, rfl, rfl⟩ := hd
    have hformed : (VersionPolicy.matching v).isMalformed = false := rfl
    have hplan : Scope.amendExpiryPlan k f time (.matching v) s.now (some old) =
        .error .versionConflict := by
      rw [Scope.amendExpiryPlan, Fields.setExpiryPlan_stale h0 hne]
      rfl
    exact .unlessDue (Replies.of_decides (Scope.amendExpiry_decides k f time hformed s.now) hplan)

theorem replies_deleteOne :
    Replies s key field old (.error .versionConflict) (s.deleteOne key field (.matching v)) := by
  have hformed : (VersionPolicy.matching v).isMalformed = false := rfl
  have hplan : Scope.deleteLivePlan key field (.matching v) (some old) = .error .versionConflict := by
    rw [Scope.deleteLivePlan, Fields.deletePlan_stale h0 hne]
    rfl
  exact .unlessDue (Replies.of_decides (Scope.deleteLive_decides key field hformed s.now) hplan)

theorem replies_delete {d : FieldDelete α} (hd : d.Demands key field v) :
    Replies s key field old (.error .versionConflict) (d.action s) := by
  cases d with
  | all => cases hd
  | allChecked => cases hd
  | one k f version =>
    obtain ⟨rfl, rfl, rfl⟩ := hd
    exact .after (Manages.checkType s.now k _) fun _ => (replies_deleteOne h0 hne).bind_error _

/-- A delete in a batch leaves a field whose version does not match, and all other fields. -/
theorem endures_deleteIfMatching {other : Bytes} {version : VersionPolicy}
    (hformed : version.isMalformed = false) (hversion : other = field → version = .matching v) :
    Endures s key field old (s.deleteIfMatching key other version) := by
  intro w ht hold
  have ho := open_of_live hold
  rw [run_deleteIfMatching]
  -- the field itself is refused and passed over; a delete of another field cannot reach its record
  by_cases hf : other = field
  · obtain rfl := hversion hf
    subst hf
    obtain ⟨w', hswept, hrun⟩ := replies_deleteOne h0 hne w ht hold
    rw [hrun]
    exact ⟨0, w', rfl, (hswept.did fun _ => false).tidy ht, hswept.live? hold⟩
  · obtain ⟨w₁, hdue, hswept, hkept⟩ := swept_expireIfDue s ht ho other
    cases hx : ((w.fieldsAt key).get? other).any (·.isExpired s.now) with
    | true =>
      rw [Scope.deleteOne, EStateM.run_bind, hdue, hx]
      exact ⟨0, w₁, rfl, (hswept.did fun _ => false).tidy ht, hswept.live? hold⟩
    | false =>
      obtain rfl := hkept hx
      have hrun : (s.deleteOne key other version).run w₁ =
          (Scope.deleteLive key other version s).run w₁ := by
        rw [Scope.deleteOne, EStateM.run_bind, hdue, hx]
        rfl
      rw [hrun]
      rcases run_elsewhere (Scope.deleteLive_decides key other hformed s.now) hf ht hold with
        ⟨deleted, w', hlater, hkept⟩ | ⟨err, hp, hlater⟩
      · rw [hlater]
        exact ⟨_, w', rfl, hkept⟩
      · rw [hlater, Scope.error_of_deleteLivePlan hformed hp]
        exact ⟨0, w₁, rfl, ht, hold⟩

/-- A batch of deletes passes over a field whose version is not the one it names for it. -/
theorem endures_deleteFieldsChecked {entries : List (Bytes × VersionPolicy)}
    (hformed : ∀ e ∈ entries, e.2.isMalformed = false)
    (hversion : ∀ e ∈ entries, e.1 = field → e.2 = .matching v) :
    Endures s key field old (s.deleteFieldsChecked key entries) := by
  refine .bind (Manages.checkType s.now key _).endures fun _ => .bind (.mapM fun e he => ?_) fun _ =>
    .bind (endures_dropEmpty s) fun _ => .pure _
  exact endures_deleteIfMatching h0 hne (hformed e he) (hversion e he)

end Stale

end ExpiringHash
