import ExpiringHash.Proofs.Database.Refusals

/-!
# Where reads and writes lead

Reads and writes of fields are put together from a few actions: those that clear expired fields away,
and the writes that a live record decides. Wherever clearing leads in a preorder of databases, reads
lead too, and wherever the decided writes lead besides, so do all writes, whether they fail or not.
The names and values that a write is given, and the texts of numbers, are drawn from a set `p`.
-/
namespace ExpiringHash

open DatabaseM

variable {p : Bytes → Prop} {R : Work → Work → Prop} {s : Scope} {key field : Bytes} {α β : Type}

/-- The texts of all numbers that a field can come to hold are in `p`. -/
structure HasNumerals (p : Bytes → Prop) : Prop where
  int : ∀ n, Numeral.fitsInt64 n = true → p (Numeral.ofInt n)
  float : ∀ x, p (FloatText.ofFloat x)

namespace FieldWrite

/-- The names and values that a write is given. -/
def texts : FieldWrite α → List Bytes
  | .set key field value _ => [key, field, value]
  | .setAll key entries => key :: entries.flatMap fun e => [e.1, e.2]
  | .setAllChecked key updates => key :: updates.flatMap fun u => [u.field, u.value]
  | .incrBy key field .. => [key, field]
  | .incrByFloat key field .. => [key, field]
  | .setVersion key field _ => [key, field]
  | .setExpiry key field .. => [key, field]
  | .persist key field => [key, field]

end FieldWrite

/-- The actions that clear expired fields away lead where the relation says. -/
structure ClearingLeads (R : Work → Work → Prop) (s : Scope) : Prop where
  sweep : ∀ key, Leads R (s.sweep key)
  expireIfDue : ∀ key field, Leads R (s.expireIfDue key field)
  /-- Only a primary reclaims the expired fields that a scan has met. -/
  reclaimAll : s.isPrimary = true → ∀ key fields, Leads R (s.reclaimAll key fields)

/-- And so do the writes that a live record decides, where what they are given is in the set. -/
structure WritingLeads (p : Bytes → Prop) (R : Work → Work → Prop) (s : Scope) : Prop
    extends ClearingLeads R s where
  decided : ∀ {α β : Type} {x : Scope → DatabaseM α} {key field : Bytes} {text : Bytes → Prop}
    {shown : α → β} {plan : Option Record → Except HashError (β × Option Command)},
    Decides x key field s.now text shown plan → Stores plan → p key → p field →
      (∀ a, text a → p a) → Leads R (x s)

variable [IsPreorder Work R]

namespace ClearingLeads

variable (h : ClearingLeads R s)

include h

theorem liveField (key field : Bytes) : Leads R (s.liveField key field) := by
  refine Leads.bind (h.expireIfDue key field) fun expired => ?_
  split
  · exact Leads.pure _
  · exact Leads.bind (leads_container? key) fun _ => Leads.pure _

theorem prepare (key field : Bytes) : Leads R (s.prepare key field) :=
  Leads.bind (leads_checkType key) fun _ => Leads.bind (h.sweep key) fun _ =>
    (h.expireIfDue key field).discard

theorem checkVersion (key : Bytes) (u : FieldUpdate) : Leads R (s.checkVersion key u) :=
  Leads.bind (h.liveField key u.field) fun _ => Leads.ofExcept _

/-- What follows once a field has turned out not to have expired. -/
theorem unlessDue (key field : Bytes) (a : α) {x : DatabaseM α} (hx : Leads R x) :
    Leads R (do if ← s.expireIfDue key field then return a else x) := by
  refine Leads.bind (h.expireIfDue key field) fun expired => ?_
  cases expired with
  | true => exact Leads.pure _
  | false => exact hx

theorem getField (key field : Bytes) : Leads R (s.getField key field) := by
  refine Leads.bind (h.liveField key field) fun record => ?_
  split
  · exact Leads.pure _
  · exact Leads.throw _

/-- A read leads where clearing does. -/
theorem read (r : FieldRead α) : Leads R (r.action s) := by
  cases r with
  | get key field => exact h.getField key field
  | version key field => exact Leads.bind (h.getField key field) fun _ => Leads.pure _
  | getAll key fields =>
    exact Leads.bind (leads_checkType key) fun _ =>
      Leads.mapM fun field _ => Leads.bind (h.liveField key field) fun _ => Leads.pure _
  | exist key field => exact Leads.bind (h.liveField key field) fun _ => Leads.pure _
  | valueLength key field => exact Leads.bind (h.liveField key field) fun _ => Leads.pure _
  | timeLeft key field unit =>
    refine Leads.bind (leads_container? key) fun c => ?_
    split
    · exact Leads.pure _
    · refine Leads.bind (h.liveField key field) fun record => ?_
      split
      · exact Leads.pure _
      · split <;> exact Leads.pure _
  | scan key cursor pattern count =>
    refine Leads.bind (leads_container? key) fun c => ?_
    split
    · exact Leads.pure _
    · refine Leads.bind (Leads.ofExcept _) fun page => ?_
      dsimp only
      split
      · next hp => exact Leads.bind (h.reclaimAll hp key _) fun _ => Leads.pure _
      · exact Leads.pure _

end ClearingLeads

namespace WritingLeads

variable (h : WritingLeads p R s)

include h

omit [IsPreorder Work R] in
theorem store {value : Bytes} {rule : WriteRule} (hm : rule.version.isMalformed = false)
    (hk : p key) (hf : p field) (hv : p value) : Leads R (s.store key field value rule) :=
  h.decided (Scope.store_decides key field value rule s.now) (Scope.storePlan_stores hm) hk hf
    fun _ ha => ha ▸ hv

theorem setField {value : Bytes} {rule : WriteRule} (hm : rule.version.isMalformed = false)
    (hk : p key) (hf : p field) (hv : p value) : Leads R (s.setField key field value rule) := by
  refine Leads.bind (h.prepare key field) fun _ =>
    Leads.bind (h.store hm hk hf hv) fun written => ?_
  split <;> exact Leads.pure _

theorem setFields {entries : List (Bytes × Bytes)} (hk : p key)
    (he : ∀ e ∈ entries, p e.1 ∧ p e.2) : Leads R (s.setFields key entries) := by
  refine Leads.bind (leads_checkType key) fun _ => Leads.bind (h.sweep key) fun _ =>
    Leads.forM fun e hm => ?_
  exact Leads.bind (h.expireIfDue key e.1).discard fun _ =>
    (h.store rfl hk (he e hm).1 (he e hm).2).discard

theorem setFieldsChecked {updates : List FieldUpdate} (hk : p key)
    (hu : ∀ u ∈ updates, p u.field ∧ p u.value) : Leads R (s.setFieldsChecked key updates) := by
  refine Leads.bind (leads_checkType key) fun _ => Leads.bind (h.sweep key) fun _ =>
    Leads.bind (Leads.forM fun u _ => h.checkVersion key u) fun _ => Leads.forM fun u hm => ?_
  exact (h.store rfl hk (hu u hm).1 (hu u hm).2).discard

/-- A write that is not malformed in itself leads where the writes that a live record decides do. -/
theorem write {wr : FieldWrite α} (hn : HasNumerals p) (hw : ∀ a ∈ wr.texts, p a)
    (hv : wr.validate = .ok ()) : Leads R (wr.action s) := by
  cases wr with
  | set key field value rule =>
    simp only [FieldWrite.texts, List.mem_cons, List.not_mem_nil, forall_eq_or_imp] at hw
    exact h.setField (VersionPolicy.isMalformed_of_validate hv) hw.1 hw.2.1 hw.2.2.1
  | setAll key entries =>
    refine h.setFields (hw key (.head _)) fun e he => ⟨hw _ (.tail _ ?_), hw _ (.tail _ ?_)⟩
      <;> exact List.mem_flatMap.mpr ⟨e, he, by simp⟩
  | setAllChecked key updates =>
    refine h.setFieldsChecked (hw key (.head _)) fun u hu => ⟨hw _ (.tail _ ?_), hw _ (.tail _ ?_)⟩
      <;> exact List.mem_flatMap.mpr ⟨u, hu, by simp⟩
  | incrBy key field delta bounds version ttl =>
    obtain ⟨_, hm, hb⟩ := ok_of_bind hv
    simp only [FieldWrite.texts, List.mem_cons, List.not_mem_nil, forall_eq_or_imp] at hw
    refine Leads.bind (h.prepare key field) fun _ =>
      h.decided (Scope.addInt_decides key field delta bounds version ttl s.now)
        (Scope.addIntPlan_stores (VersionPolicy.isMalformed_of_validate hm) hb) hw.1 hw.2.1 ?_
    rintro _ ⟨sum, hfit, rfl⟩
    exact hn.int sum hfit
  | incrByFloat key field delta bounds version ttl =>
    obtain ⟨_, hm, hv⟩ := ok_of_bind hv
    obtain ⟨_, hb, -⟩ := ok_of_bind hv
    simp only [FieldWrite.texts, List.mem_cons, List.not_mem_nil, forall_eq_or_imp] at hw
    refine Leads.bind (h.prepare key field) fun _ =>
      h.decided (Scope.addFloat_decides key field delta bounds version ttl s.now)
        (Scope.addFloatPlan_stores (VersionPolicy.isMalformed_of_validate hm) hb) hw.1 hw.2.1 ?_
    rintro _ ⟨sum, rfl⟩
    exact hn.float sum
  | setVersion key field version =>
    have hne : version ≠ 0 := by
      rintro rfl
      cases hv
    simp only [FieldWrite.texts, List.mem_cons, List.not_mem_nil, forall_eq_or_imp] at hw
    exact Leads.bind (leads_checkType key) fun _ => Leads.bind (h.sweep key) fun _ =>
      h.unlessDue key field false (h.decided (Scope.amendVersion_decides key field hne s.now)
        Scope.amendVersionPlan_stores hw.1 hw.2.1 nofun)
  | setExpiry key field time version =>
    have hm := VersionPolicy.isMalformed_of_validate hv
    simp only [FieldWrite.texts, List.mem_cons, List.not_mem_nil, forall_eq_or_imp] at hw
    exact h.unlessDue key field false (h.decided (Scope.amendExpiry_decides key field time hm s.now)
      (Scope.amendExpiryPlan_stores hm) hw.1 hw.2.1 nofun)
  | persist key field =>
    simp only [FieldWrite.texts, List.mem_cons, List.not_mem_nil, forall_eq_or_imp] at hw
    exact h.unlessDue key field false (h.decided (Scope.dropExpiry_decides key field s.now)
      Scope.dropExpiryPlan_stores hw.1 hw.2.1 nofun)

end WritingLeads

end ExpiringHash
