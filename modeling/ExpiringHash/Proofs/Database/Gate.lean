import ExpiringHash.Proofs.Database.Overwrites

/-!
# One gate for all writes

Writes and deletes look at whether their policy is well-formed, at the version of the live record and at
what comes after it in places of their own, and at other things in between. Whatever these are, what is
done leaves the version that the policy gives when it is applied in one step, and what is refused for
its version the policy refuses then.
-/
namespace ExpiringHash

open DatabaseM

namespace VersionPolicy

variable {α β : Type} {p : VersionPolicy} {current : Option UInt64} {done : α → Prop}
  {leaves : α → UInt64 → Prop}

/-- A decision agrees with a policy that is applied to the current version. -/
structure Gates (p : VersionPolicy) (current : Option UInt64) (done : α → Prop)
    (leaves : α → UInt64 → Prop) (x : Except HashError α) : Prop where
  passes : ∀ {a}, x = .ok a → done a → ∃ v, p.apply current = .ok v ∧ leaves a v
  refuses : x = .error .versionConflict → p.apply current = .error .versionConflict

theorem isMalformed_of_zero (h : p = .absolute 0 ∨ p = .greater 0) : p.isMalformed = true := by
  rcases h with rfl | rfl <;> rfl

theorem validate_of_isMalformed (hm : p.isMalformed = true) :
    discard p.validate = .error .badOption := by
  rw [validate, hm]
  rfl

theorem apply_of_wellFormed (hm : p.isMalformed = false) (current : Option UInt64) :
    p.apply current = (p.check current).map fun _ => p.successor (current.getD 0) := by
  rw [apply, validate_of_wellFormed hm]
  change (p.check current >>= fun _ => _) = _
  cases p.check current <;> rfl

/-- Only a field that is present is refused for its version. -/
theorem exists_of_conflict (h : p.apply current = .error .versionConflict) :
    ∃ v, current = some v := by
  cases current with
  | some v => exact ⟨v, rfl⟩
  | none =>
    rw [apply, validate] at h
    cases hm : p.isMalformed <;> rw [hm] at h <;> cases h

/-- A greater version takes the place of smaller ones only. -/
theorem lt_of_apply_greater {v v' c : UInt64} (h : (greater v).apply (some c) = .ok v') : c < v' := by
  obtain ⟨-, haccepts, rfl⟩ := apply_eq_ok_iff.mp h
  exact of_decide_eq_true haccepts

namespace Gates

/-- What is refused for something else than its version does not go through the gate. -/
theorem refused {err : HashError} (h : err ≠ .versionConflict) :
    p.Gates current done leaves (.error err) where
  passes he := by cases he
  refuses he := absurd (Except.error.inj he) h

/-- A malformed policy is refused for that. -/
theorem after_validate {k : VersionPolicy → Except HashError α}
    (h : p.isMalformed = false → p.Gates current done leaves (k p)) :
    p.Gates current done leaves (p.validate >>= k) := by
  unfold validate
  cases hm : p.isMalformed with
  | true => exact .refused (by decide)
  | false => exact h hm

/-- What is looked at besides the version may be refused, but not for the version. -/
theorem after {x : Except HashError β} {k : β → Except HashError α}
    (hx : x ≠ .error .versionConflict) (hk : ∀ b, p.Gates current done leaves (k b)) :
    p.Gates current done leaves (x >>= k) := by
  cases x with
  | error err => exact .refused fun h => hx (congrArg Except.error h)
  | ok b => exact hk b

/-- What comes after the check leaves the version that the policy gives. -/
theorem check {k : Except HashError α} (hm : p.isMalformed = false)
    (hk : ∀ {a}, k = .ok a → leaves a (p.successor (current.getD 0)))
    (hne : k ≠ .error .versionConflict) :
    p.Gates current done leaves (p.check current >>= fun _ => k) := by
  have happly := apply_of_wellFormed hm current
  cases hc : p.check current with
  | ok =>
    rw [hc] at happly
    exact ⟨fun h _ => ⟨_, happly, hk h⟩, fun h => absurd h hne⟩
  | error err =>
    rw [hc] at happly
    obtain rfl := error_of_check hc
    exact ⟨nofun, fun _ => happly⟩

/-- A decision to do nothing does not go through the gate. -/
theorem idle {a : α} (h : ¬done a) : p.Gates current done leaves (.ok a) :=
  ⟨fun he hd => absurd (Except.ok.inj he ▸ hd) h, nofun⟩

theorem map {x : Except HashError α} {f : α → β} {done' : β → Prop} {leaves' : β → UInt64 → Prop}
    (h : p.Gates current done leaves x) (hdone : ∀ a, done' (f a) → done a)
    (hleaves : ∀ a v, leaves a v → leaves' (f a) v) :
    p.Gates current done' leaves' (x.map f) := by
  refine ⟨fun he hd => ?_, fun he => h.refuses (error_of_map he)⟩
  obtain ⟨a, hx, rfl⟩ := ok_of_map he
  obtain ⟨v, happly, hv⟩ := h.passes hx (hdone a hd)
  exact ⟨v, happly, hleaves a v hv⟩

end Gates

end VersionPolicy

section Plans

variable {current : Option Record} {version : VersionPolicy} {ttl : TtlUpdate} {now : UInt64}
  {key field : Bytes}

namespace Fields

/-- The version that is stored, if a record is. -/
def Leaves (r : Option Record) (v : UInt64) : Prop := ∃ r', r = some r' ∧ r'.version = v

theorem setPlan_gates (value : Bytes) (rule : WriteRule) (now : UInt64) (current : Option Record) :
    rule.version.Gates (current.map (·.version)) (·.isSome = true) Leaves
      (setPlan value rule now current) := by
  refine .after_validate fun hm => ?_
  split
  · refine .check hm (fun h => ?_) nofun
    cases h
    exact ⟨_, rfl, rfl⟩
  · exact .idle nofun

/-- A sum looks at its summand before the version, and at whether it fits after that. -/
theorem sumPlan_gates {α : Type} [Add α] {read : Bytes → Except HashError α} (zero delta : α)
    (fits : α → Bool) (text : α → Bytes) (hm : version.isMalformed = false)
    (hread : ∀ value, read value ≠ .error .versionConflict) :
    version.Gates (current.map (·.version)) (fun _ => True) (fun out v => out.2.version = v)
      (sumPlan read zero delta fits text version ttl now current) := by
  refine .after ?_ fun base => .check hm (fun h => ?_) ?_
  · cases current with
    | none => exact nofun
    | some r => exact hread r.value
  · split at h
    · cases h
      rfl
    · cases h
  · split <;> exact nofun

theorem incrByPlan_gates (delta : Int) (bounds : Bounds Int) (version : VersionPolicy)
    (ttl : TtlUpdate) (now : UInt64) (current : Option Record) :
    version.Gates (current.map (·.version)) (fun _ => True) (fun out v => out.2.version = v)
      (incrByPlan delta bounds version ttl now current) := by
  refine .after_validate fun hm => .after (fun h => ?_) fun _ =>
    sumPlan_gates 0 delta _ _ hm fun value => ?_
  · cases Bounds.error_of_validate h
  · unfold readInt
    split <;> exact nofun

theorem incrByFloatPlan_gates (delta : Float) (bounds : Bounds Float) (version : VersionPolicy)
    (ttl : TtlUpdate) (now : UInt64) (current : Option Record) :
    version.Gates (current.map (·.version)) (fun _ => True) (fun out v => out.2.version = v)
      (incrByFloatPlan delta bounds version ttl now current) := by
  refine .after_validate fun hm => ?_
  split
  · exact .refused (by decide)
  · refine .after (fun h => ?_) fun _ => sumPlan_gates 0 delta _ _ hm fun value h => ?_
    · cases Bounds.error_of_validate h
    · unfold readFloat at h
      split at h
      · split at h <;> cases h
      · cases h

theorem setExpiryPlan_gates (time : ExpireTime) (version : VersionPolicy) (now : UInt64)
    (current : Option Record) :
    version.Gates (current.map (·.version)) (·.isSome = true) Leaves
      (setExpiryPlan time version now current) := by
  refine .after_validate fun hm => ?_
  cases current with
  | none => exact .idle nofun
  | some old =>
    refine .check hm (fun h => ?_) nofun
    cases h
    exact ⟨_, rfl, rfl⟩

theorem deletePlan_gates (version : VersionPolicy) (current : Option Record) :
    version.Gates (current.map (·.version)) (· = true) (fun _ _ => True)
      (deletePlan version current) := by
  refine .after_validate fun hm => ?_
  cases current with
  | none => exact .idle nofun
  | some old => exact .check hm (fun _ => trivial) nofun

end Fields

/-- The command that tells of a version, if one does. -/
def Tells {β : Type} (key field : Bytes) (out : β × Option Command) (v : UInt64) : Prop :=
  ∃ c, out.2 = some c ∧ c.version? key field = some v

namespace Scope

theorem storePlan_gates (key field value : Bytes) (rule : WriteRule) (now : UInt64)
    (current : Option Record) :
    rule.version.Gates (current.map (·.version)) (·.1.isSome = true) (Tells key field)
      (storePlan key field value rule now current) := by
  refine (Fields.setPlan_gates value rule now current).map (fun r? => ?_) ?_
  · cases r? with
    | none => exact nofun
    | some r => exact fun _ => rfl
  · rintro _ v ⟨r, rfl, rfl⟩
    exact ⟨_, rfl, if_pos ⟨rfl, rfl⟩⟩

theorem addIntPlan_gates (key field : Bytes) (delta : Int) (bounds : Bounds Int)
    (version : VersionPolicy) (ttl : TtlUpdate) (now : UInt64) (current : Option Record) :
    version.Gates (current.map (·.version)) (fun _ => True) (Tells key field)
      (addIntPlan key field delta bounds version ttl now current) := by
  refine (Fields.incrByPlan_gates delta bounds version ttl now current).map (fun _ => id) ?_
  rintro out v rfl
  exact ⟨_, rfl, if_pos ⟨rfl, rfl⟩⟩

theorem addFloatPlan_gates (key field : Bytes) (delta : Float) (bounds : Bounds Float)
    (version : VersionPolicy) (ttl : TtlUpdate) (now : UInt64) (current : Option Record) :
    version.Gates (current.map (·.version)) (fun _ => True) (Tells key field)
      (addFloatPlan key field delta bounds version ttl now current) := by
  refine (Fields.incrByFloatPlan_gates delta bounds version ttl now current).map (fun _ => id) ?_
  rintro out v rfl
  exact ⟨_, rfl, if_pos ⟨rfl, rfl⟩⟩

theorem amendExpiryPlan_gates (key field : Bytes) (time : ExpireTime) (version : VersionPolicy)
    (now : UInt64) (current : Option Record) :
    version.Gates (current.map (·.version)) (·.1 = true) (Tells key field)
      (amendExpiryPlan key field time version now current) := by
  refine (Fields.setExpiryPlan_gates time version now current).map (fun r? => ?_) ?_
  · cases r? with
    | none => exact nofun
    | some r => exact fun _ => rfl
  · rintro _ v ⟨r, rfl, rfl⟩
    exact ⟨_, rfl, if_pos ⟨rfl, rfl⟩⟩

theorem deleteLivePlan_gates (key field : Bytes) (version : VersionPolicy)
    (current : Option Record) :
    version.Gates (current.map (·.version)) (·.1 = true) (fun _ _ => True)
      (deleteLivePlan key field version current) :=
  (Fields.deletePlan_gates version current).map (fun _ => id) fun _ _ => id

end Scope

end Plans

/-- The write goes through the gate of a policy on a field. -/
def FieldWrite.Gated {α : Type} (key field : Bytes) (p : VersionPolicy) : FieldWrite α → Prop
  | .set k f _ rule => k = key ∧ f = field ∧ rule.version = p
  | .incrBy k f _ _ version _ => k = key ∧ f = field ∧ version = p
  | .incrByFloat k f _ _ version _ => k = key ∧ f = field ∧ version = p
  | .setExpiry k f _ version => k = key ∧ f = field ∧ version = p
  | .setAll .. | .setAllChecked .. | .setVersion .. | .persist .. => False

/-- The delete goes through the gate of a policy on a field. -/
def FieldDelete.Gated {α : Type} (key field : Bytes) (p : VersionPolicy) : FieldDelete α → Prop
  | .one k f version => k = key ∧ f = field ∧ version = p
  | .all .. | .allChecked .. => False

section Options

variable {α : Type} {key field : Bytes} {p : VersionPolicy} {wr : FieldWrite α}

theorem FieldWrite.validate_of_isMalformed (hg : wr.Gated key field p)
    (hm : p.isMalformed = true) : wr.validate = .error .badOption := by
  have hbad := VersionPolicy.validate_of_isMalformed hm
  cases wr with
  | set =>
    obtain ⟨-, -, rfl⟩ := hg
    exact hbad
  | incrBy =>
    obtain ⟨-, -, rfl⟩ := hg
    rw [validate, hbad]
    rfl
  | incrByFloat =>
    obtain ⟨-, -, rfl⟩ := hg
    rw [validate, hbad]
    rfl
  | setExpiry =>
    obtain ⟨-, -, rfl⟩ := hg
    exact hbad
  | _ => cases hg

/-- Options that are malformed in themselves are not refused for a version. -/
theorem FieldWrite.validate_ne_conflict (hg : wr.Gated key field p) :
    wr.validate ≠ .error .versionConflict := by
  intro h
  cases wr with
  | set => cases VersionPolicy.error_of_validate h
  | setExpiry => cases VersionPolicy.error_of_validate h
  | incrBy =>
    rcases error_of_bind h with h | ⟨_, _, h⟩
    · cases VersionPolicy.error_of_validate h
    · cases Bounds.error_of_validate h
  | incrByFloat =>
    rcases error_of_bind h with h | ⟨_, _, h⟩
    · cases VersionPolicy.error_of_validate h
    · rcases error_of_bind h with h | ⟨_, _, h⟩
      · cases Bounds.error_of_validate h
      · split at h <;> cases h
  | _ => cases hg

theorem FieldWrite.key_of_gated (hg : wr.Gated key field p) : wr.key = key := by
  cases wr with
  | setAll => cases hg
  | setAllChecked => cases hg
  | setVersion => cases hg
  | persist => cases hg
  | _ => exact hg.1

end Options

/-- What a command says that tells of a version stored in a field. -/
theorem Command.of_version? {key field : Bytes} {c : Command} {v : UInt64}
    (h : c.version? key field = some v) :
    c.event = .stored c ∧ c.key = key ∧ c.field? = some field ∧ c.isVersioned = true ∧
      ∀ {current r}, c.outcome current = some r → r.version = v := by
  cases c with
  | set k f value version expiry =>
    obtain ⟨⟨rfl, rfl⟩, hv⟩ := (Option.ite_none_right_eq_some ..).mp h
    cases hv
    refine ⟨rfl, rfl, rfl, rfl, fun hr => ?_⟩
    cases hr
    rfl
  | expireAt k f expiry version =>
    obtain ⟨⟨rfl, rfl⟩, hv⟩ := (Option.ite_none_right_eq_some ..).mp h
    cases hv
    refine ⟨rfl, rfl, rfl, rfl, fun hr => ?_⟩
    obtain ⟨old, -, rfl⟩ := Option.map_eq_some_iff.mp hr
    rfl
  | delete => cases h
  | persist => cases h
  | setVersion => cases h
  | deleteKey => cases h

section Actions

variable {α β : Type} {s : Scope} {key field : Bytes} {w w' : Work} {p : VersionPolicy}
  {done : α → Prop} {left : Work → UInt64 → Work → Prop}

/-- A record of a version is stored in a field and told of by one command. -/
def Work.Stores (now : UInt64) (key field : Bytes) (w : Work) (v : UInt64) (w' : Work) : Prop :=
  ∃ c : Command, c.version? key field = some v ∧ w.Logs now [c.event] w'

/-- How an action ends that agrees with a policy applied to the version of the live record: all that it
may do before it leaves something is to reclaim expired fields. -/
inductive Guarded (s : Scope) (key field : Bytes) (p : VersionPolicy) (done : α → Prop)
    (left : Work → UInt64 → Work → Prop) (w : Work) : EStateM.Result HashError Work α → Prop
  | ok {a : α} {w' : Work}
      (h : done a → ∃ v w₁, p.apply (((w.fieldsAt key).live? field s.now).map (·.version)) = .ok v ∧
        w.Swept s.now key w₁ ∧ left w₁ v w') :
      Guarded s key field p done left w (.ok a w')
  | error {err : HashError} {w' : Work}
      (h : err = .versionConflict →
        p.apply (((w.fieldsAt key).live? field s.now).map (·.version)) = .error .versionConflict) :
      Guarded s key field p done left w (.error err w')

/-- From tidy keys, under a key that holds no value of another type, the action ends so. -/
def Guards (s : Scope) (key field : Bytes) (p : VersionPolicy) (done : α → Prop)
    (left : Work → UInt64 → Work → Prop) (x : DatabaseM α) : Prop :=
  ∀ w : Work, w.database.keys.Tidy → w.database.keys.Open key →
    Guarded s key field p done left w (x.run w)

/-- Expired fields that were reclaimed before have made no difference. -/
theorem Guarded.of_swept {w₁ : Work} {res : EStateM.Result HashError Work α}
    (hswept : w.Swept s.now key w₁) (h : Guarded s key field p done left w₁ res) :
    Guarded s key field p done left w res := by
  cases h with
  | ok h =>
    rw [hswept.live?_eq] at h
    refine .ok fun hd => ?_
    obtain ⟨v, w₂, happly, hswept', hleft⟩ := h hd
    exact ⟨v, w₂, happly, hswept.trans hswept', hleft⟩
  | error h =>
    rw [hswept.live?_eq] at h
    exact .error h

namespace Guards

/-- What does nothing but reclaim expired fields may come first. -/
theorem after {x : DatabaseM β} {k : β → DatabaseM α}
    (hx : Manages s.now key (fun _ => false) (fun _ => 0) x)
    (hk : ∀ b, Guards s key field p done left (k b)) :
    Guards s key field p done left (x >>= k) := by
  intro w ht ho
  obtain ⟨b, w₁, hrun, hdid⟩ := hx w ht ho
  rw [EStateM.run_bind, hrun]
  exact .of_swept hdid.swept (hk b w₁ (hdid.tidy ht) (hdid.opens ho))

/-- What follows and changes nothing may give another answer. -/
theorem bind {x : DatabaseM α} {k : α → DatabaseM β} {done' : β → Prop}
    (hx : Guards s key field p done left x)
    (hk : ∀ a w, ∃ b, (k a).run w = .ok b w ∧ (done' b → done a)) :
    Guards s key field p done' left (x >>= k) := by
  intro w ht ho
  have h := hx w ht ho
  rw [EStateM.run_bind]
  revert h
  generalize x.run w = res
  intro h
  cases h with
  | error h => exact .error h
  | @ok a w' h =>
    obtain ⟨b, hrun, hdone⟩ := hk a w'
    dsimp only
    rw [hrun]
    exact .ok fun hd => h (hdone hd)

/-- What is decided by the live record ends as the decision does. -/
theorem of_decides {x : Scope → DatabaseM α} {text : Bytes → Prop} {shown : α → β}
    {plan : Option Record → Except HashError (β × Option Command)}
    {leaves : β × Option Command → UInt64 → Prop} (decided : β → Prop)
    (h : Decides x key field s.now text shown plan)
    (hplan : ∀ current : Option Record,
      p.Gates (current.map (·.version)) (fun out => decided out.1) leaves (plan current))
    (hdone : ∀ a, done a → decided (shown a))
    (hleft : ∀ {w out v w'}, leaves out v → (∀ c, out.2 = some c → w.Logs s.now [c.event] w') →
      left w v w') :
    Guards s key field p done left (x s) := by
  intro w ht ho
  have hdoes := h.run s w rfl ht ho
  have hgates := hplan ((w.fieldsAt key).live? field s.now)
  cases hp : plan ((w.fieldsAt key).live? field s.now) with
  | error err =>
    rw [hp] at hdoes hgates
    change (x s).run w = _ at hdoes
    rw [hdoes]
    exact .error fun herr => hgates.refuses (congrArg Except.error herr)
  | ok out =>
    obtain ⟨b, c?⟩ := out
    rw [hp] at hdoes hgates
    cases c? with
    | none =>
      obtain ⟨a, hrun, rfl⟩ := hdoes
      rw [hrun]
      refine .ok fun hd => ?_
      obtain ⟨v, happly, hleaves⟩ := hgates.passes rfl (hdone a hd)
      exact ⟨v, w, happly, .refl w, hleft hleaves nofun⟩
    | some c =>
      obtain ⟨a, w₁, hrun, rfl, happly⟩ := hdoes
      obtain ⟨w₂, happly', hlogs⟩ := logs_apply ht ho (h.suits _ _ _ hp)
      cases happly.symm.trans happly'
      rw [hrun]
      refine .ok fun hd => ?_
      obtain ⟨v, hpasses, hleaves⟩ := hgates.passes rfl (hdone a hd)
      refine ⟨v, w, hpasses, .refl w, hleft hleaves fun c' hc' => ?_⟩
      cases hc'
      exact hlogs

/-- What is decided and told by one command stores the version that it tells. -/
theorem of_tells {x : Scope → DatabaseM α} {text : Bytes → Prop} {shown : α → β}
    {plan : Option Record → Except HashError (β × Option Command)} (decided : β → Prop)
    (h : Decides x key field s.now text shown plan)
    (hplan : ∀ current : Option Record,
      p.Gates (current.map (·.version)) (fun out => decided out.1) (Tells key field) (plan current))
    (hdone : ∀ a, done a → decided (shown a)) :
    Guards s key field p done (Work.Stores s.now key field) (x s) := by
  refine of_decides decided h hplan hdone fun ⟨c, hc, hv⟩ hlogs => ?_
  exact ⟨c, hv, hlogs c hc⟩

/-- A field that has expired is not there to be amended or deleted. -/
theorem unlessDue {x : DatabaseM Bool} {done : Bool → Prop} (hd : ¬done false)
    (hx : Guards s key field p done left x) :
    Guards s key field p done left (do if ← s.expireIfDue key field then return false else x) := by
  refine .after (Manages.expireIfDue s key field _) fun expired => ?_
  cases expired with
  | true => exact fun w _ _ => .ok fun hdone => absurd hdone hd
  | false => exact hx

end Guards

/-- A write through a policy stores the version that the policy gives, and tells of it. -/
theorem guards_write (s : Scope) {wr : FieldWrite α} (hm : p.isMalformed = false)
    (hg : wr.Gated key field p) :
    Guards s key field p (wr.Wrote key field) (Work.Stores s.now key field) (wr.action s) := by
  cases wr with
  | setAll => cases hg
  | setAllChecked => cases hg
  | setVersion => cases hg
  | persist => cases hg
  | set k f value rule =>
    obtain ⟨rfl, rfl, rfl⟩ := hg
    have hstore : Guards s k f rule.version (·.isSome = true) (Work.Stores s.now k f)
        (s.store k f value rule) :=
      .of_tells (·.isSome = true) (Scope.store_decides k f value rule s.now)
        (Scope.storePlan_gates k f value rule s.now) fun a => Option.isSome_map.trans
    refine .after (Manages.prepare s k f _) fun _ => hstore.bind fun a w => ?_
    cases a with
    | none => exact ⟨_, rfl, fun hwrote => absurd rfl hwrote.2.2⟩
    | some written => exact ⟨_, rfl, fun _ => rfl⟩
  | incrBy k f delta bounds version ttl =>
    obtain ⟨rfl, rfl, rfl⟩ := hg
    exact .after (Manages.prepare s k f _) fun _ =>
      .of_tells (fun _ => True) (Scope.addInt_decides k f delta bounds version ttl s.now)
        (Scope.addIntPlan_gates k f delta bounds version ttl s.now) fun _ _ => trivial
  | incrByFloat k f delta bounds version ttl =>
    obtain ⟨rfl, rfl, rfl⟩ := hg
    exact .after (Manages.prepare s k f _) fun _ =>
      .of_tells (fun _ => True) (Scope.addFloat_decides k f delta bounds version ttl s.now)
        (Scope.addFloatPlan_gates k f delta bounds version ttl s.now) fun _ _ => trivial
  | setExpiry k f time version =>
    obtain ⟨rfl, rfl, rfl⟩ := hg
    exact .unlessDue (fun hwrote => nomatch hwrote.2.2)
      (.of_tells (· = true) (Scope.amendExpiry_decides k f time hm s.now)
        (Scope.amendExpiryPlan_gates k f time version s.now) fun _ hwrote => hwrote.2.2)

/-- A delete deletes what the policy lets through. -/
theorem guards_deleteField (s : Scope) (key field : Bytes) (hm : p.isMalformed = false) :
    Guards s key field p (· = true) (fun _ _ _ => True) (s.deleteField key field p) := by
  have hone : Guards s key field p (· = true) (fun _ _ _ => True) (s.deleteOne key field p) :=
    .unlessDue nofun (.of_decides (· = true) (Scope.deleteLive_decides key field hm s.now)
      (Scope.deleteLivePlan_gates key field p) (fun _ => id) fun _ _ => trivial)
  refine .after (Manages.checkType s.now key _) fun _ w ht ho => ?_
  have h := hone w ht ho
  rw [EStateM.run_bind]
  rcases did_deleteOne s hm (List.mem_singleton_self field) ht ho with
    ⟨deleted, w', hrun, hdid⟩ | hrun
  · -- what is left of the container does not change the answer
    rw [hrun] at h ⊢
    dsimp only
    rw [EStateM.run_bind, run_dropEmpty s (hdid.tidy ht)]
    cases h with
    | ok h => exact .ok h
  · rw [hrun] at h ⊢
    exact h

end Actions

end ExpiringHash
