import ExpiringHash.Proofs.Fields.Consistency

/-!
# What a write to fields can do

A write looks at nothing but the live record of its field: by that record alone it is refused, leaves
the fields as they are, or stores one record whole. What it reports is the record stored and the
shift of its expiry.
-/
namespace ExpiringHash

theorem ok_of_bind {ε α β : Type} {x : Except ε α} {k : α → Except ε β} {b : β}
    (h : x >>= k = .ok b) : ∃ a, x = .ok a ∧ k a = .ok b := by
  cases x with
  | error e => cases h
  | ok a => exact ⟨a, rfl, h⟩

theorem ok_of_map {ε α β : Type} {x : Except ε α} {f : α → β} {b : β} (h : x.map f = .ok b) :
    ∃ a, x = .ok a ∧ f a = b := by
  cases x with
  | error e => cases h
  | ok a => exact ⟨a, rfl, Except.ok.inj h⟩

theorem VersionPolicy.isMalformed_of_validate {v : VersionPolicy}
    (h : discard v.validate = .ok ()) : v.isMalformed = false := by
  unfold VersionPolicy.validate at h
  cases hm : v.isMalformed with
  | false => rfl
  | true =>
    rw [hm] at h
    cases h

namespace Fields

variable {f g : Fields} {field : Bytes} {now : UInt64} {r : Record}

theorem live?_eq_some_iff :
    f.live? field now = some r ↔ f.get? field = some r ∧ r.isExpired now = false := by
  simp [live?, Option.filter_eq_some_iff]

theorem get?_of_live? (h : f.live? field now = some r) : f.get? field = some r :=
  (live?_eq_some_iff.mp h).1

/-- Stores a record whole and reports it. -/
def stored (f : Fields) (field : Bytes) (created : Bool) (r : Record) : Written × Fields :=
  ({ created, version := r.version, expireAt := r.expireAt, shift := (f.put field r).1 },
    (f.put field r).2)

/-- The record that a write commits over the live record `current`. -/
def committed (value : Bytes) (policy : VersionPolicy) (ttl : TtlUpdate) (current : Option Record)
    (now : UInt64) : Record :=
  ⟨value, policy.successor ((current.map (·.version)).getD 0),
    ttl.resolve ((current.map (·.expireAt)).getD 0) now⟩

/-- The record that a conditional write stores over what is live, or none. -/
def setPlan (value : Bytes) (rule : WriteRule) (now : UInt64) (current : Option Record) :
    Except HashError (Option Record) := do
  let policy ← rule.version.validate
  if rule.condition.allows current.isSome then
    policy.check (current.map (·.version))
    return some (committed value policy rule.ttl current now)
  else return none

theorem value_of_setPlan {value : Bytes} {rule : WriteRule} {current : Option Record}
    (h : setPlan value rule now current = .ok (some r)) : r.value = value := by
  obtain ⟨p, -, h⟩ := ok_of_bind h
  split at h
  · obtain ⟨-, -, h⟩ := ok_of_bind h
    cases h
    rfl
  · cases h

theorem set_eq (f : Fields) (field value : Bytes) (rule : WriteRule) (now : UInt64) :
    f.set field value rule now = (setPlan value rule now (f.live? field now)).map fun
      | none => (none, f)
      | some r => (some (f.stored field (f.live? field now).isNone r).1, (f.put field r).2) := by
  unfold set setPlan
  cases rule.version.validate with
  | error e => rfl
  | ok p =>
    simp only [bind, Except.bind]
    split
    · cases p.check ((f.live? field now).map (·.version)) <;> rfl
    · rfl

/-- What a sum starts from. -/
def summand {α : Type} (read : Bytes → Except HashError α) (zero : α) :
    Option Record → Except HashError α
  | some record => read record.value
  | none => pure zero

/-- The sum that is stored over what is live if it fits, with its record. -/
def sumPlan {α : Type} [Add α] (read : Bytes → Except HashError α) (zero delta : α)
    (fits : α → Bool) (text : α → Bytes) (policy : VersionPolicy) (ttl : TtlUpdate) (now : UInt64)
    (current : Option Record) : Except HashError (α × Record) := do
  let base ← summand read zero current
  policy.check (current.map (·.version))
  if fits (base + delta) then
    return (base + delta, committed (text (base + delta)) policy ttl current now)
  else throw .overflow

section Sum

variable {α β : Type} [Add α] {read : Bytes → Except HashError α} {zero delta : α}
  {fits : α → Bool} {text : α → Bytes} {policy : VersionPolicy} {ttl : TtlUpdate}
  {current : Option Record}

theorem value_of_sumPlan {sum : α}
    (h : sumPlan read zero delta fits text policy ttl now current = .ok (sum, r)) :
    r.value = text sum ∧ fits sum = true := by
  obtain ⟨base, -, h⟩ := ok_of_bind h
  obtain ⟨-, -, h⟩ := ok_of_bind h
  split at h
  · next hfits =>
    cases h
    exact ⟨rfl, hfits⟩
  · cases h

variable (read zero delta fits text) in
theorem sum_eq (f : Fields) (field : Bytes) (answer : α → β) (policy : VersionPolicy)
    (ttl : TtlUpdate) (now : UInt64) (current : Option Record) :
    (do
      let base ← summand read zero current
      policy.check (current.map (·.version))
      if fits (base + delta) then
        return ((answer (base + delta),
          (f.commit field (text (base + delta)) policy ttl current now).1),
          (f.commit field (text (base + delta)) policy ttl current now).2)
      else throw .overflow) =
      (sumPlan read zero delta fits text policy ttl now current).map fun x =>
        ((answer x.1, (f.stored field current.isNone x.2).1), (f.put field x.2).2) := by
  unfold sumPlan
  simp only [bind, Except.bind]
  cases summand read zero current with
  | error e => rfl
  | ok base =>
    dsimp only
    cases policy.check (current.map (·.version)) with
    | error e => rfl
    | ok =>
      dsimp only
      split <;> rfl

end Sum

/-- The sum of integers that is stored over what is live, with its record. -/
def incrByPlan (delta : Int) (bounds : Bounds Int) (version : VersionPolicy) (ttl : TtlUpdate)
    (now : UInt64) (current : Option Record) : Except HashError (Int × Record) := do
  let policy ← version.validate
  bounds.validate
  sumPlan readInt 0 delta (fun sum => Numeral.fitsInt64 sum && bounds.holds sum) Numeral.ofInt
    policy ttl now current

theorem value_of_incrByPlan {delta sum : Int} {bounds : Bounds Int} {version : VersionPolicy}
    {ttl : TtlUpdate} {current : Option Record}
    (h : incrByPlan delta bounds version ttl now current = .ok (sum, r)) :
    r.value = Numeral.ofInt sum ∧ Numeral.fitsInt64 sum = true := by
  obtain ⟨p, -, h⟩ := ok_of_bind h
  obtain ⟨-, -, h⟩ := ok_of_bind h
  obtain ⟨hvalue, hfits⟩ := value_of_sumPlan h
  exact ⟨hvalue, (Bool.and_eq_true_iff.mp hfits).1⟩

theorem incrBy_eq (f : Fields) (field : Bytes) (delta : Int) (bounds : Bounds Int)
    (version : VersionPolicy) (ttl : TtlUpdate) (now : UInt64) :
    f.incrBy field delta bounds version ttl now =
      (incrByPlan delta bounds version ttl now (f.live? field now)).map fun x =>
        ((x.1, (f.stored field (f.live? field now).isNone x.2).1), (f.put field x.2).2) := by
  unfold incrBy incrByPlan
  cases version.validate with
  | error e => rfl
  | ok p =>
    cases bounds.validate with
    | error e => rfl
    | ok =>
      have hsum := sum_eq readInt 0 delta (fun sum => Numeral.fitsInt64 sum && bounds.holds sum)
        Numeral.ofInt f field id p ttl now
      cases f.live? field now with
      | none => exact hsum none
      | some record => exact hsum (some record)

/-- The sum of floating-point numbers that is stored over what is live, with its record. -/
def incrByFloatPlan (delta : Float) (bounds : Bounds Float) (version : VersionPolicy)
    (ttl : TtlUpdate) (now : UInt64) (current : Option Record) :
    Except HashError (Float × Record) := do
  let policy ← version.validate
  if !delta.isFinite then throw .notFloat
  bounds.validate
  sumPlan readFloat 0 delta (fun sum => sum.isFinite && bounds.holds sum) FloatText.ofFloat
    policy ttl now current

theorem value_of_incrByFloatPlan {delta sum : Float} {bounds : Bounds Float}
    {version : VersionPolicy} {ttl : TtlUpdate} {current : Option Record}
    (h : incrByFloatPlan delta bounds version ttl now current = .ok (sum, r)) :
    r.value = FloatText.ofFloat sum := by
  obtain ⟨p, -, h⟩ := ok_of_bind h
  split at h
  · cases h
  · obtain ⟨-, -, h⟩ := ok_of_bind h
    exact (value_of_sumPlan h).1

theorem incrByFloat_eq (f : Fields) (field : Bytes) (delta : Float) (bounds : Bounds Float)
    (version : VersionPolicy) (ttl : TtlUpdate) (now : UInt64) :
    f.incrByFloat field delta bounds version ttl now =
      (incrByFloatPlan delta bounds version ttl now (f.live? field now)).map fun x =>
        ((FloatText.ofFloat x.1, (f.stored field (f.live? field now).isNone x.2).1),
          (f.put field x.2).2) := by
  unfold incrByFloat incrByFloatPlan
  cases version.validate with
  | error e => rfl
  | ok p =>
    simp only [bind, Except.bind]
    split
    · rfl
    · cases bounds.validate with
      | error e => rfl
      | ok =>
        have hsum := sum_eq readFloat 0 delta (fun sum => sum.isFinite && bounds.holds sum)
          FloatText.ofFloat f field FloatText.ofFloat p ttl now
        cases f.live? field now with
        | none => exact hsum none
        | some record => exact hsum (some record)

/-- The record that a change of expiry stores over a live one, whose value stays. -/
def setExpiryPlan (time : ExpireTime) (version : VersionPolicy) (now : UInt64)
    (current : Option Record) : Except HashError (Option Record) := do
  let policy ← version.validate
  match current with
  | none => return none
  | some old =>
    policy.check (some old.version)
    return some ⟨old.value, policy.successor old.version, time.resolve now⟩

theorem setExpiryPlan_none {version : VersionPolicy} (hv : version.isMalformed = false)
    (time : ExpireTime) (now : UInt64) : setExpiryPlan time version now none = .ok none := by
  simp only [setExpiryPlan, VersionPolicy.validate, hv]
  rfl

theorem of_setExpiryPlan {time : ExpireTime} {version : VersionPolicy} {current : Option Record}
    (h : setExpiryPlan time version now current = .ok (some r)) :
    ∃ old, current = some old ∧ r = ⟨old.value, r.version, r.expireAt⟩ := by
  obtain ⟨p, -, h⟩ := ok_of_bind h
  cases current with
  | none => cases h
  | some old =>
    obtain ⟨-, -, h⟩ := ok_of_bind h
    cases h
    exact ⟨old, rfl, rfl⟩

theorem setExpiry_eq (f : Fields) (field : Bytes) (time : ExpireTime) (version : VersionPolicy)
    (now : UInt64) :
    f.setExpiry field time version now =
      (setExpiryPlan time version now (f.live? field now)).map fun
        | none => (none, f)
        | some r => (some (f.stored field false r).1, (f.put field r).2) := by
  unfold setExpiry setExpiryPlan
  cases version.validate with
  | error e => rfl
  | ok p =>
    cases f.live? field now with
    | none => rfl
    | some old =>
      simp only [bind, Except.bind]
      cases p.check (some old.version) <;> rfl

/-- Only a live record that expires has an expiry to take off. -/
theorem persist_eq (f : Fields) (field : Bytes) (now : UInt64) :
    f.persist field now = match (f.live? field now).filter (·.hasTtl) with
      | none => (none, f)
      | some r =>
        (some (f.put field { r with expireAt := 0 }).1, (f.put field { r with expireAt := 0 }).2) := by
  unfold persist
  cases hl : f.live? field now with
  | none => rfl
  | some r =>
    rw [Option.any_some, Option.filter_some]
    cases r.hasTtl with
    | false => rfl
    | true =>
      simp only [if_true]
      rw [putExpiry, update_of_get? _ (get?_of_live? hl)]

/-- A new version is stored over a live record, which keeps its value and its expiry. -/
theorem setVersion_eq (hf : f.Consistent) (field : Bytes) (version now : UInt64) :
    f.setVersion field version now =
      if version = 0 then .error .badOption
      else match f.live? field now with
        | none => .ok (false, f)
        | some r => .ok (true, (f.put field { r with version }).2) := by
  unfold setVersion
  split
  · rfl
  · cases hl : f.live? field now with
    | none => rfl
    | some r =>
      dsimp only
      rw [hf.put_of_expireAt_eq (get?_of_live? hl)]
      rfl

/-- Whether a delete takes the live record out. -/
def deletePlan (version : VersionPolicy) (current : Option Record) : Except HashError Bool := do
  let policy ← version.validate
  match current with
  | none => return false
  | some old =>
    policy.check (some old.version)
    return true

theorem deletePlan_none {version : VersionPolicy} (hv : version.isMalformed = false) :
    deletePlan version none = .ok false := by
  simp only [deletePlan, VersionPolicy.validate, hv]
  rfl

theorem live_of_deletePlan {version : VersionPolicy} {current : Option Record}
    (h : deletePlan version current = .ok true) : ∃ old, current = some old := by
  obtain ⟨p, -, h⟩ := ok_of_bind h
  cases current with
  | none => cases h
  | some old => exact ⟨old, rfl⟩

theorem delete_eq (f : Fields) (field : Bytes) (version : VersionPolicy) (now : UInt64) :
    f.delete field version now = (deletePlan version (f.live? field now)).map fun
      | false => (none, f)
      | true => f.remove field := by
  unfold delete deletePlan
  cases version.validate with
  | error e => rfl
  | ok p =>
    cases f.live? field now with
    | none => rfl
    | some old =>
      simp only [bind, Except.bind]
      cases p.check (some old.version) <;> rfl

end Fields
end ExpiringHash
