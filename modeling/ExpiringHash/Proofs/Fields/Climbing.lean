import ExpiringHash.Proofs.Fields.Outcomes

/-!
# Versions climb

A write that accepts the version of a live record and does not force another one moves it up: by one,
which wraps at 64 bits, or to a greater one. Where versions have climbed, and not once or more all the
way round, the version that was there at first is not there any more, and a write that demands it is
refused before it does anything.
-/
namespace ExpiringHash

/-- Whether the policy sets its version whatever the version was. -/
def VersionPolicy.forces : VersionPolicy → Bool
  | .absolute _ => true
  | .next | .matching _ | .greater _ => false

namespace Version

/-- A version moves up by one or to a greater one. -/
def Rises (v v' : UInt64) : Prop := v' = v + 1 ∨ v < v'

/-- How far versions climb from one to the next; from the greatest version to 0 is one up. -/
def climb : UInt64 → List UInt64 → Nat
  | _, [] => 0
  | v, v' :: vs => (v' - v).toNat + climb v' vs

/-- Versions that follow each other, each one up from the last. -/
inductive Climbs : UInt64 → List UInt64 → UInt64 → Prop
  | nil (v : UInt64) : Climbs v [] v
  | cons {v v' v'' : UInt64} {vs : List UInt64} :
      Rises v v' → Climbs v' vs v'' → Climbs v (v' :: vs) v''

variable {v v' v'' : UInt64} {vs vs' : List UInt64}

theorem Rises.ne (h : Rises v v') : v' - v ≠ 0 := by
  intro he
  have heq : v' = v := by
    rw [← UInt64.sub_add_cancel v' v, he, UInt64.zero_add]
  subst heq
  rcases h with h | h
  · exact absurd h (by simp)
  · exact UInt64.lt_irrefl _ h

/-- Versions in between two versions. -/
theorem Climbs.append (h : Climbs v vs v') (h' : Climbs v' vs' v'') : Climbs v (vs ++ vs') v'' := by
  induction h with
  | nil => exact h'
  | cons hrises _ ih => exact .cons hrises (ih h')

theorem Climbs.single (h : Rises v v') : Climbs v [v'] v' := .cons h (.nil v')

/-- The last version is as far from the first as the versions have climbed. -/
theorem Climbs.eq_add (h : Climbs v vs v') : v' = v + UInt64.ofNat (climb v vs) := by
  induction h with
  | nil v => exact (UInt64.add_zero v).symm
  | @cons v v' v'' vs _ _ ih =>
    rw [ih, climb, UInt64.ofNat_add, UInt64.ofNat_toNat, ← UInt64.add_assoc,
      UInt64.add_comm v, UInt64.sub_add_cancel]

theorem Climbs.length_le (h : Climbs v vs v') : vs.length ≤ climb v vs := by
  induction h with
  | nil => exact Nat.zero_le _
  | @cons v v' _ vs hrises _ ih =>
    have hpos : 0 < (v' - v).toNat := Nat.pos_of_ne_zero fun he =>
      hrises.ne (UInt64.toNat_inj.mp he)
    rw [List.length_cons, climb]
    omega

/-- Versions that have climbed, but not all the way round, are not back where they were. -/
theorem Climbs.ne (h : Climbs v vs v') (hvs : vs ≠ [])
    (hround : ∀ k, climb v vs ≠ (k + 1) * UInt64.size) : v' ≠ v := by
  intro he
  have hpos : 0 < climb v vs := Nat.lt_of_lt_of_le (List.length_pos_iff.mpr hvs) h.length_le
  have hzero : UInt64.ofNat (climb v vs) = 0 := by
    have heq := h.eq_add
    rw [he] at heq
    exact UInt64.left_eq_add.mp heq
  have hmod : climb v vs % UInt64.size = 0 := by
    have hnat := congrArg UInt64.toNat hzero
    rwa [UInt64.toNat_ofNat', UInt64.toNat_zero] at hnat
  obtain ⟨k, hk⟩ := Nat.dvd_of_mod_eq_zero hmod
  cases k with
  | zero => omega
  | succ k => exact hround k (hk.trans (Nat.mul_comm ..))

end Version

open Version

variable {now : UInt64} {old r : Record} {version : VersionPolicy} {v : UInt64}

theorem VersionPolicy.rises_successor (hf : version.forces = false)
    (ha : version.accepts v = true) : Rises v (version.successor v) := by
  cases version with
  | next => exact .inl rfl
  | matching => exact .inl rfl
  | absolute => cases hf
  | greater => exact .inr (of_decide_eq_true ha)

theorem VersionPolicy.accepts_of_check (h : version.check (some v) = .ok ()) :
    version.accepts v = true := by
  rw [check_some] at h
  split at h
  · assumption
  · cases h

/-- What comes after a policy was found well-formed. -/
theorem VersionPolicy.ok_after_validate {α : Type} {k : VersionPolicy → Except HashError α} {a : α}
    (h : version.validate >>= k = .ok a) : k version = .ok a := by
  unfold validate at h
  split at h
  · cases h
  · exact h

/-- What is left after a check of the version is left by a write that moves it up. -/
theorem VersionPolicy.rises_of_check {α : Type} {k : Except HashError α} {a : α}
    (hf : version.forces = false) (h : (version.check (some v) >>= fun _ => k) = .ok a) :
    Rises v (version.successor v) ∧ k = .ok a := by
  obtain ⟨_, hcheck, hk⟩ := ok_of_bind h
  exact ⟨rises_successor hf (accepts_of_check hcheck), hk⟩

namespace Fields

theorem rises_of_setPlan {value : Bytes} {rule : WriteRule} (hf : rule.version.forces = false)
    (h : setPlan value rule now (some old) = .ok (some r)) : Rises old.version r.version := by
  have hplan := VersionPolicy.ok_after_validate h
  split at hplan
  · obtain ⟨hrises, hr⟩ := VersionPolicy.rises_of_check hf hplan
    cases hr
    exact hrises
  · cases hplan

section Sum

variable {α : Type} [Add α] {read : Bytes → Except HashError α} {zero delta sum : α}
  {fits : α → Bool} {text : α → Bytes} {ttl : TtlUpdate}

theorem rises_of_sumPlan (hf : version.forces = false)
    (h : sumPlan read zero delta fits text version ttl now (some old) = .ok (sum, r)) :
    Rises old.version r.version := by
  obtain ⟨base, -, hplan⟩ := ok_of_bind h
  obtain ⟨hrises, hr⟩ := VersionPolicy.rises_of_check hf hplan
  split at hr
  · cases hr
    exact hrises
  · cases hr

end Sum

theorem rises_of_incrByPlan {delta sum : Int} {bounds : Bounds Int} {ttl : TtlUpdate}
    (hf : version.forces = false)
    (h : incrByPlan delta bounds version ttl now (some old) = .ok (sum, r)) :
    Rises old.version r.version := by
  obtain ⟨_, -, hsum⟩ := ok_of_bind (VersionPolicy.ok_after_validate h)
  exact rises_of_sumPlan hf hsum

theorem rises_of_incrByFloatPlan {delta sum : Float} {bounds : Bounds Float} {ttl : TtlUpdate}
    (hf : version.forces = false)
    (h : incrByFloatPlan delta bounds version ttl now (some old) = .ok (sum, r)) :
    Rises old.version r.version := by
  have hplan := VersionPolicy.ok_after_validate h
  split at hplan
  · cases hplan
  · obtain ⟨_, -, hsum⟩ := ok_of_bind hplan
    exact rises_of_sumPlan hf hsum

theorem rises_of_setExpiryPlan {time : ExpireTime} (hf : version.forces = false)
    (h : setExpiryPlan time version now (some old) = .ok (some r)) :
    Rises old.version r.version := by
  obtain ⟨hrises, hr⟩ := VersionPolicy.rises_of_check hf (VersionPolicy.ok_after_validate h)
  cases hr
  exact hrises

section Stale

variable (h0 : v ≠ 0) (hne : old.version ≠ v)

include h0 hne

theorem check_stale : (VersionPolicy.matching v).check (some old.version) = .error .versionConflict := by
  rw [VersionPolicy.check_some, if_neg]
  simp [VersionPolicy.accepts, h0, Ne.symm hne]

theorem setPlan_stale {value : Bytes} {rule : WriteRule} (hrule : rule.version = .matching v) :
    setPlan value rule now (some old) =
      if rule.condition.allows true then .error .versionConflict else .ok none := by
  rw [setPlan, hrule]
  change (if rule.condition.allows true then
    (VersionPolicy.matching v).check (some old.version) >>= _ else _) = _
  rw [check_stale h0 hne]
  rfl

theorem sumPlan_stale {α : Type} [Add α] {read : Bytes → Except HashError α} {zero delta : α}
    {fits : α → Bool} {text : α → Bytes} {ttl : TtlUpdate} :
    sumPlan read zero delta fits text (.matching v) ttl now (some old) =
      read old.value >>= fun _ => .error .versionConflict := by
  unfold sumPlan summand
  rw [Option.map_some, check_stale h0 hne]
  rfl

theorem incrByPlan_stale {delta : Int} {bounds : Bounds Int} {ttl : TtlUpdate}
    (hb : bounds.validate = .ok ()) :
    incrByPlan delta bounds (.matching v) ttl now (some old) =
      readInt old.value >>= fun _ => .error .versionConflict := by
  unfold incrByPlan
  rw [hb]
  change sumPlan readInt 0 delta (fun sum => Numeral.fitsInt64 sum && bounds.holds sum)
    Numeral.ofInt (.matching v) ttl now (some old) = _
  exact sumPlan_stale h0 hne

theorem incrByFloatPlan_stale {delta : Float} {bounds : Bounds Float} {ttl : TtlUpdate}
    (hb : bounds.validate = .ok ()) (hfinite : delta.isFinite = true) :
    incrByFloatPlan delta bounds (.matching v) ttl now (some old) =
      readFloat old.value >>= fun _ => .error .versionConflict := by
  unfold incrByFloatPlan
  rw [hb, hfinite]
  change sumPlan readFloat 0 delta (fun sum => sum.isFinite && bounds.holds sum)
    FloatText.ofFloat (.matching v) ttl now (some old) = _
  exact sumPlan_stale h0 hne

theorem setExpiryPlan_stale {time : ExpireTime} :
    setExpiryPlan time (.matching v) now (some old) = .error .versionConflict := by
  change ((VersionPolicy.matching v).check (some old.version) >>= _) = _
  rw [check_stale h0 hne]
  rfl

theorem deletePlan_stale : deletePlan (.matching v) (some old) = .error .versionConflict := by
  change ((VersionPolicy.matching v).check (some old.version) >>= _) = _
  rw [check_stale h0 hne]
  rfl

end Stale

end Fields
end ExpiringHash
