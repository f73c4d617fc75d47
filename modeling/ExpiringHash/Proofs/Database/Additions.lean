import ExpiringHash.Proofs.Database.Overwrites
import ExpiringHash.Proofs.Decimal.Numerals

/-!
# Additions to a field

An addition to an integer counts from the number that the live text of its field spells, or from 0. If
nothing else stands against it, it stores the canonical text of the exact sum where that fits, and is
refused where it does not.
-/
namespace ExpiringHash

open DatabaseM

namespace Fields

variable {delta m : Int} {bounds : Bounds Int} {version : VersionPolicy} {ttl : TtlUpdate}
  {now : UInt64} {current : Option Record}

/-- The number that an addition counts from. -/
def number? : Option Record → Option Int
  | some r => Numeral.readInt64? r.value
  | none => some 0

theorem summand_of_number? (h : number? current = some m) : summand readInt 0 current = .ok m := by
  cases current with
  | none =>
    cases h
    rfl
  | some r =>
    have hread : Numeral.readInt64? r.value = some m := h
    rw [summand, readInt, hread]

/-- The sum is exact, and nothing but the version and the size of the sum is left to be checked. -/
theorem incrByPlan_of_number? (hm : version.isMalformed = false) (hb : bounds.validate = .ok ())
    (h : number? current = some m) :
    incrByPlan delta bounds version ttl now current = (do
      version.check (current.map (·.version))
      if Numeral.fitsInt64 (m + delta) && bounds.holds (m + delta) then
        return (m + delta, committed (Numeral.ofInt (m + delta)) version ttl current now)
      else throw .overflow) := by
  rw [incrByPlan, VersionPolicy.validate_of_wellFormed hm, hb]
  show sumPlan readInt 0 delta (fun sum => Numeral.fitsInt64 sum && bounds.holds sum) Numeral.ofInt
    version ttl now current = _
  rw [sumPlan, summand_of_number? h]
  rfl

end Fields

variable {s : Scope} {w : Work} {key field : Bytes}

/-- Expired fields are reclaimed first. Then the addition is refused and does nothing, or it stores
one record. -/
theorem run_incrBy (s : Scope) (ht : w.database.keys.Tidy) (ho : w.database.keys.Open key)
    (field : Bytes) (delta : Int) (bounds : Bounds Int) (version : VersionPolicy) (ttl : TtlUpdate) :
    ∃ w₁, w.Swept s.now key w₁ ∧
      match Fields.incrByPlan delta bounds version ttl s.now ((w.fieldsAt key).live? field s.now) with
      | .error err => (s.incrBy key field delta bounds version ttl).run w = .error err w₁
      | .ok (sum, r) => ∃ w', (s.incrBy key field delta bounds version ttl).run w = .ok sum w' ∧
          w₁.Logs s.now [.stored (.set key field (Numeral.ofInt sum) r.version r.expireAt)] w' := by
  obtain ⟨_, w₁, hprepared, hdid⟩ := Manages.prepare s key field (fun _ => false) w ht ho
  have hswept := hdid.swept
  have ht₁ := hdid.tidy ht
  have ho₁ := hdid.opens ho
  have hrun : (s.incrBy key field delta bounds version ttl).run w =
      (Scope.addInt key field delta bounds version ttl s).run w₁ := by
    change (s.prepare key field >>= fun _ => Scope.addInt key field delta bounds version ttl s).run w = _
    rw [EStateM.run_bind, hprepared]
  have hdoes := (Scope.addInt_decides key field delta bounds version ttl s.now).run s w₁ rfl ht₁ ho₁
  rw [hswept.live?_eq, Scope.addIntPlan] at hdoes
  refine ⟨w₁, hswept, ?_⟩
  rw [hrun]
  cases hp : Fields.incrByPlan delta bounds version ttl s.now
      ((w.fieldsAt key).live? field s.now) with
  | error err =>
    rw [hp] at hdoes
    exact hdoes
  | ok out =>
    obtain ⟨sum, r⟩ := out
    rw [hp] at hdoes
    obtain ⟨a, w', hadded, hsum, happly⟩ := hdoes
    obtain rfl : sum = a := hsum.symm
    have hsuits : (Command.set key field (Numeral.ofInt sum) r.version r.expireAt).Suits
        ((w₁.fieldsAt key).live? field s.now) key field fun _ => True := .set _ _ trivial
    obtain ⟨w'', happly', hlogs⟩ := logs_apply ht₁ ho₁ hsuits
    cases happly.symm.trans happly'
    exact ⟨w', hadded, hlogs⟩

end ExpiringHash
