import ExpiringHash.Proofs.Fields.Outcomes

/-!
# Changes of fields

Every operation that changes the fields of a container, with the arguments it takes. Fields come
about by such changes from none at all, and whatever the changes were, the structures that the
fields keep beside the records are those that the records call for.
-/
namespace ExpiringHash

/-- A change of the fields of a container. -/
inductive FieldsChange where
  | put (field : Bytes) (record : Record)
  | remove (field : Bytes)
  | putExpiry (field : Bytes) (expiry : UInt64)
  | set (field value : Bytes) (rule : WriteRule)
  | incrBy (field : Bytes) (delta : Int) (bounds : Bounds Int) (version : VersionPolicy)
      (ttl : TtlUpdate)
  | incrByFloat (field : Bytes) (delta : Float) (bounds : Bounds Float) (version : VersionPolicy)
      (ttl : TtlUpdate)
  | delete (field : Bytes) (version : VersionPolicy)
  | setExpiry (field : Bytes) (time : ExpireTime) (version : VersionPolicy)
  | persist (field : Bytes)
  | setVersion (field : Bytes) (version : UInt64)

namespace Fields

variable {f g : Fields} {now : UInt64}

/-- The fields after a change, which are those there were if it is refused. -/
def settle {ε α : Type} (f : Fields) (outcome : Except ε (α × Fields)) : Fields :=
  (outcome.toOption.map Prod.snd).getD f

/-- Makes a change at a time. -/
def changed (f : Fields) (now : UInt64) : FieldsChange → Fields
  | .put field record => (f.put field record).2
  | .remove field => (f.remove field).2
  | .putExpiry field expiry => (f.putExpiry field expiry).2
  | .set field value rule => f.settle (f.set field value rule now)
  | .incrBy field delta bounds version ttl => f.settle (f.incrBy field delta bounds version ttl now)
  | .incrByFloat field delta bounds version ttl =>
    f.settle (f.incrByFloat field delta bounds version ttl now)
  | .delete field version => f.settle (f.delete field version now)
  | .setExpiry field time version => f.settle (f.setExpiry field time version now)
  | .persist field => (f.persist field now).2
  | .setVersion field version => f.settle (f.setVersion field version now)

/-- Fields that come about by changes, each at a time of its own. -/
inductive Reached : Fields → Prop
  | empty : Reached ∅
  | change {f : Fields} (now : UInt64) (c : FieldsChange) : Reached f → Reached (f.changed now c)

/-- What holds of the fields before a change and of those it leaves holds once it is settled. -/
theorem settle_cases {ε α : Type} {motive : Fields → Prop} {outcome : Except ε (α × Fields)}
    (hf : motive f) (h : ∀ a g, outcome = .ok (a, g) → motive g) : motive (f.settle outcome) := by
  cases outcome with
  | error e => exact hf
  | ok r => exact h r.1 r.2 rfl

namespace Consistent

theorem settle_map {α β : Type} {plan : Except HashError α} {answer : α → β × Fields}
    (hf : f.Consistent) (h : ∀ a, (answer a).2.Consistent) :
    (f.settle (plan.map answer)).Consistent := by
  refine settle_cases hf fun b g hok => ?_
  obtain ⟨a, -, ha⟩ := ok_of_map hok
  rw [show g = (answer a).2 by rw [ha]]
  exact h a

/-- A change leaves the structures in agreement. -/
theorem changed (hf : f.Consistent) (now : UInt64) (c : FieldsChange) :
    (f.changed now c).Consistent := by
  cases c with
  | put field r => exact hf.put field r
  | remove field => exact hf.remove field
  | putExpiry field expiry => exact hf.update field _
  | set field value rule =>
    rw [Fields.changed, set_eq]
    refine hf.settle_map fun
      | none => hf
      | some r => hf.put field r
  | incrBy field delta bounds version ttl =>
    rw [Fields.changed, incrBy_eq]
    exact hf.settle_map fun _ => hf.put field _
  | incrByFloat field delta bounds version ttl =>
    rw [Fields.changed, incrByFloat_eq]
    exact hf.settle_map fun _ => hf.put field _
  | delete field version =>
    rw [Fields.changed, delete_eq]
    refine hf.settle_map fun
      | false => hf
      | true => hf.remove field
  | setExpiry field time version =>
    rw [Fields.changed, setExpiry_eq]
    refine hf.settle_map fun
      | none => hf
      | some r => hf.put field r
  | persist field =>
    rw [Fields.changed, persist_eq]
    split
    · exact hf
    · exact hf.put field _
  | setVersion field version =>
    rw [Fields.changed, setVersion_eq hf]
    split
    · exact hf
    · split
      · exact hf
      · exact hf.put field _

end Consistent

theorem Reached.consistent (h : f.Reached) : f.Consistent := by
  induction h with
  | empty => exact .empty
  | change now c _ ih => exact ih.changed now c

/-- Storing records one after the other is a way to come about. -/
theorem Reached.foldl_put (h : f.Reached) (rows : List (Bytes × Record)) :
    (rows.foldl (fun g row => (g.put row.1 row.2).2) f).Reached := by
  induction rows generalizing f with
  | nil => exact h
  | cons row rows ih => exact ih (h.change 0 (.put row.1 row.2))

end Fields
end ExpiringHash
