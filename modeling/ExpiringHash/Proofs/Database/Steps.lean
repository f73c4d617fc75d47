import ExpiringHash.Proofs.Database.Runs
import Mathlib.Logic.Relation

/-!
# Steps of actions

All that an action does to a database is to apply commands and to count expired fields: whatever it
changes, the command that it sends says so. An action from tidy keys is traced by such steps
(`Work.Traces`), so whatever the steps preserve, every action does. Names are drawn from a set
`p` that holds the names in the database and those that the action is given.
-/
namespace ExpiringHash

open DatabaseM Relation

namespace Command

/-- The names and values that a command tells of. -/
def texts : Command → List Bytes
  | .set key field value _ _ => [key, field, value]
  | .delete key field => [key, field]
  | .expireAt key field _ _ => [key, field]
  | .persist key field => [key, field]
  | .setVersion key field _ => [key, field]
  | .deleteKey key => [key]

/-- All names and values that a command tells of are in `p`. -/
def Within (p : Bytes → Prop) (c : Command) : Prop := ∀ a ∈ c.texts, p a

end Command

/-- The names of all containers and fields are in `p`. -/
def KeySpace.Named (p : Bytes → Prop) (ks : KeySpace) : Prop :=
  ∀ key c, ks.get? key = some (.container c) →
    p key ∧ ∀ field r, c.fields.get? field = some r → p field

namespace Work

variable {p : Bytes → Prop} {w w' : Work} {l : Layout} {key field : Bytes} {c : Command}

/-- The keys are tidy and all names are in `p`. -/
structure Sound (p : Bytes → Prop) (w : Work) : Prop where
  tidy : w.database.keys.Tidy
  named : w.database.keys.Named p

theorem Sound.of_tidy (h : w.database.keys.Tidy) : w.Sound fun _ => True :=
  ⟨h, fun _ _ _ => ⟨trivial, fun _ _ _ => trivial⟩⟩

/-- What applying a command can do to a database. -/
inductive Effect (p : Bytes → Prop) (w : Work) (c : Command) : Work → Prop
  | say : Effect p w c (w.say c)
  | rewrite {key : Bytes} {s : ExpiryShift} {g : Fields} (hs : (w.fieldsAt key).Shifted g s)
      (hg : g.Consistent) (hk : p key) (hn : ∀ field r, g.get? field = some r → p field) :
      Effect p w c (w.rewrite key (s, g) c)
  | deleteKey {key : Bytes} (hc : c = .deleteKey key) : Effect p w c (w.withoutKey key)

theorem Sound.named_fieldsAt (h : w.Sound p) {r : Record}
    (hr : (w.fieldsAt key).get? field = some r) : p key ∧ p field := by
  cases h.tidy.slot key with
  | foreign _ _ hs =>
    rw [fieldsAt, KeySpace.fieldsAt_of_foreign hs] at hr
    cases hr
  | absent hs =>
    rw [fieldsAt, KeySpace.fieldsAt_of_get?_none hs] at hr
    cases hr
  | present f _ hs =>
    rw [fieldsAt, KeySpace.fieldsAt_of_get? hs] at hr
    exact ⟨(h.named key _ hs).1, (h.named key _ hs).2 field r hr⟩

namespace Effect

/-- The command is sent on. -/
theorem emitted (he : w.Effect p c w') : w'.emitted = c :: w.emitted := by
  cases he with
  | say => rfl
  | rewrite => rfl
  | deleteKey hc =>
    rw [hc]
    rfl

theorem sound (he : w.Effect p c w') (h : w.Sound p) : w'.Sound p := by
  cases he with
  | say => exact ⟨h.tidy, h.named⟩
  | @rewrite key s g hs hg hk hn =>
    refine ⟨h.tidy.put ⟨rfl, hg⟩, fun other d hd => ?_⟩
    by_cases ho : other = key
    · subst ho
      rw [Work.rewrite, KeySpace.putContainer, SortedTable.get?_put_self] at hd
      cases hd
      exact ⟨hk, hn⟩
    · rw [Work.rewrite, KeySpace.putContainer, SortedTable.get?_put_of_ne ho] at hd
      exact h.named other d hd
  | @deleteKey key hc =>
    constructor
    · change KeySpace.Tidy (w.database.deleteKey key).2.keys
      rw [Database.keys_deleteKey]
      exact h.tidy.erase key
    · intro other d hd
      change SortedTable.get? (w.database.deleteKey key).2.keys other = _ at hd
      rw [Database.keys_deleteKey] at hd
      by_cases ho : other = key
      · rw [ho, SortedTable.get?_erase_self] at hd
        cases hd
      · rw [SortedTable.get?_erase_of_ne ho] at hd
        exact h.named other d hd

/-- A database in step stays so. -/
theorem inStep (he : w.Effect p c w') (h : w.database.InStep l) : w'.database.InStep l := by
  cases he with
  | say => exact h
  | rewrite hs hg => exact h.change hs hg
  | deleteKey => exact h.deleteKey _

end Effect

/-- Storing a record is an effect of a set command. -/
theorem Sound.effect_put (h : w.Sound p) (hk : p key) (hf : p field) (r : Record) (c : Command) :
    w.Effect p c (w.rewrite key ((w.fieldsAt key).put field r) c) := by
  have hc := h.tidy.consistent key
  refine .rewrite (hc.shifted_put field r) (hc.put field r) hk fun other s hs => ?_
  by_cases ho : other = field
  · exact ho ▸ hf
  · have hget := Fields.get?_put_of_ne (f := w.fieldsAt key) (r := r) ho
    exact (h.named_fieldsAt (hget.symm.trans hs)).2

theorem Sound.effect_remove (h : w.Sound p) (hk : p key) {r : Record}
    (hr : (w.fieldsAt key).get? field = some r) (c : Command) :
    w.Effect p c (w.rewrite key ((w.fieldsAt key).shiftTo ((w.fieldsAt key).remove field).2 field
      r.expireAt 0, ((w.fieldsAt key).remove field).2) c) := by
  have hc : (w.fieldsAt key).Consistent := h.tidy.consistent key
  have hshift := congrArg Prod.fst (Fields.remove_of_get? hr)
  refine .rewrite (hc.shifted_remove hshift) (hc.remove field) hk fun other s hs => ?_
  by_cases ho : other = field
  · subst ho
    rw [Fields.get?_remove_self] at hs
    cases hs
  · rw [Fields.get?_remove_of_ne ho] at hs
    exact (h.named_fieldsAt hs).2

/-- A change of a record in place is an effect, whether the record is there or not. -/
theorem Sound.effect_updateRecord (h : w.Sound p) (hk : p key) (hf : p field)
    (change : Record → Record) (c : Command) :
    let x : DatabaseM Unit := do Scope.updateRecord key field change; emit c
    x.run w = .error .typeMismatch w ∨ ∃ w', x.run w = .ok () w' ∧ w.Effect p c w' := by
  cases h.tidy.slot key with
  | foreign _ _ hs => exact .inl (run_updateRecord_foreign hs change c)
  | absent hs => exact .inr ⟨_, run_updateRecord_absent hs change c, .say⟩
  | present f hf' hs =>
    cases hr : f.get? field with
    | none => exact .inr ⟨_, run_updateRecord_missing hs hr change c, .say⟩
    | some r =>
      have he := h.effect_put hk hf (change r) c
      rw [fieldsAt, KeySpace.fieldsAt_of_get? hs] at he
      exact .inr ⟨_, run_updateRecord hs hr change c, he⟩

/-- A command that is applied is refused, or takes one effect. -/
theorem Sound.effect_apply (h : w.Sound p) (hc : c.Within p) :
    (Scope.apply c).run w = .error .typeMismatch w ∨
      ∃ w', (Scope.apply c).run w = .ok () w' ∧ w.Effect p c w' := by
  cases c with
  | set key field value version expiry =>
    have hk : p key := hc _ (by simp [Command.texts])
    have hf : p field := hc _ (by simp [Command.texts])
    cases h.tidy.slot key with
    | foreign _ _ hs =>
      refine .inl ?_
      rw [Scope.apply, EStateM.run_bind, Scope.perform, EStateM.run_bind, run_write_foreign hs]
    | absent hs =>
      exact .inr ⟨_, run_apply_set h.tidy (KeySpace.open_of_absent hs) .., h.effect_put hk hf _ _⟩
    | present f _ hs =>
      exact .inr ⟨_, run_apply_set h.tidy (KeySpace.open_of_present hs) .., h.effect_put hk hf _ _⟩
  | delete key field =>
    have hk : p key := hc _ (by simp [Command.texts])
    cases h.tidy.slot key with
    | foreign _ _ hs =>
      refine .inl ?_
      rw [Scope.apply, EStateM.run_bind, Scope.perform, EStateM.run_bind, run_revise_foreign hs]
    | absent hs => exact .inr ⟨_, run_apply_delete_absent hs field, .say⟩
    | present f _ hs =>
      cases hr : f.get? field with
      | none => exact .inr ⟨_, run_apply_delete_missing hs hr, .say⟩
      | some r =>
        have hf : w.fieldsAt key = f := KeySpace.fieldsAt_of_get? hs
        have he := h.effect_remove hk (hf ▸ hr) (.delete key field)
        rw [hf] at he
        exact .inr ⟨_, run_apply_delete hs hr, he⟩
  | expireAt key field expiry version =>
    exact h.effect_updateRecord (hc _ (by simp [Command.texts])) (hc _ (by simp [Command.texts])) ..
  | persist key field =>
    exact h.effect_updateRecord (hc _ (by simp [Command.texts])) (hc _ (by simp [Command.texts])) ..
  | setVersion key field version =>
    exact h.effect_updateRecord (hc _ (by simp [Command.texts])) (hc _ (by simp [Command.texts])) ..
  | deleteKey key => exact .inr ⟨_, run_apply_deleteKey w key, .deleteKey rfl⟩

theorem Sound.effect_of_run (h : w.Sound p) (hc : c.Within p)
    (hrun : (Scope.apply c).run w = .ok () w') : w.Effect p c w' := by
  rcases h.effect_apply hc with he | ⟨w'', hok, he⟩
  · rw [he] at hrun
    cases hrun
  · rw [hok] at hrun
    cases hrun
    exact he

/-- One step of an action. -/
inductive Step (p : Bytes → Prop) (w : Work) : Work → Prop
  | apply {w' : Work} (c : Command) (hc : c.Within p) (h : (Scope.apply c).run w = .ok () w') :
      Step p w w'
  | count (t : Trigger) : Step p w (w.counted t)

namespace Step

theorem effect_or (hs : w.Step p w') (h : w.Sound p) :
    (∃ c, w.Effect p c w') ∨ ∃ t, w' = w.counted t := by
  cases hs with
  | count t => exact .inr ⟨t, rfl⟩
  | apply c hc hrun => exact .inl ⟨c, h.effect_of_run hc hrun⟩

theorem sound (hs : w.Step p w') (h : w.Sound p) : w'.Sound p := by
  rcases hs.effect_or h with ⟨c, he⟩ | ⟨t, rfl⟩
  · exact he.sound h
  · exact ⟨h.tidy, h.named⟩

theorem inStep (hs : w.Step p w') (h : w.Sound p) (hi : w.database.InStep l) :
    w'.database.InStep l := by
  rcases hs.effect_or h with ⟨c, he⟩ | ⟨t, rfl⟩
  · exact he.inStep hi
  · exact ⟨hi.tidy, hi.layout, hi.files⟩

end Step

/-- Any number of steps. -/
abbrev Steps (p : Bytes → Prop) : Work → Work → Prop := ReflTransGen (Step p)

theorem Steps.sound (hs : Steps p w w') (h : w.Sound p) : w'.Sound p := by
  induction hs with
  | refl => exact h
  | tail _ hstep ih => exact hstep.sound ih

theorem Steps.inStep (hs : Steps p w w') (h : w.Sound p) (hi : w.database.InStep l) :
    w'.database.InStep l := by
  induction hs with
  | refl => exact hi
  | tail hrest hstep ih => exact hstep.inStep (Steps.sound hrest h) ih

/-- From tidy keys, all that has been done are steps. -/
def Traces (p : Bytes → Prop) (w w' : Work) : Prop := w.Sound p → Steps p w w'

instance : IsPreorder Work (Traces p) where
  refl _ _ := .refl
  trans _ _ _ h h' hw := (h hw).trans (h' ((h hw).sound hw))

/-- Actions that are traced by steps keep keys tidy. -/
theorem keeps_tidy {α : Type} {x : DatabaseM α} (h : Leads (Traces fun _ => True) x) :
    Leads (fun w w' => w.database.keys.Tidy → w'.database.keys.Tidy) x :=
  h.mono fun _ _ hw ht => (Steps.sound (hw (.of_tidy ht)) (.of_tidy ht)).tidy

/-- Actions that are traced by steps keep a database in step. -/
theorem keeps_inStep {α : Type} {x : DatabaseM α} (l : Layout) (h : Leads (Traces fun _ => True) x) :
    Leads (fun w w' => w.database.InStep l → w'.database.InStep l) x :=
  h.mono fun _ _ hw hi => Steps.inStep (hw (.of_tidy hi.tidy)) (.of_tidy hi.tidy) hi

end Work

end ExpiringHash
