import Mathlib.Order.Defs.Unbundled

/-!
# Where effects lead

An effect that fails keeps the state it came to, so what matters about its state is one relation
between the state before and the state after, whatever the outcome. Preorders are preserved by
sequencing, loops and recovery.
-/
namespace ExpiringHash

variable {ε σ α β : Type}

/-- The state after an effect, whether it failed or not. -/
def stateOf : EStateM.Result ε σ α → σ
  | .ok _ s => s
  | .error _ s => s

/-- An outcome in a state. -/
def outcomeIn (state : σ) : Except ε α → EStateM.Result ε σ α
  | .ok a => .ok a state
  | .error e => .error e state

theorem run_discard (x : EStateM ε σ α) (s : σ) :
    (discard x).run s = match x.run s with
      | .ok _ t => .ok ⟨⟩ t
      | .error e t => .error e t := by
  change EStateM.map _ x s = _
  rw [EStateM.map, EStateM.run]
  cases x s <;> rfl

theorem run_get_bind (k : σ → EStateM ε σ α) (s : σ) : (get >>= k).run s = (k s).run s := rfl

theorem run_ofExcept_bind (x : Except ε α) (k : α → EStateM ε σ β) (s : σ) :
    (MonadExcept.ofExcept x >>= k).run s = match x with
      | .ok a => (k a).run s
      | .error e => .error e s := by
  cases x <;> rfl

theorem ok_of_run_bind {x : EStateM ε σ α} {k : α → EStateM ε σ β} {s u : σ} {b : β}
    (h : (x >>= k).run s = .ok b u) : ∃ a t, x.run s = .ok a t ∧ (k a).run t = .ok b u := by
  rw [EStateM.run_bind] at h
  cases hx : x.run s with
  | error e t =>
    rw [hx] at h
    cases h
  | ok a t =>
    rw [hx] at h
    exact ⟨a, t, rfl, h⟩

/-- Effects that answer and leave the state as it is do so one after the other. -/
theorem run_mapM {l : List β} {f : β → EStateM ε σ α} {g : β → α} {s : σ}
    (h : ∀ b ∈ l, (f b).run s = .ok (g b) s) : (l.mapM f).run s = .ok (l.map g) s := by
  induction l with
  | nil => rfl
  | cons b l ih =>
    obtain ⟨hb, hl⟩ := List.forall_mem_cons.mp h
    rw [List.mapM_cons, EStateM.run_bind, hb]
    dsimp only
    rw [EStateM.run_bind, ih hl]
    rfl

/-- Whatever the outcome, the state before and the state after are related. -/
def Leads (R : σ → σ → Prop) (x : EStateM ε σ α) : Prop := ∀ s, R s (stateOf (x.run s))

namespace Leads

variable {R S : σ → σ → Prop} {x : EStateM ε σ α}

theorem mono (h : Leads R x) (hRS : ∀ s t, R s t → S s t) : Leads S x :=
  fun s => hRS _ _ (h s)

theorem modifies {f : σ → σ} (h : ∀ s, R s (f s)) : Leads R (modify f : EStateM ε σ PUnit) := h

section Refl

variable [Std.Refl R]

theorem pure (a : α) : Leads R (Pure.pure a : EStateM ε σ α) := fun s => refl_of R s

theorem throw (e : ε) : Leads R (MonadExcept.throw e : EStateM ε σ α) := fun s => refl_of R s

theorem get : Leads R (MonadState.get : EStateM ε σ σ) := fun s => refl_of R s

theorem ofExcept (x : Except ε α) : Leads R (MonadExcept.ofExcept x : EStateM ε σ α) := by
  cases x with
  | error e => exact throw e
  | ok a => exact pure a

/-- What follows a check may count on it. -/
theorem ofExcept_bind {x : Except ε α} {k : α → EStateM ε σ β}
    (h : ∀ a, x = .ok a → Leads R (k a)) : Leads R (MonadExcept.ofExcept x >>= k) := by
  cases x with
  | error e => exact fun s => refl_of R s
  | ok a => exact h a rfl

end Refl

section Trans

variable [IsTrans σ R]

theorem bind {k : α → EStateM ε σ β} (hx : Leads R x) (hk : ∀ a, Leads R (k a)) :
    Leads R (x >>= k) := by
  intro s
  have h := hx s
  rw [EStateM.run_bind]
  cases hr : x.run s with
  | ok a t =>
    rw [hr] at h
    exact trans_of R h (hk a t)
  | error e t =>
    rw [hr] at h
    exact h

theorem tryCatch {handle : ε → EStateM ε σ α} (hx : Leads R x) (hh : ∀ e, Leads R (handle e)) :
    Leads R (MonadExcept.tryCatch x handle) := by
  intro s
  have h := hx s
  change R s (stateOf (EStateM.tryCatch x handle s))
  rw [EStateM.run] at h
  unfold EStateM.tryCatch
  cases hr : x s with
  | ok a t =>
    rw [hr] at h
    exact h
  | error e t =>
    rw [hr] at h
    exact trans_of R h (hh e t)

end Trans

section Preorder

variable [IsPreorder σ R]

theorem discard (h : Leads R x) : Leads R (Functor.discard x) :=
  bind h fun _ => pure _

theorem forM {l : List α} {f : α → EStateM ε σ PUnit} (h : ∀ a ∈ l, Leads R (f a)) :
    Leads R (l.forM f) := by
  induction l with
  | nil => exact pure _
  | cons a as ih =>
    exact bind (h a List.mem_cons_self) fun _ => ih fun b hb => h b (List.mem_cons_of_mem a hb)

theorem mapM {l : List α} {f : α → EStateM ε σ β} (h : ∀ a ∈ l, Leads R (f a)) :
    Leads R (l.mapM f) := by
  induction l with
  | nil =>
    rw [List.mapM_nil]
    exact pure _
  | cons a as ih =>
    rw [List.mapM_cons]
    exact bind (h a List.mem_cons_self) fun _ =>
      bind (ih fun b hb => h b (List.mem_cons_of_mem a hb)) fun _ => pure _

end Preorder

end Leads

end ExpiringHash
