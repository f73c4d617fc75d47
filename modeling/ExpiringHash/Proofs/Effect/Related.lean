import ExpiringHash.Proofs.Effect.Leads

/-!
# Related effects

Two effects are related if, from related states, both succeed with related answers or both fail with
the same error, and in either case the states they come to are related again.
-/
namespace ExpiringHash

variable {ε σ τ α β γ δ : Type}

/-- Both outcomes are answers related by `S`, or both are the same error. -/
inductive Matches (R : σ → τ → Prop) (S : α → β → Prop) :
    EStateM.Result ε σ α → EStateM.Result ε τ β → Prop
  | ok {a b s t} : S a b → R s t → Matches R S (.ok a s) (.ok b t)
  | error {s t} (e : ε) : R s t → Matches R S (.error e s) (.error e t)

/-- From related states, the effects have matching outcomes. -/
def Related (R : σ → τ → Prop) (S : α → β → Prop) (x : EStateM ε σ α) (y : EStateM ε τ β) : Prop :=
  ∀ s t, R s t → Matches R S (x.run s) (y.run t)

namespace Matches

variable {R : σ → τ → Prop} {S : α → β → Prop} {r : EStateM.Result ε σ α}
  {r' : EStateM.Result ε τ β}

theorem state (h : Matches R S r r') : R (stateOf r) (stateOf r') := by
  cases h with
  | ok _ hR => exact hR
  | error _ hR => exact hR

theorem mono {R' : σ → τ → Prop} {T : α → β → Prop} (h : Matches R S r r')
    (hR : ∀ s t, R s t → R' s t) (hS : ∀ a b, S a b → T a b) : Matches R' T r r' := by
  cases h with
  | ok ha hs => exact .ok (hS _ _ ha) (hR _ _ hs)
  | error e hs => exact .error e (hR _ _ hs)

section Equivalence

variable {R : σ → σ → Prop} {r r' r'' : EStateM.Result ε σ α}

theorem symm [Std.Symm R] (h : Matches R (· = ·) r r') : Matches R (· = ·) r' r := by
  cases h with
  | ok ha hs => exact .ok ha.symm (symm_of R hs)
  | error e hs => exact .error e (symm_of R hs)

theorem trans [IsTrans σ R] (h : Matches R (· = ·) r r') (h' : Matches R (· = ·) r' r'') :
    Matches R (· = ·) r r'' := by
  cases h with
  | ok ha hs =>
    cases h' with
    | ok ha' hs' => exact .ok (ha.trans ha') (trans_of R hs hs')
  | error e hs =>
    cases h' with
    | error _ hs' => exact .error e (trans_of R hs hs')

end Equivalence

end Matches

namespace Related

variable {R : σ → τ → Prop} {S : α → β → Prop} {T : γ → δ → Prop} {x : EStateM ε σ α}
  {y : EStateM ε τ β}

theorem pure {a : α} {b : β} (h : S a b) :
    Related R S (Pure.pure a : EStateM ε σ α) (Pure.pure b) :=
  fun _ _ hR => .ok h hR

theorem throw (e : ε) :
    Related R S (MonadExcept.throw e : EStateM ε σ α) (MonadExcept.throw e) :=
  fun _ _ hR => .error e hR

theorem get : Related R R (MonadState.get : EStateM ε σ σ) MonadState.get :=
  fun _ _ hR => .ok hR hR

theorem modifies {f : σ → σ} {g : τ → τ} (h : ∀ s t, R s t → R (f s) (g t)) :
    Related R (· = ·) (modify f : EStateM ε σ PUnit) (modify g) :=
  fun _ _ hR => .ok rfl (h _ _ hR)

theorem set {s : σ} {t : τ} (h : R s t) :
    Related R (· = ·) (MonadStateOf.set s : EStateM ε σ PUnit) (MonadStateOf.set t) :=
  fun _ _ _ => .ok rfl h

theorem ofExcept (x : Except ε α) :
    Related R (· = ·) (MonadExcept.ofExcept x : EStateM ε σ α) (MonadExcept.ofExcept x) := by
  cases x with
  | error e => exact throw e
  | ok a => exact pure rfl

/-- What follows a computation that fails or not by itself follows it only where it succeeds. -/
theorem ofExcept_bind {x : Except ε γ} {k : γ → EStateM ε σ α} {l : γ → EStateM ε τ β}
    (h : ∀ a, x = .ok a → Related R S (k a) (l a)) :
    Related R S (MonadExcept.ofExcept x >>= k) (MonadExcept.ofExcept x >>= l) := by
  cases x with
  | error e => exact throw e
  | ok a => exact h a rfl

theorem of_iff {R' : σ → τ → Prop} (h : Related R S x y) (hR : ∀ s t, R' s t ↔ R s t) :
    Related R' S x y :=
  fun s t hs => (h s t ((hR s t).mp hs)).mono (fun s t => (hR s t).mpr) fun _ _ ha => ha

theorem imp {S' : α → β → Prop} (h : Related R S x y) (hS : ∀ a b, S a b → S' a b) :
    Related R S' x y :=
  fun s t hR => (h s t hR).mono (fun _ _ hs => hs) hS

theorem bind {k : α → EStateM ε σ γ} {l : β → EStateM ε τ δ} (hx : Related R S x y)
    (hk : ∀ a b, S a b → Related R T (k a) (l b)) : Related R T (x >>= k) (y >>= l) := by
  intro s t hR
  have h := hx s t hR
  rw [EStateM.run_bind, EStateM.run_bind]
  cases hr : x.run s <;> cases hr' : y.run t <;> rw [hr, hr'] at h <;> cases h
  · next hS hR => exact hk _ _ hS _ _ hR
  · next hR => exact .error _ hR

/-- Answers that are equal are passed on as one. -/
theorem bind_eq {y : EStateM ε τ α} {k : α → EStateM ε σ γ} {l : α → EStateM ε τ δ}
    (hx : Related R (· = ·) x y) (hk : ∀ a, Related R T (k a) (l a)) :
    Related R T (x >>= k) (y >>= l) := by
  refine bind hx ?_
  rintro a _ rfl
  exact hk a

theorem discard (hx : Related R S x y) :
    Related R (· = ·) (Functor.discard x) (Functor.discard y) :=
  bind hx fun _ _ _ => pure rfl

theorem tryCatch {handle : ε → EStateM ε σ α} {handle' : ε → EStateM ε τ β}
    (hx : Related R S x y) (hh : ∀ e, Related R S (handle e) (handle' e)) :
    Related R S (MonadExcept.tryCatch x handle) (MonadExcept.tryCatch y handle') := by
  intro s t hR
  have h := hx s t hR
  change Matches R S (EStateM.tryCatch x handle s) (EStateM.tryCatch y handle' t)
  rw [EStateM.run, EStateM.run] at h
  unfold EStateM.tryCatch
  cases hr : x s <;> cases hr' : y t <;> rw [hr, hr'] at h <;> cases h
  · next hS hR => exact .ok hS hR
  · next hR => exact hh _ _ _ hR

theorem forM {l : List γ} {f : γ → EStateM ε σ PUnit} {g : γ → EStateM ε τ PUnit}
    (h : ∀ a, Related R (· = ·) (f a) (g a)) : Related R (· = ·) (l.forM f) (l.forM g) := by
  induction l with
  | nil => exact pure rfl
  | cons a as ih => exact bind_eq (h a) fun _ => ih

theorem mapM_mem {l : List γ} {f : γ → EStateM ε σ α} {g : γ → EStateM ε τ α}
    (h : ∀ a ∈ l, Related R (· = ·) (f a) (g a)) : Related R (· = ·) (l.mapM f) (l.mapM g) := by
  induction l with
  | nil =>
    rw [List.mapM_nil, List.mapM_nil]
    exact pure rfl
  | cons a as ih =>
    rw [List.mapM_cons, List.mapM_cons]
    exact bind_eq (h a List.mem_cons_self) fun b =>
      bind_eq (ih fun c hc => h c (List.mem_cons_of_mem a hc)) fun bs => pure rfl

theorem mapM {l : List γ} {f : γ → EStateM ε σ α} {g : γ → EStateM ε τ α}
    (h : ∀ a, Related R (· = ·) (f a) (g a)) : Related R (· = ·) (l.mapM f) (l.mapM g) :=
  mapM_mem fun a _ => h a

/-- What each effect keeps by itself may be added to the relation. -/
theorem and_leads {I : σ → Prop} {J : τ → Prop} (h : Related R S x y)
    (hx : Leads (fun s s' => I s → I s') x) (hy : Leads (fun t t' => J t → J t') y) :
    Related (fun s t => R s t ∧ I s ∧ J t) S x y := by
  rintro s t ⟨hR, hI, hJ⟩
  have hm := h s t hR
  have hl := hx s hI
  have hl' := hy t hJ
  cases hr : x.run s <;> cases hr' : y.run t <;> rw [hr, hr'] at hm <;> rw [hr] at hl <;>
    rw [hr'] at hl' <;> cases hm
  · next hS hR => exact .ok hS ⟨hR, hl, hl'⟩
  · next hR => exact .error _ ⟨hR, hl, hl'⟩

end Related

end ExpiringHash
