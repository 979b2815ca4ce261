import Aura.Lib.Run

/-!
# One machine behind another

Two machines whose steps may fail. Each event of the first stands for some
events of the second, possibly none, and a relation between their states says
what the first is a picture of. When every admitted step of the first does what
its events do to the second, and fails as they do (`InStep`), every run of the
first is a picture of a run of the second (`Runs.simulated`).
-/

namespace Aura.Lib

variable {ε α β : Type}

/-- Two results: both are there and related, or both fail alike. -/
def Alike (R : α → β → Prop) : Except ε α → Except ε β → Prop
  | .ok a, .ok b => R a b
  | .error e, .error f => e = f
  | .ok _, .error _ | .error _, .ok _ => False

theorem Alike.of_ok {R : α → β → Prop} {a : α} {r : Except ε β}
    (h : Alike R (.ok a) r) : ∃ b, r = .ok b ∧ R a b := by
  cases r with
  | ok b => exact ⟨b, rfl, h⟩
  | error e => exact h.elim

theorem Alike.of_error {R : α → β → Prop} {e : ε} {r : Except ε β}
    (h : Alike R (.error e) r) : r = .error e := by
  cases r with
  | ok b => exact h.elim
  | error f => exact congrArg Except.error (Eq.symm h)

theorem Alike.mono {R R' : α → β → Prop} (hR : ∀ a b, R a b → R' a b)
    {x : Except ε α} {y : Except ε β} (h : Alike R x y) : Alike R' x y := by
  cases x with
  | ok a =>
      obtain ⟨b, rfl, hab⟩ := h.of_ok
      exact hR a b hab
  | error e =>
      rw [h.of_error]
      exact rfl

theorem Alike.bind {γ δ : Type} {R : α → β → Prop} {R' : γ → δ → Prop}
    {x : Except ε α} {y : Except ε β} {f : α → Except ε γ}
    {g : β → Except ε δ} (h : Alike R x y)
    (hfg : ∀ a b, R a b → Alike R' (f a) (g b)) :
    Alike R' (x >>= f) (y >>= g) := by
  cases x with
  | ok a =>
      obtain ⟨b, rfl, hab⟩ := h.of_ok
      exact hfg a b hab
  | error e =>
      rw [h.of_error]
      exact rfl

section Simulation

variable {σ τ ι κ : Type} {step : σ → ι → Except ε σ} {guard : σ → ι → Prop}
  {step' : τ → κ → Except ε τ} {view : σ → ι → List κ} {R : σ → τ → Prop}

/-- Every admitted step of the first machine does what its events do to the
second. -/
def InStep (step : σ → ι → Except ε σ) (guard : σ → ι → Prop)
    (step' : τ → κ → Except ε τ) (view : σ → ι → List κ) (R : σ → τ → Prop) :
    Prop :=
  ∀ s t i, R s t → guard s i →
    Alike R (step s i) ((view s i).foldlM step' t)

/-- Events that go through are a run. -/
theorem runs_foldlM {is : List κ} {t u : τ}
    (h : is.foldlM step' t = .ok u) : Runs step' (fun _ _ => True) t u := by
  induction is generalizing t with
  | nil =>
      cases h
      exact .refl _
  | cons i is ih =>
      rw [List.foldlM_cons] at h
      obtain ⟨v, hv, hrest⟩ := bind_eq_ok.mp h
      exact Relation.ReflTransGen.head ⟨i, trivial, hv⟩ (ih hrest)

theorem Runs.simulated (hstep : InStep step guard step' view R) {s s' : σ}
    {t : τ} (h : Runs step guard s s') (hR : R s t) :
    ∃ t', Runs step' (fun _ _ => True) t t' ∧ R s' t' := by
  induction h with
  | refl => exact ⟨t, .refl t, hR⟩
  | tail _ hlast ih =>
      obtain ⟨u, hrun, hRu⟩ := ih
      obtain ⟨i, hi, hok⟩ := hlast
      have halike := hstep _ u i hRu hi
      rw [hok] at halike
      obtain ⟨t', ht', hR'⟩ := halike.of_ok
      exact ⟨t', Relation.ReflTransGen.trans hrun (runs_foldlM ht'), hR'⟩

end Simulation

end Aura.Lib
