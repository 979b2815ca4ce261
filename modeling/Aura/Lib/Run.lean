import Mathlib.Logic.Relation

/-!
# Steps that may fail, and runs of them

The bind of `Except`, inverted once, and the runs of a step function whose
steps may fail. A run is guarded: each of its steps satisfies a condition on
the state it starts in and the event it takes, which is where an environment
contract or a side condition on the inputs goes. What every guarded step
keeps, every guarded run keeps (`Runs.invariant`).
-/

namespace Aura.Lib

variable {ε α β : Type}

instance decidableEqExcept [DecidableEq ε] [DecidableEq α] :
    DecidableEq (Except ε α)
  | .ok a, .ok b => decidable_of_iff (a = b) (by simp)
  | .error a, .error b => decidable_of_iff (a = b) (by simp)
  | .ok _, .error _ | .error _, .ok _ => isFalse nofun

@[simp] theorem ok_bind (a : α) (f : α → Except ε β) :
    (Except.ok a >>= f) = f a := rfl

@[simp] theorem error_bind (e : ε) (f : α → Except ε β) :
    ((Except.error e : Except ε α) >>= f) = .error e := rfl

@[simp] theorem pure_eq_ok (a : α) : (pure a : Except ε α) = .ok a := rfl

theorem bind_eq_ok {x : Except ε α} {f : α → Except ε β} {b : β} :
    (x >>= f) = .ok b ↔ ∃ a, x = .ok a ∧ f a = .ok b := by
  cases x with
  | error e => simp
  | ok a => simp

theorem bind_eq_error {x : Except ε α} {f : α → Except ε β} {e : ε} :
    (x >>= f) = .error e ↔ x = .error e ∨ ∃ a, x = .ok a ∧ f a = .error e := by
  cases x with
  | error e' => simp
  | ok a => simp

theorem map_eq_ok {x : Except ε α} {f : α → β} {b : β} :
    x.map f = .ok b ↔ ∃ a, x = .ok a ∧ f a = b := by
  cases x with
  | error e => simp [Except.map]
  | ok a => simp [Except.map]

theorem map_eq_error {x : Except ε α} {f : α → β} {e : ε} :
    x.map f = .error e ↔ x = .error e := by
  cases x with
  | error e' => simp [Except.map]
  | ok a => simp [Except.map]

theorem map_bind {γ : Type} (x : Except ε α) (f : α → Except ε β) (g : β → γ) :
    (x >>= f).map g = x >>= fun a => (f a).map g := by
  cases x <;> rfl

section Runs

variable {σ ι : Type}

/-- One step on an event the guard admits. -/
def Step (step : σ → ι → Except ε σ) (guard : σ → ι → Prop) (s t : σ) :
    Prop :=
  ∃ i, guard s i ∧ step s i = .ok t

/-- Any number of such steps. -/
def Runs (step : σ → ι → Except ε σ) (guard : σ → ι → Prop) : σ → σ → Prop :=
  Relation.ReflTransGen (Step step guard)

variable {step : σ → ι → Except ε σ} {guard : σ → ι → Prop}

theorem Runs.refl (s : σ) : Runs step guard s s := Relation.ReflTransGen.refl

theorem Runs.tail {s t u : σ} {i : ι} (h : Runs step guard s t)
    (hg : guard t i) (hs : step t i = .ok u) : Runs step guard s u :=
  Relation.ReflTransGen.tail h ⟨i, hg, hs⟩

/-- The induction every safety result uses: an invariant of one guarded step
is an invariant of a guarded run. -/
theorem Runs.invariant {I : σ → Prop}
    (hstep : ∀ s i t, I s → guard s i → step s i = .ok t → I t)
    {s t : σ} (h : Runs step guard s t) (hs : I s) : I t := by
  induction h with
  | refl => exact hs
  | tail _ hst ih =>
      obtain ⟨i, hg, hi⟩ := hst
      exact hstep _ i _ ih hg hi

/-! ### Runs given by their events -/

/-- The state a list of events leads to, as far as they go through. -/
def afterwards (step : σ → ι → Except ε σ) : σ → List ι → σ
  | s, [] => s
  | s, i :: is =>
      match step s i with
      | .ok t => afterwards step t is
      | .error _ => s

/-- The guard admits each event in the state the ones before it lead to. -/
def Guarded (step : σ → ι → Except ε σ) (guard : σ → ι → Prop) :
    σ → List ι → Prop
  | _, [] => True
  | s, i :: is => guard s i ∧ ∀ t, step s i = .ok t → Guarded step guard t is

theorem Guarded.left {l l' : List ι} {s : σ}
    (h : Guarded step guard s (l ++ l')) : Guarded step guard s l := by
  induction l generalizing s with
  | nil => trivial
  | cons i l ih => exact ⟨h.1, fun t ht => ih (h.2 t ht)⟩

instance decidableGuarded [∀ s i, Decidable (guard s i)] :
    ∀ (s : σ) (is : List ι), Decidable (Guarded step guard s is)
  | _, [] => isTrue trivial
  | s, i :: is =>
      match ht : step s i with
      | .error _ => decidable_of_iff (guard s i) (by simp [Guarded, ht])
      | .ok t =>
          have := decidableGuarded t is
          decidable_of_iff (guard s i ∧ Guarded step guard t is)
            (by simp [Guarded, ht])

theorem Runs.afterwards {l : List ι} {s : σ} (h : Guarded step guard s l) :
    Runs step guard s (afterwards step s l) := by
  induction l generalizing s with
  | nil => exact .refl s
  | cons i l ih =>
      obtain ⟨hguard, hrest⟩ := h
      unfold Lib.afterwards
      cases ht : step s i with
      | error e => exact .refl s
      | ok t =>
          exact Relation.ReflTransGen.head ⟨i, hguard, ht⟩ (ih (hrest t ht))

/-! ### One machine in two vocabularies -/

section Renamed

variable {τ κ : Type} {step' : τ → κ → Except ε τ} {guard' : τ → κ → Prop}
  {f : σ → τ} {g : ι → κ}

/-- The second machine does what the first does, under other names. -/
def Renames (step : σ → ι → Except ε σ) (step' : τ → κ → Except ε τ)
    (f : σ → τ) (g : ι → κ) : Prop :=
  ∀ s i, (step s i).map f = step' (f s) (g i)

theorem Renames.step_ok (h : Renames step step' f g) {s t : σ} {i : ι}
    (hs : step s i = .ok t) : step' (f s) (g i) = .ok (f t) := by
  rw [← h s i, hs]
  rfl

theorem Renames.foldlM (h : Renames step step' f g) {is : List ι} {s t : σ}
    (hs : is.foldlM step s = .ok t) :
    (is.map g).foldlM step' (f s) = .ok (f t) := by
  induction is generalizing s with
  | nil =>
      cases hs
      rfl
  | cons i is ih =>
      rw [List.foldlM_cons, bind_eq_ok] at hs
      obtain ⟨u, hu, hs⟩ := hs
      rw [List.map_cons, List.foldlM_cons, h.step_ok hu, ok_bind]
      exact ih hs

theorem Renames.guarded (h : Renames step step' f g)
    (hguard : ∀ s i, guard s i → guard' (f s) (g i)) {is : List ι} {s : σ}
    (hs : Guarded step guard s is) :
    Guarded step' guard' (f s) (is.map g) := by
  induction is generalizing s with
  | nil => trivial
  | cons i is ih =>
      obtain ⟨hi, hrest⟩ := hs
      refine ⟨hguard s i hi, fun t' ht' => ?_⟩
      rw [← h s i, map_eq_ok] at ht'
      obtain ⟨t, ht, rfl⟩ := ht'
      exact ih (hrest t ht)

theorem Renames.runs (h : Renames step step' f g)
    (hguard : ∀ s i, guard s i → guard' (f s) (g i)) {s t : σ}
    (hrun : Runs step guard s t) : Runs step' guard' (f s) (f t) := by
  induction hrun with
  | refl => exact .refl _
  | tail _ hlast ih =>
      obtain ⟨i, hi, hok⟩ := hlast
      exact ih.tail (hguard _ i hi) (h.step_ok hok)

end Renamed

end Runs

end Aura.Lib
