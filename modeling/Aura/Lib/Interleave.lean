import Aura.Lib.Run

/-!
# Two sides that do not meet

The events of a machine belong to two sides. When an event of one side and an
event of the other do the same in either order, it does not matter how a run
interleaves the two: it is enough that each side's events come in their order
(`Independent.interleaved`). A step may fail, and which of two faults comes
first does depend on the order; what goes through in one order goes through in
the other, and to the same state.
-/

namespace Aura.Lib

variable {ε σ ι : Type}

/-- In states with `I`, admitted events of different sides may be swapped; and
every admitted event keeps `I`. -/
structure Independent (step : σ → ι → Except ε σ) (I : σ → Prop)
    (admits : ι → Prop) (side : ι → Bool) : Prop where
  keeps : ∀ {s i t}, I s → admits i → step s i = .ok t → I t
  swap : ∀ {s i j t}, I s → admits i → admits j →
    side i = true → side j = false →
    ((step s i >>= fun u => step u j) = .ok t ↔
      (step s j >>= fun u => step u i) = .ok t)

namespace Independent

variable {step : σ → ι → Except ε σ} {I : σ → Prop} {admits : ι → Prop}
  {side : ι → Bool} (h : Independent step I admits side)

include h

/-- Runs that begin alike. -/
theorem cons_congr {i : ι} {is is' : List ι} {s t : σ} (hs : I s)
    (hi : admits i)
    (hrest : ∀ u, I u → (is.foldlM step u = .ok t ↔ is'.foldlM step u = .ok t)) :
    (i :: is).foldlM step s = .ok t ↔ (i :: is').foldlM step s = .ok t := by
  rw [List.foldlM_cons, List.foldlM_cons, bind_eq_ok, bind_eq_ok]
  refine exists_congr fun u => and_congr_right fun hu => ?_
  exact hrest u (h.keeps hs hi hu)

/-- One event moved behind a stretch of the other side's. -/
theorem past {j : ι} (hj : admits j) (hside : side j = false) {is : List ι}
    (his : ∀ i ∈ is, admits i ∧ side i = true) {s t : σ} (hs : I s) :
    (j :: is).foldlM step s = .ok t ↔ (is ++ [j]).foldlM step s = .ok t := by
  induction is generalizing s with
  | nil => exact Iff.rfl
  | cons i is ih =>
      obtain ⟨hi, hiside⟩ := his i (.head _)
      have hrest : ∀ k ∈ is, admits k ∧ side k = true :=
        fun k hk => his k (.tail _ hk)
      have hswap : (j :: i :: is).foldlM step s = .ok t ↔
          (i :: j :: is).foldlM step s = .ok t := by
        simp only [List.foldlM_cons, ← bind_assoc]
        rw [bind_eq_ok, bind_eq_ok]
        exact exists_congr fun u =>
          and_congr_left fun _ => (h.swap hs hi hj hiside hside).symm
      rw [hswap]
      exact h.cons_congr hs hi fun u hu => ih hrest hu

/-- A run does what it does when one side goes first. -/
theorem sorted {is : List ι} (his : ∀ i ∈ is, admits i) {s t : σ} (hs : I s) :
    is.foldlM step s = .ok t ↔
      (is.filter side ++ is.filter (!side ·)).foldlM step s = .ok t := by
  induction is generalizing s with
  | nil => exact Iff.rfl
  | cons i is ih =>
      have hi := his i (.head _)
      have hrest : ∀ k ∈ is, admits k := fun k hk => his k (.tail _ hk)
      rw [h.cons_congr hs hi fun u hu => ih hrest hu]
      cases hside : side i with
      | true =>
          simp only [hside, List.filter_cons, if_true, Bool.not_true,
            Bool.false_eq_true, if_false, List.cons_append]
      | false =>
          simp only [hside, List.filter_cons, if_true, Bool.not_false,
            Bool.false_eq_true, if_false]
          have hpast : ∀ u, (i :: is.filter side).foldlM step s = .ok u ↔
              (is.filter side ++ [i]).foldlM step s = .ok u :=
            fun u => h.past hi hside (fun k hk => by
              rw [List.mem_filter] at hk
              exact ⟨hrest k hk.1, hk.2⟩) hs
          rw [List.append_cons, ← List.cons_append, List.foldlM_append,
            List.foldlM_append, bind_eq_ok, bind_eq_ok]
          exact exists_congr fun u => and_congr_left fun _ => hpast u

/-- It does not matter how the two sides are interleaved. -/
theorem interleaved {is js : List ι} (his : ∀ i ∈ is, admits i)
    (hjs : ∀ j ∈ js, admits j) (hleft : is.filter side = js.filter side)
    (hright : is.filter (!side ·) = js.filter (!side ·)) {s t : σ}
    (hs : I s) :
    is.foldlM step s = .ok t ↔ js.foldlM step s = .ok t := by
  rw [h.sorted his hs, h.sorted hjs hs, hleft, hright]

end Independent

end Aura.Lib
