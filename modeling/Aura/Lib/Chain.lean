import Mathlib.Data.List.Chain

/-!
# Singly linked lists

What it means that some nodes are a list that ends in a null link, and the one
operation on such a list: a node hung on behind the last one. Whatever the link
of the new node was before, what counts is that it is null afterwards.
-/

namespace Aura.Lib

variable {α : Type} {next next' : α → Option α} {a b e : α} {l : List α}

/-- Each of the nodes `l` is linked to the one behind it, and the last one to
none. -/
def NullTerminated (next : α → Option α) (l : List α) : Prop :=
  l.IsChain (fun a b => next a = some b) ∧ ∀ e ∈ l.getLast?, next e = none

theorem nullTerminated_singleton :
    NullTerminated next [a] ↔ next a = none := by
  simp [NullTerminated]

theorem nullTerminated_cons_cons :
    NullTerminated next (a :: b :: l) ↔
      next a = some b ∧ NullTerminated next (b :: l) := by
  simp only [NullTerminated, List.isChain_cons_cons, List.getLast?_cons_cons,
    and_assoc]

/-- A node hung on at the end. -/
theorem NullTerminated.concat (h : NullTerminated next l)
    (he : e ∈ l.getLast?) (hlink : next' e = some b) (hlast : next' b = none)
    (hframe : ∀ a ∈ l, a ≠ e → next' a = next a) :
    NullTerminated next' (l ++ [b]) := by
  constructor
  · refine List.IsChain.append ?_ (List.isChain_singleton b) ?_
    · refine h.1.imp_of_mem_imp fun a c ha _ hac => ?_
      -- a node with another behind it is not the last one
      have hne : a ≠ e := by
        intro hae
        rw [hae, h.2 e he] at hac
        cases hac
      rw [hframe a ha hne, hac]
    · intro x hx y hy
      rw [Option.mem_unique hx he, hlink]
      simpa using hy
  · intro x hx
    rw [List.getLast?_concat] at hx
    cases hx
    exact hlast

end Aura.Lib
