import Mathlib.Data.List.Basic

/-!
# What a transmitter is for

A pipe is what has been accepted at its far end and what is still to go.
Pushing appends to what is to go, and draining moves symbols across without
touching their order; so what was accepted is at all times the beginning of
what was pushed. A transmit queue is correct when it is one of these.
-/

namespace Aura.Spec

/-- A pipe of symbols. -/
structure Pipe (α : Type) where
  sent : List α
  pending : List α

namespace Pipe

variable {α : Type}

/-- Everything that was ever pushed. -/
def total (p : Pipe α) : List α := p.sent ++ p.pending

def push (p : Pipe α) (xs : List α) : Pipe α :=
  { p with pending := p.pending ++ xs }

def drain (p : Pipe α) (n : Nat) : Pipe α where
  sent := p.sent ++ p.pending.take n
  pending := p.pending.drop n

@[simp] theorem total_push (p : Pipe α) (xs : List α) :
    (p.push xs).total = p.total ++ xs := by
  simp [total, push]

@[simp] theorem total_drain (p : Pipe α) (n : Nat) :
    (p.drain n).total = p.total := by
  simp [total, drain]

theorem sent_isPrefix (p : Pipe α) : p.sent <+: p.total :=
  ⟨p.pending, rfl⟩

end Pipe

end Aura.Spec
