import Aura.Lib.Surgery
import Aura.Ref.Mem

/-!
# Linked lists (list.h)

Every `struct list_head` has an address, and the memory keeps two links for
each. The functions are translated assignment by assignment; a link that is
followed has to be there. Nothing tells a head from a node, nor which nodes are
on a list: that is what the callers have to know.

The iteration macros run a body for each node. They are given fuel, and how
much of it they need is a question about the list.
-/

namespace Aura.Ref

open Aura.Lib

variable {α : Type} [DecidableEq α]

/-- `INIT_LIST_HEAD`. -/
def initListHead (ptr : α) (H : Links α) : Links α := H.init ptr

/-! ## Adding -/

/-- `__list_add`: the four assignments, in the order of the source. -/
def listAddBetween (new prev next : α) (H : Links α) : Links α :=
  H.insert new prev next

/-- `list_add`. The head's `next` is dereferenced. -/
def listAdd (new head : α) (H : Links α) : Res (Links α) :=
  match H.next head with
  | none => .error .nullDeref
  | some next => pure (listAddBetween new head next H)

/-- `list_add_tail`. The head's `prev` is dereferenced. -/
def listAddTail (new head : α) (H : Links α) : Res (Links α) :=
  match H.prev head with
  | none => .error .nullDeref
  | some prev => pure (listAddBetween new prev head H)

/-! ## Deleting -/

/-- `__list_del`. -/
def listDelBetween (prev next : α) (H : Links α) : Links α :=
  (H.setPrev next prev).setNext prev next

/-- `__list_del(entry->prev, entry->next)`. -/
def listUnlink (entry : α) (H : Links α) : Res (Links α) :=
  match H.prev entry, H.next entry with
  | some prev, some next => pure (listDelBetween prev next H)
  | _, _ => .error .nullDeref

/-- `list_del`. -/
def listDel (entry : α) (H : Links α) : Res (Links α) := do
  let H ← listUnlink entry H
  pure (H.clear entry)

/-- `list_del_init`. -/
def listDelInit (entry : α) (H : Links α) : Res (Links α) := do
  let H ← listUnlink entry H
  pure (initListHead entry H)

/-- `list_move`. -/
def listMove (list head : α) (H : Links α) : Res (Links α) := do
  let H ← listUnlink list H
  listAdd list head H

/-- `list_move_tail`. -/
def listMoveTail (list head : α) (H : Links α) : Res (Links α) := do
  let H ← listUnlink list H
  listAddTail list head H

/-! ## Joining -/

/-- `list_empty`. -/
def listEmpty (head : α) (H : Links α) : Bool := H.next head = some head

/-- `__list_splice`. -/
def listSpliceBetween (list head : α) (H : Links α) : Res (Links α) :=
  match H.next list, H.prev list, H.next head with
  | some first, some last, some at₀ =>
      let H := (H.setPrev first head).setNext head first
      pure ((H.setNext last at₀).setPrev at₀ last)
  | _, _, _ => .error .nullDeref

/-- `list_splice`. -/
def listSplice (list head : α) (H : Links α) : Res (Links α) :=
  if listEmpty list H then pure H else listSpliceBetween list head H

/-- `list_splice_init`. -/
def listSpliceInit (list head : α) (H : Links α) : Res (Links α) :=
  if listEmpty list H then pure H
  else do
    let H ← listSpliceBetween list head H
    pure (initListHead list H)

/-! ## Iterating -/

/-- A loop that follows one of the links from `pos` until it is at the head;
the result is where it has been. -/
def listWalk (link : α → Option α) (head : α) : Nat → Option α → Res (List α)
  | _, none => .error .nullDeref
  | 0, some _ => .error .outOfFuel
  | fuel + 1, some pos =>
      if pos = head then pure []
      else do
        let rest ← listWalk link head fuel (link pos)
        pure (pos :: rest)

/-- `list_for_each`. -/
def listForEach (head : α) (fuel : Nat) (H : Links α) : Res (List α) :=
  listWalk H.next head fuel (H.next head)

/-- `list_for_each_prev`. -/
def listForEachPrev (head : α) (fuel : Nat) (H : Links α) : Res (List α) :=
  listWalk H.prev head fuel (H.prev head)

section Safe

variable {σ : Type} (links : σ → Links α) (body : α → σ → Res (σ × Bool))
  (head : α)

/-- The turns of `list_for_each_safe`; `n` was read before the body runs, and a
body that answers `true` breaks. -/
def safeLoop : Nat → α → Option α → σ → Res σ
  | 0, _, _, _ => .error .outOfFuel
  | fuel + 1, pos, n, s =>
      if pos = head then pure s
      else do
        let (s, stop) ← body pos s
        if stop then pure s
        else
          match n with
          | none => .error .nullDeref
          | some pos => safeLoop fuel pos ((links s).next pos) s

/-- `list_for_each_safe`, on a state with links in it. -/
def listForEachSafe (fuel : Nat) (s : σ) : Res σ :=
  match (links s).next head with
  | none => .error .nullDeref
  | some pos => safeLoop links body head fuel pos ((links s).next pos) s

end Safe

/-! ## Runs -/

/-- What can be done with lists. -/
inductive ListOp (α : Type)
  | init (ptr : α)
  | add (new head : α)
  | addTail (new head : α)
  | del (entry : α)
  | delInit (entry : α)
  | move (list head : α)
  | moveTail (list head : α)
  | splice (list head : α)
  | spliceInit (list head : α)
  deriving DecidableEq, Repr

def listStep (H : Links α) : ListOp α → Res (Links α)
  | .init ptr => pure (initListHead ptr H)
  | .add new head => listAdd new head H
  | .addTail new head => listAddTail new head H
  | .del entry => listDel entry H
  | .delInit entry => listDelInit entry H
  | .move list head => listMove list head H
  | .moveTail list head => listMoveTail list head H
  | .splice list head => listSplice list head H
  | .spliceInit list head => listSpliceInit list head H

end Aura.Ref
