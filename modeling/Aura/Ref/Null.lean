import Aura.Ref.List

/-!
# The null transport and its lists (urpcnull.c, urpc.c)

The null transport describes three objects that are static variables, with the
links of the instance's list inside them. The lists are therefore modelled on
the heap they live in: an address is one of the three objects or the head in
an instance, and every node has its two links. Instances are numbered in the
order they are opened; none is ever freed.
-/

namespace Aura.Ref

open Aura.Lib

/-! ## Instances of the null transport -/

/-- Where a `struct list_head` lies: in one of the static objects, or in the
instance with the given number. -/
inductive NullAddr
  | o1
  | o2
  | o3
  | head (k : Nat)
  deriving DecidableEq, Repr

/-- The heap, the number of instances opened, and the array `objects` of each;
`none` is NULL, before the discovery. -/
structure NullState where
  links : Links NullAddr
  opened : Nat
  objects : Nat → Option (List NullAddr)

/-- `urpc_null_discovery`. -/
def urpcNullDiscovery (k : Nat) (H : Links NullAddr) :
    Res (Nat × Links NullAddr) := do
  let H ← listAddTail .o1 (.head k) H
  let H ← listAddTail .o2 (.head k) H
  let H ← listAddTail .o3 (.head k) H
  pure (3, H)

/-- The `list_for_each` of `l_urpc_discovery`, with `slots` pointers left in
the array. -/
def fillNull (H : Links NullAddr) (head : NullAddr) :
    Nat → Option NullAddr → Res (List NullAddr)
  | _, none => .error .nullDeref
  | 0, some pos => if pos = head then pure [] else .error .outOfBounds
  | slots + 1, some pos =>
      if pos = head then pure []
      else do
        let rest ← fillNull H head slots (H.next pos)
        pure (pos :: rest)

/-- `l_urpc_discovery` on instance `k`, as far as lists and arrays go; an
instance that was not opened is the NULL `lua_touserdata` gives. -/
def lUrpcDiscoveryNull (k : Nat) (mem : Bool) (s : NullState) :
    Res NullState :=
  if s.opened ≤ k then .error .nullDeref
  else do
    let (n, links) ← urpcNullDiscovery k s.links
    let found ← fillNull links (.head k) n (links.next (.head k))
    if !mem && !found.isEmpty then .error .nullDeref
    else
      pure { s with
        links
        objects := fun j => if j = k then some found else s.objects j }

/-- `l_urpc_open` with `argc` arguments; `priv` and `inst` answer the two
unchecked `malloc`s. With too few arguments the transport returns NULL, and
no instance comes about. -/
def lUrpcOpenNull (argc : Nat) (priv inst : Bool) (s : NullState) :
    Res NullState :=
  if argc < 2 then pure s
  else if priv && inst then
    pure { links := s.links.init (.head s.opened), opened := s.opened + 1
           objects := fun j => if j = s.opened then none else s.objects j }
  else .error .nullDeref

/-- What happens to the instances of the null transport. -/
inductive NullEvent
  | opens (argc : Nat) (priv inst : Bool)
  | discovers (k : Nat) (mem : Bool)
  deriving DecidableEq, Repr

def nullStep (s : NullState) : NullEvent → Res NullState
  | .opens argc priv inst => lUrpcOpenNull argc priv inst s
  | .discovers k mem => lUrpcDiscoveryNull k mem s

/-- Static variables start with null links. -/
def nullStart : NullState :=
  { links := ⟨fun _ => none, fun _ => none⟩, opened := 0
    objects := fun _ => none }

end Aura.Ref
