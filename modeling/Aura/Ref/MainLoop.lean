import Aura.Ref.Mem

/-!
# The main loop (main_loop.c)

`Ref.Asyncio` needs of the main loop which events a descriptor is registered
for. What the loop itself does with hooks is here: the pointer the kernel keeps
for a descriptor, and the call through it.

The hooks live at addresses and belong to their owners, who fill them in before
they hand them over. What the kernel answers, and what the stack holds where
`ev` is not written to, are arguments.
-/

namespace Aura.Ref

/-- The address of a `struct aura_epoll_hook`. -/
abbrev HookPtr := Nat

/-- `struct epoll_event`, with what its `data.ptr` holds. -/
structure EpollEvent where
  events : UInt32
  ptr : HookPtr
  deriving DecidableEq, Repr

/-- `struct aura_epoll_hook`, less the name and the userdata. `η` are the
handlers. -/
structure Hook (η : Type) where
  ev : EpollEvent
  fd : Int
  ioHandler : η
  deriving DecidableEq, Repr

/-- A call of a handler: the hook it was made through, and its argument. -/
structure Invocation (η : Type) where
  hook : HookPtr
  ioHandler : η
  ev : EpollEvent
  deriving DecidableEq, Repr

/-- The hooks in memory, and what the kernel keeps for each descriptor of
`efd`. -/
structure MainLoop (η : Type) where
  hooks : HookPtr → Option (Hook η)
  efd : Int → Option EpollEvent

variable {η : Type}

/-- `hook->ev.data.ptr = (void*) hook`. -/
def MainLoop.aim (m : MainLoop η) (p : HookPtr) (h : Hook η) : MainLoop η :=
  { m with hooks := fun q =>
      if q = p then some { h with ev := { h.ev with ptr := p } } else m.hooks q }

/-- What the kernel keeps for `fd` from now on. -/
def MainLoop.watch (m : MainLoop η) (fd : Int) (ev : Option EpollEvent) :
    MainLoop η :=
  { m with efd := fun d => if d = fd then ev else m.efd d }

/-- `aura_add_epollhook`; `ctl` is whether `epoll_ctl` accepts. -/
def MainLoop.addEpollhook (ctl : Bool) (m : MainLoop η) (p : HookPtr) :
    Res (Int × MainLoop η) :=
  match m.hooks p with
  | none => .error .outOfBounds
  | some h =>
      let m := m.aim p h
      if ctl then pure (0, m.watch h.fd (some { h.ev with ptr := p }))
      else pure (1, m)

/-- `aura_drop_epollhook`. A descriptor that is closed leaves the set, whatever
`epoll_ctl` has answered. -/
def MainLoop.dropEpollhook (m : MainLoop η) (p : HookPtr) :
    Res (MainLoop η) :=
  match m.hooks p with
  | none => .error .outOfBounds
  | some h => pure ((m.aim p h).watch h.fd none)

/-- What `epoll_wait` answers for one event at most: an event, 0, or -1. -/
inductive EpollWait
  | event (fd : Int) (events : UInt32)
  | timeout
  | failed
  deriving DecidableEq, Repr

/-- `epoll_wait(efd, &ev, 1, wait_interval)`: the return value, and what is in
`ev` behind it. Nothing is written without an event, and there is none for a
descriptor that is not in the set. -/
def MainLoop.epollWait (m : MainLoop η) (ev : EpollEvent) :
    EpollWait → Int × EpollEvent
  | .event fd events =>
      match m.efd fd with
      | some kept => (1, { events, ptr := kept.ptr })
      | none => (0, ev)
  | .timeout => (0, ev)
  | .failed => (-1, ev)

/-- `aura_loop_once`: the call it makes, if it makes one. `ev` is what the
local of that name holds on entry. -/
def MainLoop.loopOnce (m : MainLoop η) (ev : EpollEvent) (r : EpollWait) :
    Res (Option (Invocation η)) :=
  let (c, ev) := m.epollWait ev r
  if c ≠ 0 then
    match m.hooks ev.ptr with
    | none => .error .outOfBounds
    | some h => pure (some ⟨ev.ptr, h.ioHandler, ev⟩)
  else pure none

/-! ## Runs -/

/-- What is done with the main loop, with the kernel's answers. What a handler
does comes behind the call of it. -/
inductive LoopOp
  | add (ctl : Bool) (p : HookPtr)
  | drop (p : HookPtr)
  | once (ev : EpollEvent) (r : EpollWait)
  deriving DecidableEq, Repr

/-- The loop, and what each `aura_loop_once` so far has called. -/
structure LoopRun (η : Type) where
  loop : MainLoop η
  turns : List (Option (Invocation η))

def loopStep (s : LoopRun η) : LoopOp → Res (LoopRun η)
  | .add ctl p => do
      let (_, loop) ← s.loop.addEpollhook ctl p
      pure { s with loop }
  | .drop p => do
      let loop ← s.loop.dropEpollhook p
      pure { s with loop }
  | .once ev r => do
      let call ← s.loop.loopOnce ev r
      pure { s with turns := s.turns ++ [call] }

/-- One after the other, from a set without descriptors. -/
def loopRun (hooks : HookPtr → Option (Hook η)) (ops : List LoopOp) :
    Res (LoopRun η) :=
  ops.foldlM loopStep ⟨⟨hooks, fun _ => none⟩, []⟩

end Aura.Ref
