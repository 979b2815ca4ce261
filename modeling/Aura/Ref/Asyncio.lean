import Aura.Ref.Chunk

/-!
# The asynchronous transfer layer (asyncio.c, main_loop.c)

An `aura_async_xfer` is the read and the write side of one descriptor. The
write side is a queue of chunks and an offset into the one at its head; the
read side is a receive buffer, the number of bytes it still waits for, and a
callback that runs when that number reaches zero.

The callback is a function pointer into a plugin, and `data` the plugin's own
state: both are parameters here. What the kernel answers to `read`, `write`
and `epoll_ctl` and what the allocator answers are arguments of each
operation, so a run is a choice of operations and of answers.
-/

namespace Aura.Ref

open Aura.Lib

/-! ## Event masks and the kernel's copy of them -/

/-- The bits of an epoll event mask this code uses. -/
structure EpollEvents where
  epollin : Bool
  epollout : Bool
  deriving DecidableEq, Repr

/-- `struct aura_epoll_hook`: the descriptor and the mask the code believes is
registered for it. -/
structure AuraEpollHook where
  fd : Int
  events : EpollEvents
  deriving DecidableEq, Repr

/-- The kernel's side of an epoll descriptor: the interest registered for each
descriptor in the set. -/
abbrev EpollSet := Int → Option EpollEvents

/-- `aura_epollout`. The hook's mask changes before `epoll_ctl` is asked, and
stays changed when it refuses (`ctl` is whether it accepts). -/
def auraEpollout (ctl : Bool) (efd : EpollSet) (hook : AuraEpollHook)
    (status : Bool) : Int × AuraEpollHook × EpollSet :=
  let hook := { hook with events := { hook.events with epollout := status } }
  if ctl then (0, hook, fun fd => if fd = hook.fd then some hook.events else efd fd)
  else (1, hook, efd)

/-- `aura_add_epollhook`. -/
def auraAddEpollhook (ctl : Bool) (efd : EpollSet) (hook : AuraEpollHook) :
    Int × EpollSet :=
  if ctl then (0, fun fd => if fd = hook.fd then some hook.events else efd fd)
  else (1, efd)

/-! ## The transfer object -/

/-- `struct aura_async_xfer`. `handle_data` is one of the callbacks `η`, and
`data` the state `σ` the plugin keeps behind its `void*`. The receive buffer
is the one `aura_async_xfer_set_receiver` put there before the first read. -/
structure AuraAsyncXfer (η σ : Type) where
  transferlist : List AuraChunk
  pos : Nat
  expectBytes : Int
  recv : AuraChunk
  hook : AuraEpollHook
  data : σ
  handleData : η

/-- What `write` answers: a count, -1 with `EAGAIN`, or -1 with anything
else. -/
inductive WriteResult
  | wrote (k : Nat)
  | eagain
  | failed
  deriving DecidableEq, Repr

/-- What `read` answers: the bytes it stored, or -1. -/
inductive ReadResult
  | got (bytes : List UInt8)
  | failed
  deriving DecidableEq, Repr

/-- What leaves a transfer object during one `EPOLLOUT`: the bytes the
descriptor accepted and the chunks taken off the queue. -/
structure Sent where
  bytes : List UInt8
  chunks : List AuraChunk
  deriving DecidableEq, Repr

def Sent.nothing : Sent := ⟨[], []⟩

/-- What two stretches of the walk sent, in order. -/
def Sent.append (a b : Sent) : Sent := ⟨a.bytes ++ b.bytes, a.chunks ++ b.chunks⟩

variable {η σ : Type}

/-- `aura_create_async_xfer`; `none` is NULL. `mem` answers `malloc`, `add` and
`mod` the two `epoll_ctl`s. The receive buffer, the plugin's data and its
callback are what the plugin puts there before anything is received. A hook
that was added stays in the set when its mask cannot be set. -/
def auraCreateAsyncXfer (mem add mod : Bool) (efd : EpollSet)
    (hook : AuraEpollHook) (recv : AuraChunk) (data : σ) (handleData : η) :
    Option (AuraAsyncXfer η σ) × EpollSet :=
  if mem then
    let (ret, efd) := auraAddEpollhook add efd hook
    if ret ≠ 0 then (none, efd)
    else
      let (ret, hook, efd) := auraEpollout mod efd hook false
      if ret ≠ 0 then (none, efd)
      else
        (some { transferlist := [], pos := 0, expectBytes := 0, recv, hook
                data, handleData }, efd)
  else (none, efd)

/-- The walk over `transferlist`. `kept` are the queued chunks behind the
cursor, `rest` those from the cursor on. A `write` the list of answers has
none for gets `EAGAIN`. The kernel never accepts more than it was offered,
and what it is offered is `size - pos` as a `size_t`; bytes past the block
are nobody's. -/
def writeLoop (ctl : Bool) :
    List AuraChunk → List AuraChunk → List WriteResult → EpollSet →
      AuraAsyncXfer η σ → Res (Sent × AuraAsyncXfer η σ × EpollSet)
  | kept, [], _, efd, x => pure (.nothing, { x with transferlist := kept }, efd)
  | kept, chunk :: rest, ws, efd, x =>
      match ws.headD .eagain with
      | .eagain =>
          pure (.nothing, { x with transferlist := kept ++ chunk :: rest }, efd)
      | .failed =>
          -- no break: the walk goes on to the next chunk
          writeLoop ctl (kept ++ [chunk]) rest ws.tail efd x
      | .wrote k => do
          let n := min k (sizeT (chunk.size - x.pos))
          if 0 < n ∧ chunk.alloc < x.pos + n then .error .outOfBounds
          else
            let bytes := (chunk.data.drop x.pos).take n
            let x := { x with pos := x.pos + n }
            if chunk.size = x.pos then
              let x := { x with pos := 0 }
              -- only a removal can leave the list empty
              let (x, efd) :=
                if (kept ++ rest).isEmpty then
                  let (_, hook, efd) := auraEpollout ctl efd x.hook false
                  ({ x with hook }, efd)
                else (x, efd)
              let (sent, x, efd) ← writeLoop ctl kept rest ws.tail efd x
              pure (Sent.append ⟨bytes, [chunk]⟩ sent, x, efd)
            else
              let (sent, x, efd) ←
                writeLoop ctl (kept ++ [chunk]) rest ws.tail efd x
              pure (Sent.append ⟨bytes, []⟩ sent, x, efd)

/-- `aura_async_xfer_handler` on `EPOLLOUT`. -/
def auraAsyncXferHandlerOut (ctl : Bool) (ws : List WriteResult)
    (efd : EpollSet) (x : AuraAsyncXfer η σ) :
    Res (Sent × AuraAsyncXfer η σ × EpollSet) :=
  writeLoop ctl [] x.transferlist ws efd x

/-- `aura_async_xfer_handler` on `EPOLLIN`. The kernel has stored the bytes
behind those already there; it never stores more than the `expect_bytes` it
was given, so what remains to be expected needs no wrap. -/
def auraAsyncXferHandlerIn
    (callback : η → AuraAsyncXfer η σ → Res (AuraAsyncXfer η σ))
    (r : ReadResult) (x : AuraAsyncXfer η σ) : Res (AuraAsyncXfer η σ) :=
  match r with
  | .failed => pure x
  | .got bytes => do
      let recv ← x.recv.store x.recv.size bytes
      let x := { x with
        expectBytes := x.expectBytes - bytes.length
        recv := { recv with size := recv.size + bytes.length } }
      if x.expectBytes = 0 then callback x.handleData x else pure x

/-- `aura_async_xfer_handler`, on the events `ev`: reading goes before writing,
and anything else is only reported. -/
def auraAsyncXferHandler
    (callback : η → AuraAsyncXfer η σ → Res (AuraAsyncXfer η σ))
    (ev : EpollEvents) (r : ReadResult) (ws : List WriteResult) (ctl : Bool)
    (efd : EpollSet) (x : AuraAsyncXfer η σ) :
    Res (Sent × AuraAsyncXfer η σ × EpollSet) :=
  if ev.epollin then do
    let x ← auraAsyncXferHandlerIn callback r x
    pure (.nothing, x, efd)
  else if ev.epollout then auraAsyncXferHandlerOut ctl ws efd x
  else pure (.nothing, x, efd)

/-- `aura_async_enqueue_chunk`: the return code is that of `aura_epollout` when
it fails, and `-ENOMEM` when the queue node cannot be allocated (`mem`). -/
def auraAsyncEnqueueChunk (ctl mem : Bool) (efd : EpollSet)
    (x : AuraAsyncXfer η σ) (chunk : AuraChunk) :
    Int × AuraAsyncXfer η σ × EpollSet :=
  let (ret, x, efd) :=
    if x.transferlist.isEmpty then
      let (ret, hook, efd) := auraEpollout ctl efd x.hook true
      (ret, { x with hook }, efd)
    else (0, x, efd)
  if ret ≠ 0 then (ret, x, efd)
  else if mem then
    (0, { x with transferlist := x.transferlist ++ [chunk] }, efd)
  else (-12, x, efd)

/-- `aura_async_expect_bytes`. The request is compared with the whole
allocation, in `size_t` and then as an `int`. The return code is that of the
reallocation; no caller looks at it. -/
def auraAsyncExpectBytes (g : Grant) (x : AuraAsyncXfer η σ) (n : Int) :
    Res (Int × AuraAsyncXfer η σ) := do
  let delta := cInt (x.recv.alloc - n)
  if delta < 0 then
    let minus ← intArith (-delta)
    let extra ← intArith (minus * 2)
    let (ret, recv) ← auraChunkRealloc g x.recv extra
    pure (ret, { x with recv, expectBytes := cInt n })
  else pure (0, { x with expectBytes := cInt n })

/-- `aura_async_xfer_reset_receiver`. -/
def AuraAsyncXfer.resetReceiver (x : AuraAsyncXfer η σ) : AuraAsyncXfer η σ :=
  { x with recv := { x.recv with size := 0 } }

end Aura.Ref
