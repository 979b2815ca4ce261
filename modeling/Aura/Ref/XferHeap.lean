import Aura.Ref.Asyncio
import Aura.Ref.List

/-!
# The transfer object as it lies in memory (asyncio.c, asyncio.h, chunk.h)

`Ref.Asyncio` takes the queue for a list of chunks. In memory it is a circular
list of nodes that were allocated one by one, each with a pointer to a chunk,
and the chunks count who refers to them. Here is the write side of the same
functions with its pointers: what is followed has to be there, and what was
freed is not. Of the read side there is only the chunk it keeps as its
receiver.

Queue nodes are numbered in the order they are allocated; none is ever freed.
Chunks have addresses of their own, and no address is given out twice.
-/

namespace Aura.Ref

open Aura.Lib

/-- Where a `struct list_head` of a transfer object lies: in the object itself,
or in a `struct aura_chunk_queue`. -/
inductive QueueAddr
  | transferlist
  | node (k : Nat)
  deriving DecidableEq, Repr

abbrev ChunkPtr := Nat

/-- A chunk and its `refcnt`. -/
structure ChunkCell where
  chunk : AuraChunk
  refcnt : Int
  deriving DecidableEq, Repr

/-- The memory of one transfer object: the links of its queue, the number of
nodes allocated so far with the `chunk` field of each, the chunks, of which
`fresh` were allocated so far, and the object's own fields. -/
structure XferHeap where
  links : Links QueueAddr
  nodes : Nat
  chunkOf : Nat → ChunkPtr
  chunks : ChunkPtr → Option ChunkCell
  fresh : Nat
  pos : Nat
  expectBytes : Int
  recv : Option ChunkPtr
  hook : AuraEpollHook

/-! ## References (chunk.h) -/

/-- Following a pointer to a chunk. -/
def XferHeap.chunkAt (s : XferHeap) (p : ChunkPtr) : Res ChunkCell :=
  match s.chunks p with
  | none => .error .outOfBounds
  | some cell => .ok cell

def XferHeap.setChunk (s : XferHeap) (p : ChunkPtr) (cell : Option ChunkCell) :
    XferHeap :=
  { s with chunks := fun q => if q = p then cell else s.chunks q }

/-- A chunk its owner has allocated and filled. -/
def XferHeap.auraChunkAllocate (chunk : AuraChunk) (s : XferHeap) :
    XferHeap :=
  { s.setChunk s.fresh (some ⟨chunk, 1⟩) with fresh := s.fresh + 1 }

/-- `aura_chunk_get`. -/
def XferHeap.auraChunkGet (p : ChunkPtr) (s : XferHeap) : Res XferHeap := do
  let cell ← s.chunkAt p
  let refcnt ← intArith (cell.refcnt + 1)
  pure (s.setChunk p (some { cell with refcnt }))

/-- `aura_chunk_free`. -/
def XferHeap.auraChunkFree (p : ChunkPtr) (s : XferHeap) : Res XferHeap := do
  let _ ← s.chunkAt p
  pure (s.setChunk p none)

/-- `aura_chunk_put`. -/
def XferHeap.auraChunkPut (p : ChunkPtr) (s : XferHeap) : Res XferHeap := do
  let cell ← s.chunkAt p
  let refcnt ← intArith (cell.refcnt - 1)
  let s := s.setChunk p (some { cell with refcnt })
  if 0 = refcnt then s.auraChunkFree p else pure s

/-! ## The queue -/

/-- `aura_epollout` on the object's hook. -/
def XferHeap.auraEpollout (ctl : Bool) (status : Bool) (s : XferHeap)
    (efd : EpollSet) : Int × XferHeap × EpollSet :=
  let (ret, hook, efd) := Ref.auraEpollout ctl efd s.hook status
  (ret, { s with hook }, efd)

/-- The queue and the receiver of `aura_create_async_xfer`. -/
def XferHeap.start (links : Links QueueAddr) (hook : AuraEpollHook) :
    XferHeap :=
  { links := initListHead .transferlist links
    nodes := 0
    chunkOf := fun _ => 0
    chunks := fun _ => none
    fresh := 0
    pos := 0
    expectBytes := 0
    recv := none
    hook }

/-- `aura_async_enqueue_chunk`. The message at its end looks at the chunk. -/
def XferHeap.auraAsyncEnqueueChunk (ctl mem : Bool) (chunk : ChunkPtr)
    (s : XferHeap) (efd : EpollSet) : Res (Int × XferHeap × EpollSet) := do
  let (ret, s, efd) :=
    if listEmpty .transferlist s.links then s.auraEpollout ctl true efd
    else (0, s, efd)
  if ret ≠ 0 then pure (ret, s, efd)
  else if mem then
    let q := s.nodes
    let s := { s with
      nodes := q + 1
      chunkOf := fun k => if k = q then chunk else s.chunkOf k }
    let links ← listAddTail (.node q) .transferlist s.links
    let _ ← s.chunkAt chunk
    pure (0, { s with links }, efd)
  else pure (-12, s, efd)

/-- `aura_async_xfer_set_receiver`. -/
def XferHeap.auraAsyncXferSetReceiver (c : Option ChunkPtr) (s : XferHeap) :
    Res XferHeap := do
  let s ← match s.recv with
    | none => pure s
    | some old => s.auraChunkPut old
  pure { s with recv := c, expectBytes := 0 }

/-- What the walk over the queue changes: memory, the epoll set, the answers of
`write` still to come, and what has left. -/
structure WriteWalk where
  heap : XferHeap
  efd : EpollSet
  ws : List WriteResult
  sent : Sent

/-- One turn of the walk, at the node `i`. `write` gets what is left of the
chunk, and a chunk that is through loses the queue's reference before its node
is deleted. -/
def writeTurn (ctl : Bool) (i : QueueAddr) (t : WriteWalk) :
    Res (WriteWalk × Bool) :=
  match i with
  | .transferlist => .error .outOfBounds
  | .node k => do
      let cell ← t.heap.chunkAt (t.heap.chunkOf k)
      let chunk := cell.chunk
      let ws := t.ws.tail
      match t.ws.headD .eagain with
      | .eagain => pure (t, true)
      | .failed => pure ({ t with ws }, false)
      | .wrote k' => do
          let s := t.heap
          let n := min k' (sizeT (chunk.size - s.pos))
          if 0 < n ∧ chunk.alloc < s.pos + n then .error .outOfBounds
          else
            let bytes := (chunk.data.drop s.pos).take n
            let s := { s with pos := s.pos + n }
            let (s, gone) ←
              if chunk.size = s.pos then do
                let s ← s.auraChunkPut (s.chunkOf k)
                let links ← listDel i s.links
                pure ({ s with links, pos := 0 }, [chunk])
              else pure (s, [])
            let (s, efd) :=
              if listEmpty .transferlist s.links then
                (s.auraEpollout ctl false t.efd).2
              else (s, t.efd)
            pure (⟨s, efd, ws, t.sent.append ⟨bytes, gone⟩⟩, false)

/-- `aura_async_xfer_handler` on `EPOLLOUT`. No list has more nodes than were
allocated. -/
def XferHeap.auraAsyncXferHandlerOut (ctl : Bool) (ws : List WriteResult)
    (s : XferHeap) (efd : EpollSet) : Res WriteWalk :=
  listForEachSafe (fun t => t.heap.links) (writeTurn ctl) .transferlist
    (s.nodes + 1) ⟨s, efd, ws, .nothing⟩

/-! ## Runs -/

/-- A transfer object with its owner: memory, the epoll set, how many
references the owner has to each chunk, and the history of the queue. -/
structure XferWorld where
  heap : XferHeap
  efd : EpollSet
  held : ChunkPtr → Nat
  enqueued : List AuraChunk
  wire : List UInt8
  gone : List AuraChunk

/-- What the owner and the kernel do. -/
inductive HeapEvent
  | allocate (chunk : AuraChunk)
  | get (p : ChunkPtr)
  | put (p : ChunkPtr)
  | setReceiver (c : Option ChunkPtr)
  | enqueue (p : ChunkPtr) (ctl mem : Bool)
  | epollout (ws : List WriteResult) (ctl : Bool)

/-- The owner has one reference more, or one less. -/
def XferWorld.gain (w : XferWorld) (p : ChunkPtr) : ChunkPtr → Nat :=
  fun q => if q = p then w.held p + 1 else w.held q

def XferWorld.lose (w : XferWorld) (p : ChunkPtr) : ChunkPtr → Nat :=
  fun q => if q = p then w.held p - 1 else w.held q

/-- What the owner has left when it hands one over. -/
def XferWorld.hand (w : XferWorld) : Option ChunkPtr → ChunkPtr → Nat
  | none => w.held
  | some p => w.lose p

/-- One event. A queue that takes a chunk, and a receiver, take a reference
over. -/
def heapStep (w : XferWorld) : HeapEvent → Res XferWorld
  | .allocate chunk =>
      pure { w with
        heap := w.heap.auraChunkAllocate chunk
        held := w.gain w.heap.fresh }
  | .get p => do
      let heap ← w.heap.auraChunkGet p
      pure { w with heap, held := w.gain p }
  | .put p => do
      let heap ← w.heap.auraChunkPut p
      pure { w with heap, held := w.lose p }
  | .setReceiver c => do
      let heap ← w.heap.auraAsyncXferSetReceiver c
      pure { w with heap, held := w.hand c }
  | .enqueue p ctl mem => do
      let (ret, heap, efd) ← w.heap.auraAsyncEnqueueChunk ctl mem p w.efd
      if ret = 0 then do
        let cell ← heap.chunkAt p
        pure { w with
          heap, efd
          held := w.lose p
          enqueued := w.enqueued ++ [cell.chunk] }
      else pure { w with heap, efd }
  | .epollout ws ctl => do
      let t ← w.heap.auraAsyncXferHandlerOut ctl ws w.efd
      pure { w with
        heap := t.heap, efd := t.efd
        wire := w.wire ++ t.sent.bytes
        gone := w.gone ++ t.sent.chunks }

end Aura.Ref
