import Aura.Ref.Serial
import Aura.Ref.XferHeap

/-!
# A serial instance and its chunks (serial.c)

`Ref.Serial` takes chunks for values. Here is who has them. The end of
`urpc_serial_open` allocates the one packets are received in and makes it the
receiver. A call and a discovery allocate one each, fill it, hand it to the
queue and forget the pointer, whatever the queue answers; there is nothing that
drops a reference but the queue itself.
-/

namespace Aura.Ref

open Aura.Lib

/-- An instance with its transfer object in memory, and the chunks it handed to
a queue that did not take them. -/
structure SerialMemory where
  port : Port
  world : XferWorld
  lost : List ChunkPtr

/-- `rxb` in `urpc_serial_open`. -/
def receiveBuffer (rxb : AuraChunk) (w : XferWorld) : Res XferWorld := do
  let rx := w.heap.fresh
  let w ← heapStep w (.allocate rxb)
  heapStep w (.setReceiver (some rx))

/-- A filled chunk is handed to the queue. The queue takes over the reference
with the chunk, or the instance is left with it. -/
def SerialMemory.handOver (env : CallEnv) (chunk : AuraChunk)
    (m : SerialMemory) : Res SerialMemory := do
  let p := m.world.heap.fresh
  let world ← heapStep m.world (.allocate chunk)
  let world ← heapStep world (.enqueue p env.ctl env.node)
  let lost := if world.held p = 0 then m.lost else m.lost ++ [p]
  pure { m with world, lost }

/-- The chunk of `urpc_serial_discovery`. -/
def discoveryChunk (env : CallEnv) : Res AuraChunk :=
  match auraChunkAllocate env.mem discoveryRequest.length with
  | none => .error .nullDeref
  | some c => do
      let c ← c.store 0 discoveryRequest
      pure { c with size := discoveryRequest.length }

/-- One event of the instance, and what becomes of its chunks. Reading changes
what is in the receive buffer, not whose it is. -/
def memoryStep (host : Endian) (m : SerialMemory) (e : SerialEvent) :
    Res SerialMemory := do
  let port ← serialStep host m.port e
  match e with
  | .epollin _ _ => pure { m with port }
  | .epollout ws ctl => do
      let world ← heapStep m.world (.epollout ws ctl)
      pure { m with port, world }
  | .call env id => do
      match ← callFrame host env.mem env.grants env.fuel env.L
          m.port.xfer.data id with
      | none => pure { m with port }
      | some chunk => SerialMemory.handOver env chunk { m with port }
  | .discovery env => do
      let chunk ← discoveryChunk env
      SerialMemory.handOver env chunk { m with port }

end Aura.Ref
