import Aura.Ref.Asyncio
import Aura.Ref.Datahelpers

/-!
# The serial transport (serial.c)

A serial instance receives packets `[`, length, body through a state machine
driven by the transfer layer, one callback per piece it waited for. Two
callbacks take turns: one reads the feature packet a device answers a
discovery with, the other everything after it. Which of the packets describe
objects and which are replies is decided by one field, `state`: zero while a
discovery or a reply is awaited, anything else otherwise.

Calls are framed in the chunk the packer returns, around the bytes it
reserved, and queued.
-/

namespace Aura.Ref

open Aura.Lib

/-! ## Objects and instances (urpc.h) -/

/-- `struct urpc_object`; `none` is NULL. The caches are filled by the urpc
plugin once the discovery is over. -/
structure UrpcObject where
  flags : UInt8
  name : Option (List UInt8)
  args : Option (List UInt8)
  acache : Option (List CacheFn)
  reply : Option (List UInt8)
  rcache : Option (List CacheFn)
  deriving DecidableEq, Repr

/-- `struct urpc_instance`: the list the transport appends to, and the array
the urpc plugin builds from it. -/
structure UrpcInstance where
  objlist : List UrpcObject
  objects : List UrpcObject
  deriving DecidableEq, Repr

/-- The receive states. -/
inductive RxState
  | waitStart
  | getLen
  | getBody
  | discovery
  deriving DecidableEq, Repr

/-- `struct serialinstance`, less its links to the transfer object. -/
structure SerialInstance where
  swap : Bool
  idSz : Int
  szSz : Int
  rxstate : RxState
  state : Int
  objcount : Nat
  inst : UrpcInstance
  deriving DecidableEq, Repr

/-- The two `handle_data` callbacks. -/
inductive Handler
  | packets
  | discoveryInit
  deriving DecidableEq, Repr

abbrev SerialXfer := AuraAsyncXfer Handler SerialInstance

def magicStart : UInt8 := chr '['

def magicStop : UInt8 := chr ']'

/-! ## Reading a packet -/

/-- `number_to_int(&data[off], n)`: host order, and 0 for a width it does not
know. -/
def numberToInt (host : Endian) (data : List UInt8) (off : Nat) (n : Int) :
    Res Nat :=
  if n = 1 then loadWord 1 host (data.drop off)
  else if n = 2 then loadWord 2 host (data.drop off)
  else if n = 4 then loadWord 4 host (data.drop off)
  else pure 0

/-- `if (strlen(s)) field = strdup(s)`. -/
def dupNonEmpty (s : List UInt8) : Option (List UInt8) :=
  if s = [] then none else some s

/-- The object in a discovery packet whose body starts at `s`. Its id is read
and dropped; the two caches are left as `malloc` gave them. `malloc` and
`strdup` are taken to succeed. -/
def parseObject (data : List UInt8) (s : Nat) : Res UrpcObject := do
  let flags ← loadByte data s
  let _id ← loadByte data (s + 1)
  let name ← cstrAt data (s + 2)
  let args ← cstrAt data (s + 2 + name.length + 1)
  let reply ← cstrAt data (s + 2 + name.length + 1 + args.length + 1)
  pure { flags
         name := dupNonEmpty name
         args := dupNonEmpty args
         acache := none
         reply := dupNonEmpty reply
         rcache := none }

/-- The tail both exits of `STATE_GET_BODY` share. -/
def nextPacket (x : SerialXfer) : SerialXfer :=
  { x.resetReceiver with
    expectBytes := 1
    data := { x.data with rxstate := .waitStart } }

/-- `STATE_GET_BODY`, once the body is complete. -/
def getBody (host : Endian) (x : SerialXfer) : Res SerialXfer := do
  if x.data.state ≠ 0 then
    let state ← intArith (x.data.state + 1)
    pure (nextPacket { x with data := { x.data with state } })
  else
    let n ← numberToInt host x.recv.data 1 x.data.szSz
    if cInt n = 1 then
      let state ← intArith (x.data.state + 1)
      pure (nextPacket { x with data := { x.data with state } })
    else if 1 + x.data.szSz < 0 then .error .outOfBounds
    else
      let o ← parseObject x.recv.data (1 + x.data.szSz).toNat
      let inst := { x.data.inst with objlist := x.data.inst.objlist ++ [o] }
      pure (nextPacket { x with
        data := { x.data with inst, objcount := x.data.objcount + 1 } })

/-- `urpc_xfer_handler_packets`. -/
def urpcXferHandlerPackets (host : Endian) (g : Grant) (x : SerialXfer) :
    Res SerialXfer :=
  match x.data.rxstate with
  | .waitStart => do
      let b ← loadByte x.recv.data 0
      if b ≠ magicStart then pure { x.resetReceiver with expectBytes := 1 }
      else
        let x := { x with data := { x.data with rxstate := .getLen } }
        let (_, x) ← auraAsyncExpectBytes g x x.data.szSz
        pure x
  | .getLen => do
      let x := { x with data := { x.data with rxstate := .getBody } }
      let n ← numberToInt host x.recv.data 1 x.data.szSz
      let (_, x) ← auraAsyncExpectBytes g x (cInt n)
      pure x
  | .getBody => getBody host x
  | .discovery => pure x

/-- `urpc_xfer_handler_discovery_init`. The sizes are `char`s, and `char` is
signed. -/
def urpcXferHandlerDiscoveryInit (host : Endian) (g : Grant)
    (x : SerialXfer) : Res SerialXfer :=
  match x.data.rxstate with
  | .waitStart => do
      let b ← loadByte x.recv.data 0
      if b ≠ magicStart then pure { x.resetReceiver with expectBytes := 1 }
      else
        let x := { x with data := { x.data with rxstate := .discovery } }
        let (_, x) ← auraAsyncExpectBytes g x 5
        pure x
  | .discovery => do
      let stag ← loadByte x.recv.data 1
      let itag ← loadByte x.recv.data 2
      let etag ← loadByte x.recv.data 3
      let swap :=
        (host = .little && etag = chr 'b') || (host = .big && etag = chr 'l')
      pure { x.resetReceiver with
        expectBytes := 1
        handleData := .packets
        data := { x.data with
          szSz := stag.toBitVec.toInt
          idSz := itag.toBitVec.toInt
          swap
          rxstate := .waitStart } }
  | .getLen | .getBody => pure x

/-- The call through `x->handle_data`. -/
def handleData (host : Endian) (g : Grant) (h : Handler) (x : SerialXfer) :
    Res SerialXfer :=
  match h with
  | .packets => urpcXferHandlerPackets host g x
  | .discoveryInit => urpcXferHandlerDiscoveryInit host g x

/-! ## Framing a call -/

/-- The loop of `csum`, from the last byte down. -/
def csumLoop (data : List UInt8) : Nat → UInt8 → Res UInt8
  | 0, sum => pure sum
  | len + 1, sum => do
      let b ← loadByte data len
      csumLoop data len (sum + b)

/-- `csum`. -/
def csum (data : List UInt8) (len : Nat) : Res UInt8 := csumLoop data len 0

/-- What `urpc_serial_call` writes in front of the payload of the chunk the
packer returned: start byte, length, id. -/
def writeHeader (id : Nat) (chunk : AuraChunk) : Res AuraChunk := do
  let chunk ← chunk.store 0 [magicStart]
  let chunk ← chunk.store 1 [toByte (chunk.size - 1)]
  chunk.store 2 [toByte id]

/-- And behind it: checksum and stop byte. The room for the two is not looked
at. -/
def writeTrailer (chunk : AuraChunk) : Res AuraChunk := do
  let sum ← csum (chunk.data.drop 1) (sizeT (chunk.size - 1))
  let chunk ← chunk.store chunk.size [sum]
  let chunk := { chunk with size := chunk.size + 1 }
  let chunk ← chunk.store chunk.size [magicStop]
  pure { chunk with size := chunk.size + 1 }

/-- All that is written around the payload. -/
def sealFrame (id : Nat) (chunk : AuraChunk) : Res AuraChunk := do
  let chunk ← writeHeader id chunk
  writeTrailer chunk

/-- The object a call names: `inst->objects[id]`. -/
def objectAt (s : SerialInstance) (id : Nat) : Res UrpcObject :=
  match s.inst.objects[id]? with
  | some o => .ok o
  | none => .error .outOfBounds

/-- The arguments of a call, packed behind the bytes of the header; `none` when
the packer returned NULL. A header of negative size puts the payload, or the
trailer of an empty one, in front of the chunk. -/
def packCall (host : Endian) (mem : Grant) (grants : Nat → Grant)
    (fuel : Nat) (L : LuaState) (s : SerialInstance)
    (acache : Option (List CacheFn)) : Res (Option AuraChunk) := do
  let offset := 1 + s.szSz + s.idSz
  if offset < 0 then
    match auraChunkAllocate mem 256 with
    | none => pure none
    | some _ => .error .outOfBounds
  else urpcPackData host mem grants fuel L 256 offset.toNat acache false

/-- A call up to where its header is written. -/
def callHeader (host : Endian) (mem : Grant) (grants : Nat → Grant)
    (fuel : Nat) (L : LuaState) (s : SerialInstance) (id : Nat) :
    Res (Option AuraChunk) := do
  let o ← objectAt s id
  match ← packCall host mem grants fuel L s o.acache with
  | none => pure none
  | some chunk => some <$> writeHeader id chunk

/-- The frame of a call, up to the point where it is queued. -/
def callFrame (host : Endian) (mem : Grant) (grants : Nat → Grant)
    (fuel : Nat) (L : LuaState) (s : SerialInstance) (id : Nat) :
    Res (Option AuraChunk) := do
  match ← callHeader host mem grants fuel L s id with
  | none => pure none
  | some chunk => some <$> writeTrailer chunk

/-! ## Runs of an instance -/

/-- A serial instance together with the kernel's view of its descriptor. -/
structure Port where
  xfer : SerialXfer
  efd : EpollSet

/-- What a call needs from its surroundings: the Lua stack, the allocator's
answers, the fuel of the packing loop, and the answers to the enqueue. -/
structure CallEnv where
  L : LuaState
  mem : Grant
  grants : Nat → Grant
  fuel : Nat
  ctl : Bool
  node : Bool

/-- `urpc_serial_call` up to its wait loop. The code of the enqueue is not
looked at, and a method with a reply puts `state` back to zero. -/
def urpcSerialCall (host : Endian) (env : CallEnv) (id : Nat) (p : Port) :
    Res Port := do
  let o ← objectAt p.xfer.data id
  match ← callFrame host env.mem env.grants env.fuel env.L p.xfer.data id with
  | none => pure p
  | some chunk =>
      let (_, xfer, efd) :=
        auraAsyncEnqueueChunk env.ctl env.node p.efd p.xfer chunk
      if o.reply.isSome then
        pure ⟨{ xfer with data := { xfer.data with state := 0 } }, efd⟩
      else pure ⟨xfer, efd⟩

/-- The request a discovery sends. -/
def discoveryRequest : List UInt8 := [magicStart, 0, 0, magicStop]

/-- `urpc_serial_discovery` up to its wait loop. Neither the list nor what the
receive buffer holds is touched. -/
def urpcSerialDiscovery (env : CallEnv) (p : Port) : Res Port := do
  match auraChunkAllocate env.mem discoveryRequest.length with
  | none => .error .nullDeref
  | some c =>
      let c ← c.store 0 discoveryRequest
      let c := { c with size := discoveryRequest.length }
      let x := { p.xfer with data := { p.xfer.data with objcount := 0 } }
      let (_, x, efd) := auraAsyncEnqueueChunk env.ctl env.node p.efd x c
      let (_, x) ← auraAsyncExpectBytes (env.grants 0) x 1
      let data := { x.data with rxstate := .waitStart, state := 0 }
      pure ⟨{ x with handleData := .discoveryInit, data }, efd⟩

/-- What can happen to an instance between two states of its owner's loop. -/
inductive SerialEvent
  | epollin (r : ReadResult) (g : Grant)
  | epollout (ws : List WriteResult) (ctl : Bool)
  | call (env : CallEnv) (id : Nat)
  | discovery (env : CallEnv)

/-- One event. The wait loops of calls and discoveries are the events that
follow them. -/
def serialStep (host : Endian) (p : Port) : SerialEvent → Res Port
  | .epollin r g => do
      let xfer ← auraAsyncXferHandlerIn (handleData host g) r p.xfer
      pure { p with xfer }
  | .epollout ws ctl => do
      let (_, xfer, efd) ← auraAsyncXferHandlerOut ctl ws p.efd p.xfer
      pure ⟨xfer, efd⟩
  | .call env id => urpcSerialCall host env id p
  | .discovery env => urpcSerialDiscovery env p

end Aura.Ref
