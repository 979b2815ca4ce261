import Aura.Lib.Collector
import Aura.Ref.Serial

/-!
# The serial receiver as a collector

`aura_async_xfer_handler` counts the bytes it still expects down to zero and
then calls the handler; the handler looks at what has been collected and says
how much more it wants. That is a collector, and so what it does with a stream
does not depend on how the stream is cut into reads (`receive_eq_feed`,
`receive_congr`).

The allocator could still tell two deliveries apart, when a piece does not fit
the receive buffer and the buffer has to grow. Nothing is asked of it on
streams whose pieces fit (`FramesFit`).
-/

namespace Aura.Proofs

open Aura.Lib Aura.Ref

/-! ## The collector -/

/-- What a handler finds when it is called. -/
structure Call where
  handler : Handler
  rxstate : RxState
  contents : List UInt8
  deriving DecidableEq, Repr

def callOf (x : SerialXfer) : Call :=
  ⟨x.handleData, x.data.rxstate, x.recv.payload⟩

/-- The bytes of a read, behind those already there. -/
def absorbBytes (x : SerialXfer) (bytes : List UInt8) : Res SerialXfer := do
  let recv ← x.recv.store x.recv.size bytes
  pure { x with
    expectBytes := x.expectBytes - bytes.length
    recv := { recv with size := recv.size + bytes.length } }

/-- What is left of a transfer object with `bytes` in its buffer. -/
def holding (x : SerialXfer) (data : List UInt8) (n : Nat) : SerialXfer :=
  { x with expectBytes := x.expectBytes - n, recv := ⟨data, x.recv.size + n⟩ }

theorem absorbBytes_eq (x : SerialXfer) (bytes : List UInt8) :
    absorbBytes x bytes = (storeBytes x.recv.data x.recv.size bytes).map
      fun data => holding x data bytes.length := by
  unfold absorbBytes AuraChunk.store
  cases storeBytes x.recv.data x.recv.size bytes <;> rfl

theorem absorbBytes_eq_ok {x y : SerialXfer} {bytes : List UInt8} :
    absorbBytes x bytes = .ok y ↔ ∃ data,
      storeBytes x.recv.data x.recv.size bytes = .ok data ∧
        y = holding x data bytes.length := by
  rw [absorbBytes_eq]
  cases storeBytes x.recv.data x.recv.size bytes with
  | error e => simp [Except.map]
  | ok data => simp [Except.map, eq_comm]

theorem absorbBytes_data {x y : SerialXfer} {bytes : List UInt8}
    (h : absorbBytes x bytes = .ok y) :
    y.data = x.data ∧ y.handleData = x.handleData := by
  obtain ⟨data, _, rfl⟩ := absorbBytes_eq_ok.mp h
  exact ⟨rfl, rfl⟩

theorem absorbBytes_append (x : SerialXfer) (bs cs : List UInt8) :
    absorbBytes x (bs ++ cs)
      = absorbBytes x bs >>= fun y => absorbBytes y cs := by
  rw [absorbBytes_eq, absorbBytes_eq, storeBytes_append]
  cases storeBytes x.recv.data x.recv.size bs with
  | error e => rfl
  | ok d =>
      show _ = absorbBytes (holding x d bs.length) cs
      rw [absorbBytes_eq]
      show (storeBytes d (x.recv.size + bs.length) cs).map _
        = (storeBytes d (x.recv.size + bs.length) cs).map _
      congr 1
      funext data
      simp only [holding, List.length_append, Nat.add_assoc]
      congr 1
      push_cast
      omega

/-- The receiver, with the allocator's answer to what a call may ask. -/
def receiver (host : Endian) (g : Grant) :
    Collector SerialXfer UInt8 Fault Call where
  need x := x.expectBytes.toNat
  absorb := absorbBytes
  fire x := handleData host g x.handleData x
  call := callOf
  need_absorb h := by
    obtain ⟨data, _, rfl⟩ := absorbBytes_eq_ok.mp h
    simp only [holding]
    omega
  absorb_append := absorbBytes_append

/-! ## Deliveries -/

/-- One read, and the allocator's answer to the call it may lead to. -/
abbrev SerialRead := ReadResult × Grant

/-- The calls of the handler a read leads to: one or none. -/
def callsDuring (r : ReadResult) (x : SerialXfer) : List Call :=
  match r with
  | .failed => []
  | .got bytes =>
      match absorbBytes x bytes with
      | .ok y => if y.expectBytes = 0 then [callOf y] else []
      | .error _ => []

/-- `EPOLLIN` after `EPOLLIN`, with the calls of the handler. -/
def receive (host : Endian) :
    SerialXfer → List SerialRead → Res (SerialXfer × List Call)
  | x, [] => pure (x, [])
  | x, (r, g) :: rs => do
      let y ← auraAsyncXferHandlerIn (handleData host g) r x
      let (z, log) ← receive host y rs
      pure (z, callsDuring r x ++ log)

/-- The bytes a delivery brings. -/
def bytesOf (rs : List SerialRead) : List UInt8 :=
  rs.flatMap fun r =>
    match r.1 with
    | .failed => []
    | .got bytes => bytes

/-- What `read` promises: at least one byte or -1, and no more than asked
for. -/
def Delivered (host : Endian) : SerialXfer → List SerialRead → Prop
  | _, [] => True
  | x, (.failed, _) :: rs => Delivered host x rs
  | x, (.got bytes, g) :: rs =>
      0 < bytes.length ∧ (bytes.length : Int) ≤ x.expectBytes ∧
        ∀ y, auraAsyncXferHandlerIn (handleData host g) (.got bytes) x = .ok y →
          Delivered host y rs

instance decidableDelivered (host : Endian) :
    ∀ (x : SerialXfer) (rs : List SerialRead), Decidable (Delivered host x rs)
  | _, [] => isTrue trivial
  | x, (.failed, _) :: rs => decidableDelivered host x rs
  | x, (.got bytes, g) :: rs =>
      match hy : auraAsyncXferHandlerIn (handleData host g) (.got bytes) x with
      | .error _ =>
          decidable_of_iff
            (0 < bytes.length ∧ (bytes.length : Int) ≤ x.expectBytes)
            (by simp [Delivered, hy])
      | .ok y =>
          have := decidableDelivered host y rs
          decidable_of_iff (0 < bytes.length ∧
            (bytes.length : Int) ≤ x.expectBytes ∧ Delivered host y rs)
            (by simp [Delivered, hy])

/-- A read, as the collector sees it. -/
def readOf (host : Endian) (r : SerialRead) :
    Collector.Read SerialXfer UInt8 Fault :=
  (match r.1 with
    | .failed => none
    | .got bytes => some bytes,
   fun x => handleData host r.2 x.handleData x)

theorem stream_readOf (host : Endian) (rs : List SerialRead) :
    Collector.stream (rs.map (readOf host)) = bytesOf rs := by
  induction rs with
  | nil => rfl
  | cons r rs ih =>
      obtain ⟨r, g⟩ := r
      cases r with
      | failed => exact ih
      | got bytes =>
          rw [List.map_cons, bytesOf, List.flatMap_cons]
          exact (Collector.stream_some ..).trans (congrArg (bytes ++ ·) ih)

/-- A read that brings bytes: they are absorbed, and the handler is called if
nothing more is waited for. -/
theorem handlerIn_got {host : Endian} {g : Grant} {x : SerialXfer}
    {bytes : List UInt8} :
    auraAsyncXferHandlerIn (handleData host g) (.got bytes) x
      = absorbBytes x bytes >>= fun y =>
          if y.expectBytes = 0 then handleData host g y.handleData y
          else pure y := by
  rw [auraAsyncXferHandlerIn, absorbBytes, bind_assoc]
  rfl

theorem handlerIn_eq_readBy {host : Endian} {g₀ g : Grant} {x : SerialXfer}
    {bytes : List UInt8} (hle : (bytes.length : Int) ≤ x.expectBytes) :
    (receiver host g₀).readBy (fun y => handleData host g y.handleData y) x
        bytes
      = (auraAsyncXferHandlerIn (handleData host g) (.got bytes) x).map
          fun y => (y, callsDuring (.got bytes) x) := by
  rw [handlerIn_got]
  unfold Collector.readBy
  show absorbBytes x bytes >>= _ = _
  cases hy : absorbBytes x bytes with
  | error e => rfl
  | ok y =>
      have hneed : (receiver host g₀).need y = 0 ↔ y.expectBytes = 0 := by
        obtain ⟨data, _, rfl⟩ := absorbBytes_eq_ok.mp hy
        simp only [receiver, holding]
        omega
      have hcalls : callsDuring (.got bytes) x
          = if y.expectBytes = 0 then [callOf y] else [] := by
        rw [callsDuring, hy]
      by_cases hz : y.expectBytes = 0
      · rw [hcalls, ok_bind, ok_bind, if_pos hz, if_pos hz,
          if_pos (hneed.mpr hz)]
        show handleData host g y.handleData y >>= _ = _
        cases handleData host g y.handleData y <;> rfl
      · rw [hcalls, ok_bind, ok_bind, if_neg hz, if_neg hz,
          if_neg (mt hneed.mp hz)]
        rfl

theorem receive_eq_deliver (host : Endian) (g₀ : Grant) {x : SerialXfer}
    {rs : List SerialRead} (h : Delivered host x rs) :
    (receiver host g₀).Admissible x (rs.map (readOf host)) ∧
      receive host x rs
        = (receiver host g₀).deliver x (rs.map (readOf host)) := by
  induction rs generalizing x with
  | nil => exact ⟨trivial, rfl⟩
  | cons r rs ih =>
      obtain ⟨r, g⟩ := r
      cases r with
      | failed =>
          obtain ⟨hadm, hsame⟩ := ih h
          refine ⟨hadm, ?_⟩
          rw [receive, auraAsyncXferHandlerIn, pure_bind, hsame]
          show _ >>= _ = (receiver host g₀).deliver x (rs.map (readOf host))
          cases (receiver host g₀).deliver x (rs.map (readOf host)) <;> rfl
      | got bytes =>
          obtain ⟨hpos, hle, hnext⟩ := h
          have hread : (receiver host g₀).readBy (readOf host (.got bytes, g)).2
              x bytes = _ := handlerIn_eq_readBy hle
          cases hy : auraAsyncXferHandlerIn (handleData host g) (.got bytes) x with
          | error e =>
              rw [hy] at hread
              refine ⟨⟨hpos, show bytes.length ≤ x.expectBytes.toNat by omega,
                fun t log ht => ?_⟩, ?_⟩
              · cases hread.symm.trans ht
              · rw [receive, hy]
                show _ = (receiver host g₀).readBy
                  (readOf host (.got bytes, g)).2 x bytes >>= _
                rw [hread]
                rfl
          | ok y =>
              rw [hy] at hread
              obtain ⟨hadm, hsame⟩ := ih (hnext y hy)
              refine ⟨⟨hpos, show bytes.length ≤ x.expectBytes.toNat by omega,
                fun t log ht => ?_⟩, ?_⟩
              · cases hread.symm.trans ht
                exact hadm
              · rw [receive, hy, ok_bind, hsame]
                show _ = (receiver host g₀).readBy
                  (readOf host (.got bytes, g)).2 x bytes >>= _
                rw [hread]
                rfl

/-! ## The handlers, state by state -/

def entering (x : SerialXfer) (st : RxState) : SerialXfer :=
  { x with data := { x.data with rxstate := st } }

/-- What both handlers do in `STATE_WAIT_START`. -/
def awaitStart (g : Grant) (x : SerialXfer) (st : RxState) (n : Int) :
    Res SerialXfer := do
  let b ← loadByte x.recv.data 0
  if b ≠ magicStart then pure { x.resetReceiver with expectBytes := 1 }
  else
    let r ← auraAsyncExpectBytes g (entering x st) n
    pure r.2

section Handlers

variable {host : Endian} {g : Grant} {x : SerialXfer}

theorem handleData_packets_waitStart (hs : x.data.rxstate = .waitStart) :
    handleData host g .packets x = awaitStart g x .getLen x.data.szSz := by
  rw [handleData, urpcXferHandlerPackets, hs]
  rfl

theorem handleData_packets_getLen (hs : x.data.rxstate = .getLen) :
    handleData host g .packets x = (do
      let n ← numberToInt host x.recv.data 1 x.data.szSz
      let r ← auraAsyncExpectBytes g (entering x .getBody) (cInt n)
      pure r.2) := by
  rw [handleData, urpcXferHandlerPackets, hs]
  rfl

theorem handleData_packets_getBody (hs : x.data.rxstate = .getBody) :
    handleData host g .packets x = getBody host x := by
  rw [handleData, urpcXferHandlerPackets, hs]

theorem handleData_init_waitStart (hs : x.data.rxstate = .waitStart) :
    handleData host g .discoveryInit x = awaitStart g x .discovery 5 := by
  rw [handleData, urpcXferHandlerDiscoveryInit, hs]
  rfl

/-- A packet counted: its body is not looked at. -/
def counted (x : SerialXfer) (state : Int) : SerialXfer :=
  nextPacket { x with data := { x.data with state } }

/-- A packet taken for an object. -/
def extended (x : SerialXfer) (o : UrpcObject) : SerialXfer :=
  let inst := { x.data.inst with objlist := x.data.inst.objlist ++ [o] }
  nextPacket { x with
    data := { x.data with inst, objcount := x.data.objcount + 1 } }

theorem getBody_of_ne_zero (hs : x.data.state ≠ 0) :
    getBody host x = (intArith (x.data.state + 1)).map (counted x) := by
  rw [getBody, if_pos hs]
  cases intArith (x.data.state + 1) <;> rfl

theorem getBody_of_one {n : Nat} (hs : x.data.state = 0)
    (hn : numberToInt host x.recv.data 1 x.data.szSz = .ok n)
    (hone : cInt n = 1) :
    getBody host x = (intArith (x.data.state + 1)).map (counted x) := by
  rw [getBody, if_neg (not_not.mpr hs), hn, ok_bind]
  simp only [if_pos hone]
  cases intArith (x.data.state + 1) <;> rfl

theorem getBody_of_object {n : Nat} (hs : x.data.state = 0)
    (hn : numberToInt host x.recv.data 1 x.data.szSz = .ok n)
    (hone : cInt n ≠ 1) (hsz : 0 ≤ 1 + x.data.szSz) :
    getBody host x
      = (parseObject x.recv.data (1 + x.data.szSz).toNat).map
          (extended x) := by
  rw [getBody, if_neg (not_not.mpr hs), hn, ok_bind]
  simp only [if_neg hone, if_neg (not_lt.mpr hsz)]
  cases parseObject x.recv.data (1 + x.data.szSz).toNat <;> rfl

end Handlers

/-! ## Streams that fit the buffer -/

/-- How many bytes the handler about to be called will wait for next, when it
takes them from the stream or from the protocol. -/
def demand (host : Endian) (x : SerialXfer) : Option Int :=
  match x.handleData, x.data.rxstate with
  | .packets, .waitStart =>
      if x.recv.data[0]? = some magicStart then some x.data.szSz else none
  | .packets, .getLen =>
      match numberToInt host x.recv.data 1 x.data.szSz with
      | .ok n => some (cInt n)
      | .error _ => none
  | .discoveryInit, .waitStart =>
      if x.recv.data[0]? = some magicStart then some 5 else none
  | _, _ => none

theorem demand_getLen {host : Endian} {x : SerialXfer} {n : Nat}
    (hh : x.handleData = .packets) (hs : x.data.rxstate = .getLen)
    (hn : numberToInt host x.recv.data 1 x.data.szSz = .ok n) :
    demand host x = some (cInt n) := by
  rw [demand, hh, hs]
  simp only [hn]

/-- The piece asked for fits the buffer, behind what is already there. (A
length that is no length, because it is negative, has to leave the comparison
with the block an `int`.) -/
def PieceFits (host : Endian) (x : SerialXfer) : Prop :=
  (x.recv.alloc : Int) ≤ intMax ∧ ∀ n ∈ demand host x,
    x.recv.size + n ≤ x.recv.alloc ∧ x.recv.alloc - n ≤ intMax

instance (host : Endian) : DecidablePred (PieceFits host) :=
  fun _ => inferInstanceAs (Decidable (_ ∧ _))

/-- Every frame of the stream fits the buffer. -/
def FramesFit (host : Endian) (x : SerialXfer) (bs : List UInt8) : Prop :=
  (receiver host none).Along (PieceFits host) x bs

instance (host : Endian) (x : SerialXfer) (bs : List UInt8) :
    Decidable (FramesFit host x bs) :=
  inferInstanceAs (Decidable ((receiver host none).Along _ _ _))

/-- A piece that fits is waited for, and nothing is asked of the allocator. -/
theorem auraAsyncExpectBytes_fits {η σ : Type} (g : Grant)
    {x : AuraAsyncXfer η σ} {n : Int} (hmax : (x.recv.alloc : Int) ≤ intMax)
    (hle : n ≤ x.recv.alloc) (hint : x.recv.alloc - n ≤ intMax) :
    auraAsyncExpectBytes g x n = .ok (0, { x with expectBytes := n }) := by
  rw [auraAsyncExpectBytes, cInt_of_mem (by unfold intMax; omega) hint,
    cInt_of_mem (by omega) (by omega), if_neg (by omega)]
  rfl

theorem handleData_fits {host : Endian} (g g' : Grant) {x : SerialXfer}
    (h : PieceFits host x) :
    handleData host g x.handleData x = handleData host g' x.handleData x := by
  obtain ⟨hmax, hask⟩ := h
  have hsame : ∀ st n, n ∈ demand host x →
      auraAsyncExpectBytes g (entering x st) n
        = auraAsyncExpectBytes g' (entering x st) n := by
    intro st n hn
    obtain ⟨hle, hint⟩ := hask n hn
    have hfit : n ≤ (entering x st).recv.alloc := by
      show n ≤ x.recv.alloc
      omega
    rw [auraAsyncExpectBytes_fits g (x := entering x st) hmax hfit hint,
      auraAsyncExpectBytes_fits g' (x := entering x st) hmax hfit hint]
  have hstart : ∀ st n, (x.recv.data[0]? = some magicStart →
      n ∈ demand host x) → awaitStart g x st n = awaitStart g' x st n := by
    intro st n hn
    unfold awaitStart loadByte
    cases hb : x.recv.data[0]? with
    | none => rfl
    | some b =>
        rw [ok_bind, ok_bind]
        by_cases hm : b = magicStart
        · rw [if_neg (not_not.mpr hm), if_neg (not_not.mpr hm),
            hsame st n (hn (by rw [hb, hm]))]
        · rw [if_pos hm, if_pos hm]
  cases hh : x.handleData <;> cases hs : x.data.rxstate
  case packets.waitStart =>
    rw [handleData_packets_waitStart hs, handleData_packets_waitStart hs]
    exact hstart .getLen x.data.szSz fun hb => by simp [demand, hh, hs, hb]
  case packets.getLen =>
    rw [handleData_packets_getLen hs, handleData_packets_getLen hs]
    cases hn : numberToInt host x.recv.data 1 x.data.szSz with
    | error e => rw [error_bind, error_bind]
    | ok n =>
        rw [ok_bind, ok_bind,
          hsame .getBody (cInt n) (demand_getLen hh hs hn)]
  case packets.getBody =>
    rw [handleData_packets_getBody hs, handleData_packets_getBody hs]
  case packets.discovery =>
    simp only [handleData, urpcXferHandlerPackets, hs]
  case discoveryInit.waitStart =>
    rw [handleData_init_waitStart hs, handleData_init_waitStart hs]
    exact hstart .discovery 5 fun hb => by simp [demand, hh, hs, hb]
  case discoveryInit.getLen =>
    simp only [handleData, urpcXferHandlerDiscoveryInit, hs]
  case discoveryInit.getBody =>
    simp only [handleData, urpcXferHandlerDiscoveryInit, hs]
  case discoveryInit.discovery =>
    simp only [handleData, urpcXferHandlerDiscoveryInit, hs]

/-- However it is cut and whatever the allocator would have answered: a
delivery does what its bytes do one at a time. -/
theorem receive_eq_feed {host : Endian} {x : SerialXfer}
    {rs : List SerialRead} (h : Delivered host x rs)
    (hfit : FramesFit host x (bytesOf rs)) :
    receive host x rs = (receiver host none).feed x (bytesOf rs) := by
  obtain ⟨hadm, hsame⟩ := receive_eq_deliver host none h
  rw [hsame, ← stream_readOf host rs]
  apply Collector.deliver_eq_feed _ _ hadm
  · rw [stream_readOf]
    exact hfit
  · intro r hr y hy
    obtain ⟨⟨r, g⟩, _, rfl⟩ := List.mem_map.mp hr
    exact handleData_fits g none hy

/-- Reception does not depend on fragmentation: two deliveries of one stream
make the same calls with the same contents and end in the same state. -/
theorem receive_congr {host : Endian} {x : SerialXfer}
    {rs rs' : List SerialRead} (h : Delivered host x rs)
    (h' : Delivered host x rs') (hsame : bytesOf rs = bytesOf rs')
    (hfit : FramesFit host x (bytesOf rs)) :
    receive host x rs = receive host x rs' := by
  rw [receive_eq_feed h hfit, receive_eq_feed h' (hsame ▸ hfit), hsame]

/-- A receiver in normal mode, for sizes of one byte. -/
def idleReceiver : SerialXfer :=
  { transferlist := [], pos := 0, expectBytes := 1
    recv := ⟨List.replicate 8 0, 0⟩
    hook := ⟨0, ⟨true, false⟩⟩
    data :=
      { swap := false, idSz := 1, szSz := 1, rxstate := .waitStart, state := 1
        objcount := 0, inst := ⟨[], []⟩ }
    handleData := .packets }

theorem receive_congr_two_bytes :
    receive .little idleReceiver
        [(.got [magicStart], none), (.got [2], none), (.got [7, 8], none)]
      = receive .little idleReceiver
        [(.got [magicStart], none), (.failed, none), (.got [2], none),
          (.got [7], none), (.failed, none), (.got [8], none)] :=
  receive_congr (by decide) (by decide) rfl (by decide)

end Aura.Proofs
