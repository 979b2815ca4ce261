import Aura.Lib.Interleave
import Aura.Proofs.Calls
import Aura.Proofs.Resync
import Aura.Proofs.Waits

/-!
# The two directions of a transfer

One transfer object serves both directions of a descriptor. They do not meet
there: reading looks at nothing that is to be sent (`readStep_facing`), and
sending looks at nothing that is received and leaves it alone, as long as no
call awaits a reply (`sends_facing`). So it does not matter how the main loop
interleaves the two: what is sent, what is recognised and the state the
instance ends in are determined by the reads in their order and the calls and
writes in theirs (`duplex_interleaved`).
-/

namespace Aura.Proofs

open Aura.Lib Aura.Ref

/-! ## Reading -/

section Reading

variable {host : Endian} {g : Grant}

theorem auraAsyncExpectBytes_facing (g : Grant) (y x : SerialXfer) (n : Int) :
    auraAsyncExpectBytes g (facing y x) n
      = (auraAsyncExpectBytes g y n).map fun r => (r.1, facing r.2 x) := by
  rw [auraAsyncExpectBytes, auraAsyncExpectBytes]
  simp only [show (facing y x).recv = y.recv from rfl]
  by_cases hshort : cInt (y.recv.alloc - n) < 0
  · simp only [if_pos hshort, map_bind]
    rfl
  · simp only [if_neg hshort]
    rfl

theorem awaitStart_facing (y x : SerialXfer) (st : RxState) (n : Int) :
    awaitStart g (facing y x) st n
      = (awaitStart g y st n).map (facing · x) := by
  rw [awaitStart, awaitStart]
  simp only [show (facing y x).recv = y.recv from rfl, map_bind,
    show entering (facing y x) st = facing (entering y st) x from rfl,
    auraAsyncExpectBytes_facing]
  refine bind_congr fun b => ?_
  by_cases hb : b = magicStart
  · simp only [if_neg (not_not.mpr hb)]
    cases auraAsyncExpectBytes g (entering y st) n <;> rfl
  · simp only [if_pos hb]
    rfl

theorem getBody_facing (y x : SerialXfer) :
    getBody host (facing y x) = (getBody host y).map (facing · x) := by
  rw [getBody, getBody]
  simp only [show (facing y x).recv = y.recv from rfl,
    show (facing y x).data = y.data from rfl]
  by_cases hstate : y.data.state = 0
  · simp only [if_neg (not_not.mpr hstate), map_bind]
    refine bind_congr fun n => ?_
    by_cases hone : cInt n = 1
    · simp only [if_pos hone, map_bind]
      rfl
    · by_cases hneg : 1 + y.data.szSz < 0
      · simp only [if_neg hone, if_pos hneg]
        rfl
      · simp only [if_neg hone, if_neg hneg, map_bind]
        rfl
  · simp only [if_pos hstate, map_bind]
    rfl

theorem handleData_facing (h : Handler) (y x : SerialXfer) :
    handleData host g h (facing y x)
      = (handleData host g h y).map (facing · x) := by
  have hdata : (facing y x).data = y.data := rfl
  cases h <;> cases hs : y.data.rxstate
  case packets.waitStart =>
    rw [handleData_packets_waitStart hs,
      handleData_packets_waitStart (hdata ▸ hs)]
    exact awaitStart_facing ..
  case packets.getLen =>
    rw [handleData_packets_getLen hs,
      handleData_packets_getLen (hdata ▸ hs), map_bind]
    refine bind_congr fun n => ?_
    rw [show entering (facing y x) .getBody
      = facing (entering y .getBody) x from rfl, auraAsyncExpectBytes_facing]
    cases auraAsyncExpectBytes g (entering y .getBody) (cInt n) <;> rfl
  case packets.getBody =>
    rw [handleData_packets_getBody hs,
      handleData_packets_getBody (hdata ▸ hs)]
    exact getBody_facing ..
  case discoveryInit.waitStart =>
    rw [handleData_init_waitStart hs, handleData_init_waitStart (hdata ▸ hs)]
    exact awaitStart_facing ..
  case discoveryInit.discovery =>
    simp only [handleData, urpcXferHandlerDiscoveryInit, hdata, hs, map_bind,
      show (facing y x).recv = y.recv from rfl]
    rfl
  all_goals
    simp only [handleData, urpcXferHandlerPackets,
      urpcXferHandlerDiscoveryInit, hdata, hs]
    rfl

theorem absorbBytes_facing (y x : SerialXfer) (bytes : List UInt8) :
    absorbBytes (facing y x) bytes
      = (absorbBytes y bytes).map (facing · x) := by
  rw [absorbBytes_eq, absorbBytes_eq]
  show (storeBytes y.recv.data y.recv.size bytes).map _ = _
  cases storeBytes y.recv.data y.recv.size bytes <;> rfl

/-- Reading does not look at what is to be sent. -/
theorem readStep_facing (y x : SerialXfer) (r : SerialRead) :
    readStep host (facing y x) r
      = (readStep host y r).map (facing · x) := by
  obtain ⟨r, g⟩ := r
  cases r with
  | failed => rfl
  | got bytes =>
      rw [readStep, readStep, handlerIn_got, handlerIn_got,
        absorbBytes_facing]
      cases absorbBytes y bytes with
      | error e => rfl
      | ok z =>
          show (if z.expectBytes = 0 then _ else _)
            = Except.map _ (if z.expectBytes = 0 then _ else _)
          by_cases hz : z.expectBytes = 0
          · rw [if_pos hz, if_pos hz]
            exact handleData_facing ..
          · rw [if_neg hz, if_neg hz]
            rfl

theorem callsDuring_facing (y x : SerialXfer) (r : ReadResult) :
    callsDuring r (facing y x) = callsDuring r y := by
  cases r with
  | failed => rfl
  | got bytes =>
      rw [callsDuring, callsDuring, absorbBytes_facing]
      cases absorbBytes y bytes <;> rfl

end Reading

/-! ## Sending -/

theorem urpcSerialCall_object {host : Endian} {env : CallEnv} {id : Nat}
    {p q : Port} (h : urpcSerialCall host env id p = .ok q) :
    q = p ∨ ∃ o c, p.xfer.data.inst.objects[id]? = some o ∧
      callFrame host env.mem env.grants env.fuel env.L p.xfer.data id
        = .ok (some c) ∧ q = called env o p c := by
  cases ho : p.xfer.data.inst.objects[id]? with
  | none =>
      rw [urpcSerialCall, objectAt, ho] at h
      cases h
  | some o =>
      rw [urpcSerialCall_of_object ho] at h
      cases hframe : callFrame host env.mem env.grants env.fuel env.L
          p.xfer.data id with
      | error e =>
          rw [hframe] at h
          cases h
      | ok frame =>
          rw [hframe] at h
          cases h
          cases frame with
          | none => exact .inl rfl
          | some c => exact .inr ⟨o, c, rfl, rfl, rfl⟩

theorem called_mute {env : CallEnv} {o : UrpcObject} (ho : o.reply = none)
    (x : SerialXfer) (p : Port) (c : AuraChunk) :
    facing (called env o p c).xfer x = facing p.xfer x := by
  obtain ⟨_, _, hframe⟩ := auraAsyncEnqueueChunk_frame env.ctl env.node
    p.efd p.xfer c
  unfold called
  rw [ho]
  simp only [hframe]
  rfl

theorem callFrame_congr {host : Endian} {mem : Grant} {grants : Nat → Grant}
    {fuel : Nat} {L : LuaState} {s s' : SerialInstance}
    (hobjects : s.inst.objects = s'.inst.objects) (hsz : s.szSz = s'.szSz)
    (hid : s.idSz = s'.idSz) (id : Nat) :
    callFrame host mem grants fuel L s id
      = callFrame host mem grants fuel L s' id := by
  unfold callFrame callHeader packCall objectAt
  rw [hobjects, hsz, hid]

theorem enqueue_facing (ctl mem : Bool) (efd : EpollSet) (y x : SerialXfer)
    (c : AuraChunk) :
    auraAsyncEnqueueChunk ctl mem efd (facing y x) c =
      let r := auraAsyncEnqueueChunk ctl mem efd x c
      (r.1, facing y r.2.1, r.2.2) := by
  unfold auraAsyncEnqueueChunk
  rw [show (facing y x).transferlist = x.transferlist from rfl,
    show (facing y x).hook = x.hook from rfl]
  cases x.transferlist.isEmpty <;> cases ctl <;> cases mem <;> rfl

theorem called_facing {env : CallEnv} {o : UrpcObject} (ho : o.reply = none)
    (y x : SerialXfer) (efd : EpollSet) (c : AuraChunk) :
    called env o ⟨facing y x, efd⟩ c =
      let q := called env o ⟨x, efd⟩ c
      ⟨facing y q.xfer, q.efd⟩ := by
  unfold called
  rw [ho]
  simp only [enqueue_facing]
  rfl

section Sends

variable {host : Endian} {objects : List UrpcObject} {x y : SerialXfer}
  {efd : EpollSet} {e : SerialEvent}

theorem urpcSerialCall_facing (hmute : ∀ o ∈ objects, o.reply = none)
    (hx : Ready objects x) (hy : Ready objects y) (env : CallEnv) (id : Nat) :
    urpcSerialCall host env id ⟨facing y x, efd⟩
      = (urpcSerialCall host env id ⟨x, efd⟩).map
          fun q => ⟨facing y q.xfer, q.efd⟩ := by
  cases ho : objects[id]? with
  | none =>
      rw [urpcSerialCall, urpcSerialCall, objectAt, objectAt]
      rw [show (facing y x).data = y.data from rfl, hx.objects, hy.objects, ho]
      rfl
  | some o =>
      have hreply := hmute o (List.mem_of_getElem? ho)
      have hsame : callFrame host env.mem env.grants env.fuel env.L y.data id
          = callFrame host env.mem env.grants env.fuel env.L x.data id :=
        callFrame_congr (hy.objects.trans hx.objects.symm)
          (hy.szSz.trans hx.szSz.symm) (hy.idSz.trans hx.idSz.symm) id
      have hright := @urpcSerialCall_of_object host env id ⟨x, efd⟩ o
        (by rw [← ho, ← hx.objects])
      have hleft := @urpcSerialCall_of_object host env id ⟨facing y x, efd⟩ o
        (by rw [← ho, ← hy.objects]; rfl)
      rw [hleft, hright]
      rw [show (facing y x).data = y.data from rfl, hsame]
      cases callFrame host env.mem env.grants env.fuel env.L x.data id with
      | error e => rfl
      | ok frame =>
          cases frame with
          | none => rfl
          | some c => exact congrArg Except.ok (called_facing hreply y x efd c)

/-- Sending looks at nothing that is received. -/
theorem sends_facing (hmute : ∀ o ∈ objects, o.reply = none)
    (hx : Ready objects x) (hy : Ready objects y) (he : Sends e) :
    serialStep host ⟨facing y x, efd⟩ e
      = (serialStep host ⟨x, efd⟩ e).map
          fun q => ⟨facing y q.xfer, q.efd⟩ := by
  cases e with
  | epollin r g => exact he.elim
  | discovery env => exact he.elim
  | call env id => exact urpcSerialCall_facing hmute hx hy env id
  | epollout ws ctl =>
      rw [serialStep, serialStep, auraAsyncXferHandlerOut,
        auraAsyncXferHandlerOut]
      rw [show (facing y x).transferlist = x.transferlist from rfl,
        writeLoop_facing]
      cases writeLoop ctl [] x.transferlist ws efd x <;> rfl

/-- And leaves it as it is. -/
theorem sends_keep (hmute : ∀ o ∈ objects, o.reply = none)
    (hx : Ready objects x) (he : Sends e) {q : Port}
    (h : serialStep host ⟨x, efd⟩ e = .ok q) : facing x q.xfer = q.xfer := by
  have hself := @sends_facing host objects x x efd e hmute hx hx he
  rw [show facing x x = x from rfl, h] at hself
  exact congrArg Port.xfer (Except.ok.inj hself).symm

end Sends

/-! ## Histories -/

/-- What the descriptor accepts during an event. -/
def written (p : Port) : SerialEvent → List UInt8
  | .epollout ws ctl =>
      match auraAsyncXferHandlerOut ctl ws p.efd p.xfer with
      | .ok (sent, _) => sent.bytes
      | .error _ => []
  | _ => []

/-- What an event that leads from `p` to `q` adds to the queue. -/
def framesQueued (p q : Port) : SerialEvent → List (Nat × AuraChunk)
  | .call _ id =>
      (q.xfer.transferlist.drop p.xfer.transferlist.length).map (id, ·)
  | _ => []

def callsHeard (p : Port) : SerialEvent → List Call
  | .epollin r _ => callsDuring r p.xfer
  | _ => []

/-- An instance with what became of it: the frames it queued with the objects
they are for, the bytes its descriptor accepted, and what its handler was
called with. -/
structure Endpoint where
  port : Port
  calls : List (Nat × AuraChunk)
  sent : List UInt8
  log : List Call

def endpointStep (host : Endian) (p : Endpoint) (e : SerialEvent) :
    Res Endpoint := do
  let port ← serialStep host p.port e
  pure
    { port
      calls := p.calls ++ framesQueued p.port port e
      sent := p.sent ++ written p.port e
      log := p.log ++ callsHeard p.port e }

def reading : SerialEvent → Bool
  | .epollin _ _ => true
  | _ => false

theorem written_facing (y x : SerialXfer) (efd : EpollSet) (e : SerialEvent) :
    written ⟨facing y x, efd⟩ e = written ⟨x, efd⟩ e := by
  cases e with
  | epollin | call | discovery => rfl
  | epollout ws ctl =>
      rw [written, written, auraAsyncXferHandlerOut, auraAsyncXferHandlerOut]
      rw [show (facing y x).transferlist = x.transferlist from rfl,
        writeLoop_facing]
      cases writeLoop ctl [] x.transferlist ws efd x <;> rfl

section Interleaving

variable {host : Endian} {objects : List UrpcObject} {p q : Endpoint}

/-- A read and then something sent, or the other way round: both happen to the
instance as it was. -/
def Both (host : Endian) (p : Endpoint) (r : SerialRead) (e : SerialEvent)
    (t : Endpoint) : Prop :=
  ∃ y, readStep host p.port.xfer r = .ok y ∧
    ∃ q, serialStep host p.port e = .ok q ∧
      t = { port := ⟨facing y q.xfer, q.efd⟩
            calls := p.calls ++ framesQueued p.port q e
            sent := p.sent ++ written p.port e
            log := p.log ++ callsDuring r.1 p.port.xfer }

theorem endpointStep_reads {r : ReadResult} {g : Grant} {t : Endpoint} :
    endpointStep host p (.epollin r g) = .ok t ↔
      ∃ y, readStep host p.port.xfer (r, g) = .ok y ∧
        t = { p with
          port := ⟨y, p.port.efd⟩
          log := p.log ++ callsDuring r p.port.xfer } := by
  rw [endpointStep, serialStep, readStep, bind_eq_ok]
  constructor
  · rintro ⟨port, hport, h⟩
    obtain ⟨y, hy, hport⟩ := bind_eq_ok.mp hport
    cases hport
    cases h
    refine ⟨y, hy, ?_⟩
    simp only [framesQueued, written, callsHeard, List.append_nil]
  · rintro ⟨y, hy, rfl⟩
    refine ⟨⟨y, p.port.efd⟩, bind_eq_ok.mpr ⟨y, hy, rfl⟩, ?_⟩
    simp only [framesQueued, written, callsHeard, List.append_nil, pure_eq_ok]

theorem endpointStep_sends {e : SerialEvent} (he : Sends e) {t : Endpoint} :
    endpointStep host p e = .ok t ↔
      ∃ q, serialStep host p.port e = .ok q ∧
        t = { p with
          port := q
          calls := p.calls ++ framesQueued p.port q e
          sent := p.sent ++ written p.port e } := by
  have hquiet : callsHeard p.port e = [] := by
    cases e with
    | epollin r g => exact he.elim
    | epollout | call | discovery => rfl
  rw [endpointStep, bind_eq_ok, hquiet, List.append_nil]
  exact exists_congr fun q => and_congr_right fun _ =>
    ⟨fun h => (Except.ok.inj h).symm, fun h => congrArg Except.ok h.symm⟩

theorem readStep_keeps {x y : SerialXfer} {r : SerialRead}
    (h : readStep host x r = .ok y) : facing y x = y := by
  have hself := @readStep_facing host x x r
  rw [show facing x x = x from rfl, h] at hself
  exact (Except.ok.inj hself).symm

theorem ready_read {x y : SerialXfer} {r : SerialRead}
    (hx : Ready objects x) (h : readStep host x r = .ok y) :
    Ready objects y :=
  ready_step (p := ⟨x, fun _ => none⟩) (q := ⟨y, fun _ => none⟩)
    (e := .epollin r.1 r.2) hx trivial (bind_eq_ok.mpr ⟨y, h, rfl⟩)

theorem read_then_send (hmute : ∀ o ∈ objects, o.reply = none)
    (hp : Ready objects p.port.xfer) {r : ReadResult} {g : Grant}
    {e : SerialEvent} (he : Sends e) (t : Endpoint) :
    (endpointStep host p (.epollin r g) >>= fun q => endpointStep host q e)
        = .ok t ↔ Both host p (r, g) e t := by
  obtain ⟨⟨x, efd⟩, calls, sent, log⟩ := p
  rw [bind_eq_ok]
  constructor
  · rintro ⟨u, hu, ht⟩
    obtain ⟨y, hread, rfl⟩ := endpointStep_reads.mp hu
    obtain ⟨q, hq, rfl⟩ := (endpointStep_sends he).mp ht
    obtain ⟨z, rfl⟩ : ∃ z, y = facing z x := ⟨y, (readStep_keeps hread).symm⟩
    obtain ⟨q, hsent, rfl⟩ := map_eq_ok.mp
      ((sends_facing hmute hp (ready_read hp hread) he).symm.trans hq)
    refine ⟨_, hread, q, hsent, ?_⟩
    rw [written_facing]
    rfl
  · rintro ⟨y, hread, q, hq, rfl⟩
    refine ⟨_, endpointStep_reads.mpr ⟨y, hread, rfl⟩,
      (endpointStep_sends he).mpr ⟨⟨facing y q.xfer, q.efd⟩, ?_, ?_⟩⟩
    · rw [← readStep_keeps hread]
      exact (sends_facing hmute hp (ready_read hp hread) he).trans
        (map_eq_ok.mpr ⟨q, hq, rfl⟩)
    · rw [← readStep_keeps hread, written_facing]
      rfl

theorem send_then_read (hmute : ∀ o ∈ objects, o.reply = none)
    (hp : Ready objects p.port.xfer) {r : ReadResult} {g : Grant}
    {e : SerialEvent} (he : Sends e) (t : Endpoint) :
    (endpointStep host p e >>= fun q => endpointStep host q (.epollin r g))
        = .ok t ↔ Both host p (r, g) e t := by
  obtain ⟨⟨x, efd⟩, calls, sent, log⟩ := p
  have hmoved : ∀ {q : Port}, serialStep host ⟨x, efd⟩ e = .ok q →
      readStep host q.xfer (r, g)
        = (readStep host x (r, g)).map (facing · q.xfer) ∧
      callsDuring r q.xfer = callsDuring r x := by
    intro q hq
    rw [← sends_keep hmute hp he hq]
    exact ⟨readStep_facing .., callsDuring_facing ..⟩
  rw [bind_eq_ok]
  constructor
  · rintro ⟨u, hu, ht⟩
    obtain ⟨q, hq, rfl⟩ := (endpointStep_sends he).mp hu
    obtain ⟨y, hread, rfl⟩ := endpointStep_reads.mp ht
    obtain ⟨hsame, hcalls⟩ := hmoved hq
    obtain ⟨y, hhere, rfl⟩ := map_eq_ok.mp (hsame.symm.trans hread)
    refine ⟨y, hhere, q, hq, ?_⟩
    rw [hcalls]
  · rintro ⟨y, hread, q, hq, rfl⟩
    obtain ⟨hsame, hcalls⟩ := hmoved hq
    refine ⟨_, (endpointStep_sends he).mpr ⟨q, hq, rfl⟩,
      endpointStep_reads.mpr ⟨facing y q.xfer, ?_, ?_⟩⟩
    · exact hsame.trans (map_eq_ok.mpr ⟨y, hread, rfl⟩)
    · rw [hcalls]

/-- Reads on one side, calls and writes on the other. -/
theorem duplex_independent (hmute : ∀ o ∈ objects, o.reply = none)
    (port : Port) :
    Independent (endpointStep host) (fun p => Ready objects p.port.xfer)
      (NoDiscovery port) reading where
  keeps hs hi ht := by
    obtain ⟨port, hport, h⟩ := bind_eq_ok.mp ht
    cases h
    exact ready_step hs hi hport
  swap := by
    intro s i j t hs hi hj hside hother
    cases i with
    | epollout | call | discovery => cases hside
    | epollin r g =>
        have he : Sends j := by
          cases j with
          | epollin => cases hother
          | discovery => exact hj.elim
          | epollout | call => trivial
        rw [read_then_send hmute hs he, send_then_read hmute hs he]

/-- Reads in one order, calls and writes in another: however the two are
interleaved, the same bytes are sent, the same calls of the handler are made
and the instance ends up the same. -/
theorem duplex_interleaved (hp : Ready objects p.port.xfer)
    (hmute : ∀ o ∈ objects, o.reply = none) {es es' : List SerialEvent}
    (hes : ∀ e ∈ es, NoDiscovery p.port e)
    (hes' : ∀ e ∈ es', NoDiscovery p.port e)
    (hreads : es.filter reading = es'.filter reading)
    (hsends : es.filter (!reading ·) = es'.filter (!reading ·)) :
    es.foldlM (endpointStep host) p = .ok q ↔
      es'.foldlM (endpointStep host) p = .ok q :=
  (duplex_independent hmute p.port).interleaved hes hes' hreads hsends hp

end Interleaving

/-- An instance with one method, of one byte and without a reply. -/
def callablePort : Port where
  xfer := { idleReceiver with data := { idleReceiver.data with
    inst := ⟨[], [methodOf [.u8]]⟩ } }
  efd := fun _ => none

def callWith (n : Nat) : SerialEvent :=
  .call { generousEnv with fuel := 4, L := callStack [.number n] } 0

def readOne (b : UInt8) : SerialEvent := .epollin (.got [b]) none

/-- A packet comes in while a call goes out. -/
def packetMeanwhile : List SerialEvent :=
  [readOne magicStart, callWith 7, readOne 1, .epollout [.wrote 9] true,
    readOne 5]

/-- It comes in before. -/
def packetFirst : List SerialEvent :=
  [readOne magicStart, readOne 1, readOne 5, callWith 7,
    .epollout [.wrote 9] true]

theorem duplex_interleaved_packet :
    ∃ q : Endpoint, q.sent = [91, 3, 0, 7, 10, 93] ∧ q.log.length = 3 ∧
      packetMeanwhile.foldlM (endpointStep .little) ⟨callablePort, [], [], []⟩
        = .ok q ∧
      packetFirst.foldlM (endpointStep .little) ⟨callablePort, [], [], []⟩
        = .ok q := by
  have hready : Ready [methodOf [.u8]] callablePort.xfer :=
    ⟨rfl, rfl, rfl, rfl⟩
  have hreads : packetMeanwhile.filter reading = packetFirst.filter reading := by
    simp [packetMeanwhile, packetFirst, List.filter_cons, reading, readOne,
      callWith]
  have hsends :
      packetMeanwhile.filter (!reading ·) = packetFirst.filter (!reading ·) := by
    simp [packetMeanwhile, packetFirst, reading, readOne, callWith]
  have hends : (packetMeanwhile.foldlM (endpointStep .little)
      ⟨callablePort, [], [], []⟩).toOption.map
        (fun q => (q.sent, q.log.length))
      = some ([91, 3, 0, 7, 10, 93], 3) := by decide +kernel
  cases hrun : packetMeanwhile.foldlM (endpointStep .little)
      ⟨callablePort, [], [], []⟩ with
  | error e =>
      rw [hrun] at hends
      cases hends
  | ok q =>
      rw [hrun] at hends
      obtain ⟨hsent, hlog⟩ := Prod.mk.inj (Option.some.inj hends)
      exact ⟨q, hsent, hlog, rfl, (duplex_interleaved hready (by decide)
        (by decide) (by decide) hreads hsends).mp hrun⟩

end Aura.Proofs
