import Aura.Proofs.Frame
import Aura.Proofs.Receiver

/-!
# What a call of the handler can do

Eight things, one constructor each: the two handlers share the wait for a
start byte, one takes a length and a body from there, the other a feature
packet, and in the states neither expects they do nothing
(`handleData_handled`). Invariants of the receiver are proved by going
through these, and never unfold a handler.
-/

namespace Aura.Proofs

open Aura.Lib Aura.Ref

/-! ## Asking for bytes -/

/-- The bookkeeping of a request: the block may have moved, the payload and
everything else stays. -/
def expecting (x : SerialXfer) (data : List UInt8) (e : Int) : SerialXfer :=
  { x with expectBytes := e, recv := ⟨data, x.recv.size⟩ }

@[simp] theorem expecting_data (x : SerialXfer) (data : List UInt8) (e : Int) :
    (expecting x data e).data = x.data := rfl

@[simp] theorem expecting_handleData (x : SerialXfer) (data : List UInt8)
    (e : Int) : (expecting x data e).handleData = x.handleData := rfl

@[simp] theorem expecting_transferlist (x : SerialXfer) (data : List UInt8)
    (e : Int) : (expecting x data e).transferlist = x.transferlist := rfl

@[simp] theorem expecting_hook (x : SerialXfer) (data : List UInt8) (e : Int) :
    (expecting x data e).hook = x.hook := rfl

theorem auraChunkRealloc_size {g : Grant} {c d : AuraChunk} {extra r : Int}
    (h : auraChunkRealloc g c extra = .ok (r, d)) : d.size = c.size := by
  rw [auraChunkRealloc, bind_eq_ok] at h
  obtain ⟨sz, _, h⟩ := h
  cases g with
  | none =>
      cases h
      rfl
  | some junk =>
      by_cases hneg : sz < 0
      · simp only [if_pos hneg] at h
        cases h
        rfl
      · simp only [if_neg hneg] at h
        cases h
        rfl

theorem auraAsyncExpectBytes_eq_ok {g : Grant} {x y : SerialXfer} {n r : Int}
    (h : auraAsyncExpectBytes g x n = .ok (r, y)) :
    ∃ data, y = expecting x data (cInt n) := by
  rw [auraAsyncExpectBytes] at h
  generalize cInt n = e at *
  by_cases hshort : cInt (x.recv.alloc - n) < 0
  · simp only [if_pos hshort] at h
    obtain ⟨minus, _, h⟩ := bind_eq_ok.mp h
    obtain ⟨extra, _, h⟩ := bind_eq_ok.mp h
    obtain ⟨⟨r', recv⟩, hrecv, h⟩ := bind_eq_ok.mp h
    have hsize := auraChunkRealloc_size hrecv
    cases h
    refine ⟨recv.data, ?_⟩
    rw [expecting, ← hsize]
  · simp only [if_neg hshort] at h
    cases h
    exact ⟨x.recv.data, rfl⟩

/-! ## The calls -/

/-- The feature packet read. -/
def featured (x : SerialXfer) (szSz idSz : Int) (swap : Bool) : SerialXfer :=
  { x.resetReceiver with
    expectBytes := 1
    handleData := .packets
    data := { x.data with szSz, idSz, swap, rxstate := .waitStart } }

/-- A byte dropped. -/
def resynced (x : SerialXfer) : SerialXfer :=
  { x.resetReceiver with expectBytes := 1 }

/-- The outcomes of a call of a handler on `x`. -/
inductive Handled (host : Endian) (g : Grant) (x : SerialXfer) :
    Handler → SerialXfer → Prop
  | noise {h : Handler} {b : UInt8} (hs : x.data.rxstate = .waitStart)
      (hb : loadByte x.recv.data 0 = .ok b) (hne : b ≠ magicStart) :
      Handled host g x h (resynced x)
  | start {r : Int} {y : SerialXfer} (hs : x.data.rxstate = .waitStart)
      (hb : loadByte x.recv.data 0 = .ok magicStart)
      (he : auraAsyncExpectBytes g (entering x .getLen) x.data.szSz
        = .ok (r, y)) : Handled host g x .packets y
  | length {n : Nat} {r : Int} {y : SerialXfer}
      (hs : x.data.rxstate = .getLen)
      (hn : numberToInt host x.recv.data 1 x.data.szSz = .ok n)
      (he : auraAsyncExpectBytes g (entering x .getBody) (cInt n)
        = .ok (r, y)) : Handled host g x .packets y
  | counts (hs : x.data.rxstate = .getBody)
      (hcount : x.data.state ≠ 0 ∨
        ∃ n, numberToInt host x.recv.data 1 x.data.szSz = .ok n ∧ cInt n = 1)
      (hmax : x.data.state + 1 ≤ intMax) :
      Handled host g x .packets (counted x (x.data.state + 1))
  | adds {n : Nat} {o : UrpcObject} (hs : x.data.rxstate = .getBody)
      (hzero : x.data.state = 0)
      (hn : numberToInt host x.recv.data 1 x.data.szSz = .ok n)
      (hne : cInt n ≠ 1)
      (ho : parseObject x.recv.data (1 + x.data.szSz).toNat = .ok o) :
      Handled host g x .packets (extended x o)
  | startInit {r : Int} {y : SerialXfer}
      (hs : x.data.rxstate = .waitStart)
      (hb : loadByte x.recv.data 0 = .ok magicStart)
      (he : auraAsyncExpectBytes g (entering x .discovery) 5 = .ok (r, y)) :
      Handled host g x .discoveryInit y
  | features {stag itag : UInt8} (swap : Bool)
      (hs : x.data.rxstate = .discovery)
      (hstag : loadByte x.recv.data 1 = .ok stag)
      (hitag : loadByte x.recv.data 2 = .ok itag) :
      Handled host g x .discoveryInit
        (featured x stag.toBitVec.toInt itag.toBitVec.toInt swap)
  | ignored {h : Handler}
      (hs : x.data.rxstate ≠ .waitStart) : Handled host g x h x

section Cases

variable {host : Endian} {g : Grant} {x y : SerialXfer}

theorem awaitStart_eq_ok {st : RxState} {n : Int}
    (h : awaitStart g x st n = .ok y) :
    (∃ b, loadByte x.recv.data 0 = .ok b ∧ b ≠ magicStart ∧ y = resynced x) ∨
    (loadByte x.recv.data 0 = .ok magicStart ∧
      ∃ r, auraAsyncExpectBytes g (entering x st) n = .ok (r, y)) := by
  rw [awaitStart, bind_eq_ok] at h
  obtain ⟨b, hb, h⟩ := h
  by_cases hm : b = magicStart
  · rw [if_neg (not_not.mpr hm), bind_eq_ok] at h
    obtain ⟨⟨r, z⟩, hr, h⟩ := h
    cases h
    exact .inr ⟨hm ▸ hb, r, hr⟩
  · rw [if_pos hm] at h
    cases h
    exact .inl ⟨b, hb, hm, rfl⟩

theorem getBody_handled (hs : x.data.rxstate = .getBody)
    (h : getBody host x = .ok y) : Handled host g x .packets y := by
  have hcounts : ∀ {z : SerialXfer},
      (intArith (x.data.state + 1)).map (counted x) = .ok z →
      x.data.state + 1 ≤ intMax ∧ z = counted x (x.data.state + 1) := by
    intro z hz
    cases hnext : intArith (x.data.state + 1) with
    | error e =>
        rw [hnext] at hz
        cases hz
    | ok state =>
        obtain ⟨rfl, _, hmax⟩ := intArith_eq_ok.mp hnext
        rw [hnext] at hz
        cases hz
        exact ⟨hmax, rfl⟩
  by_cases hzero : x.data.state = 0
  · cases hn : numberToInt host x.recv.data 1 x.data.szSz with
    | error e =>
        rw [getBody, if_neg (not_not.mpr hzero), hn] at h
        cases h
    | ok n =>
        by_cases hone : cInt n = 1
        · rw [getBody_of_one hzero hn hone] at h
          obtain ⟨hmax, rfl⟩ := hcounts h
          exact .counts hs (.inr ⟨n, hn, hone⟩) hmax
        · by_cases hsz : 0 ≤ 1 + x.data.szSz
          · rw [getBody_of_object hzero hn hone hsz] at h
            cases ho : parseObject x.recv.data (1 + x.data.szSz).toNat with
            | error e =>
                rw [ho] at h
                cases h
            | ok o =>
                rw [ho] at h
                cases h
                exact .adds hs hzero hn hone ho
          · rw [getBody, if_neg (not_not.mpr hzero), hn, ok_bind] at h
            simp only [if_neg hone, if_pos (not_le.mp hsz)] at h
            cases h
  · rw [getBody_of_ne_zero hzero] at h
    obtain ⟨hmax, rfl⟩ := hcounts h
    exact .counts hs (.inl hzero) hmax

/-- Every call that returns is one of the eight. -/
theorem handleData_handled {h : Handler} (hy : handleData host g h x = .ok y) :
    Handled host g x h y := by
  cases h <;> cases hs : x.data.rxstate
  case packets.waitStart =>
    rw [handleData_packets_waitStart hs] at hy
    rcases awaitStart_eq_ok hy with ⟨b, hb, hne, rfl⟩ | ⟨hb, r, he⟩
    · exact .noise hs hb hne
    · exact .start hs hb he
  case packets.getLen =>
    rw [handleData_packets_getLen hs, bind_eq_ok] at hy
    obtain ⟨n, hn, hy⟩ := hy
    obtain ⟨⟨r, z⟩, he, hy⟩ := bind_eq_ok.mp hy
    cases hy
    exact .length hs hn he
  case packets.getBody =>
    rw [handleData_packets_getBody hs] at hy
    exact getBody_handled hs hy
  case discoveryInit.waitStart =>
    rw [handleData_init_waitStart hs] at hy
    rcases awaitStart_eq_ok hy with ⟨b, hb, hne, rfl⟩ | ⟨hb, r, he⟩
    · exact .noise hs hb hne
    · exact .startInit hs hb he
  case discoveryInit.discovery =>
    simp only [handleData, urpcXferHandlerDiscoveryInit, hs] at hy
    obtain ⟨stag, hstag, hy⟩ := bind_eq_ok.mp hy
    obtain ⟨itag, hitag, hy⟩ := bind_eq_ok.mp hy
    obtain ⟨etag, _, hy⟩ := bind_eq_ok.mp hy
    cases hy
    exact .features _ hs hstag hitag
  all_goals
    simp only [handleData, urpcXferHandlerPackets,
      urpcXferHandlerDiscoveryInit, hs] at hy
    cases hy
    exact .ignored (by rw [hs]; decide)

/-! ## What no call does -/

theorem Handled.state_le {h : Handler} (hy : Handled host g x h y) :
    x.data.state ≤ y.data.state := by
  cases hy with
  | counts =>
      show x.data.state ≤ x.data.state + 1
      omega
  | start hs hb he | length hs hn he | startInit hs hb he =>
      obtain ⟨data, hy⟩ := auraAsyncExpectBytes_eq_ok he
      have hstate : y.data.state = x.data.state := by
        rw [hy, expecting_data, entering]
      exact Int.le_of_eq hstate.symm
  | noise => exact Int.le_refl x.data.state
  | adds => exact Int.le_refl x.data.state
  | features => exact Int.le_refl x.data.state
  | ignored => exact Int.le_refl x.data.state

end Cases

/-! ## The other events -/

theorem writeLoop_frame {η σ : Type} (ctl : Bool) :
    ∀ (rest kept : List AuraChunk) (ws : List WriteResult) (efd : EpollSet)
      (x : AuraAsyncXfer η σ) {sent x' efd'},
      writeLoop ctl kept rest ws efd x = .ok (sent, x', efd') →
      ∃ transferlist pos hook, x' = { x with transferlist, pos, hook } := by
  apply writeLoop_rule (P := fun _ _ x _ x' =>
    ∃ transferlist pos hook, x' = { x with transferlist, pos, hook })
  · intro queue efd x
    exact ⟨_, _, _, rfl⟩
  · rintro queue efd x pos efd' x' _ ⟨transferlist, pos', hook, rfl⟩
    exact ⟨_, _, _, rfl⟩
  · rintro kept chunk rest efd x efd' x' _ ⟨transferlist, pos, hook, rfl⟩
    exact ⟨_, _, _, rfl⟩
  · rintro chunk efd x efd' x' ⟨transferlist, pos, hook, rfl⟩
    exact ⟨_, _, _, rfl⟩

/-- A call touches the counter of packets and nothing else the receiver
looks at. -/
theorem urpcSerialCall_frame {host : Endian} {env : CallEnv} {id : Nat}
    {p p' : Port} (h : urpcSerialCall host env id p = .ok p') :
    ∃ transferlist hook state, (state = p.xfer.data.state ∨ state = 0) ∧
      p'.xfer = { p.xfer with
        transferlist, hook, data := { p.xfer.data with state } } := by
  rcases urpcSerialCall_eq_ok h with rfl | ⟨o, c, _, rfl⟩
  · exact ⟨_, _, _, .inl rfl, rfl⟩
  · exact called_frame env o p c

/-- What a discovery leaves behind: the receiver waits for a start byte, with
both counters at zero. -/
abbrev discovering (x : SerialXfer) (transferlist : List AuraChunk)
    (hook : AuraEpollHook) : SerialXfer :=
  { x with
    transferlist, hook
    expectBytes := 1
    data := { x.data with objcount := 0, rxstate := .waitStart, state := 0 }
    handleData := .discoveryInit }

theorem urpcSerialDiscovery_eq_ok {env : CallEnv} {p p' : Port}
    (h : urpcSerialDiscovery env p = .ok p') :
    ∃ transferlist hook r y, auraAsyncExpectBytes (env.grants 0)
        { p.xfer with
          transferlist, hook, data := { p.xfer.data with objcount := 0 } } 1
        = .ok (r, y) ∧
      p'.xfer = { y with
        data := { y.data with rxstate := .waitStart, state := 0 }
        handleData := .discoveryInit } := by
  rw [urpcSerialDiscovery] at h
  split at h
  · cases h
  · next c hc =>
      obtain ⟨c', _, h⟩ := bind_eq_ok.mp h
      obtain ⟨transferlist, hook, hframe⟩ := auraAsyncEnqueueChunk_frame
        env.ctl env.node p.efd
        { p.xfer with data := { p.xfer.data with objcount := 0 } }
        { c' with size := discoveryRequest.length }
      simp only [hframe] at h
      obtain ⟨⟨r, y⟩, hy, h⟩ := bind_eq_ok.mp h
      cases h
      exact ⟨transferlist, hook, r, y, hy, rfl⟩

/-- With any buffer at all the one byte it waits for needs no other. -/
theorem urpcSerialDiscovery_waits {env : CallEnv} {p p' : Port}
    (hone : 1 ≤ p.xfer.recv.alloc) (hmax : (p.xfer.recv.alloc : Int) ≤ intMax)
    (h : urpcSerialDiscovery env p = .ok p') :
    ∃ transferlist hook,
      p'.xfer = discovering p.xfer transferlist hook := by
  obtain ⟨transferlist, hook, r, y, hy, hp'⟩ := urpcSerialDiscovery_eq_ok h
  have hfits : auraAsyncExpectBytes (env.grants 0) { p.xfer with
      transferlist, hook, data := { p.xfer.data with objcount := 0 } } 1
      = .ok (0, _) := auraAsyncExpectBytes_fits _
    (show (p.xfer.recv.alloc : Int) ≤ intMax from hmax)
    (show (1 : Int) ≤ p.xfer.recv.alloc by omega)
    (show (p.xfer.recv.alloc : Int) - 1 ≤ intMax by omega)
  rw [hfits] at hy
  cases hy
  exact ⟨transferlist, hook, hp'⟩

/-! ## A step of an instance -/

/-- An event that sends: a call, or the descriptor taking bytes. -/
def Sends : SerialEvent → Prop
  | .epollout _ _ => True
  | .call _ _ => True
  | _ => False

/-- What an event other than a discovery does to the transfer object. -/
inductive Stepped (host : Endian) (x : SerialXfer) :
    SerialEvent → SerialXfer → Prop
  | nothing {g : Grant} : Stepped host x (.epollin .failed g) x
  | absorbs {bytes : List UInt8} {g : Grant} {y : SerialXfer}
      (hy : absorbBytes x bytes = .ok y) (hmore : y.expectBytes ≠ 0) :
      Stepped host x (.epollin (.got bytes) g) y
  | fires {bytes : List UInt8} {g : Grant} {y z : SerialXfer}
      (hy : absorbBytes x bytes = .ok y) (hzero : y.expectBytes = 0)
      (hz : handleData host g y.handleData y = .ok z) :
      Stepped host x (.epollin (.got bytes) g) z
  | sends {e : SerialEvent} (he : Sends e) (transferlist : List AuraChunk)
      (pos : Nat) (hook : AuraEpollHook) (state : Int)
      (hstate : state = x.data.state ∨ state = 0) :
      Stepped host x e { x with
        transferlist, pos, hook, data := { x.data with state } }

/-- Every step that is no discovery is one of the four. -/
theorem serialStep_stepped {host : Endian} {p q : Port} {e : SerialEvent}
    (hne : ∀ env, e ≠ .discovery env) (h : serialStep host p e = .ok q) :
    Stepped host p.xfer e q.xfer := by
  cases e with
  | epollin r g =>
      cases r with
      | failed =>
          cases h
          exact .nothing
      | got bytes =>
          rw [serialStep, handlerIn_got, bind_assoc, bind_eq_ok] at h
          obtain ⟨y, hy, h⟩ := h
          by_cases hzero : y.expectBytes = 0
          · rw [if_pos hzero, bind_eq_ok] at h
            obtain ⟨z, hz, h⟩ := h
            cases h
            exact .fires hy hzero hz
          · rw [if_neg hzero] at h
            cases h
            exact .absorbs hy hzero
  | epollout ws ctl =>
      rw [serialStep, auraAsyncXferHandlerOut, bind_eq_ok] at h
      obtain ⟨⟨sent, x, efd⟩, hw, h⟩ := h
      cases h
      obtain ⟨transferlist, pos, hook, rfl⟩ := writeLoop_frame _ _ _ _ _ _ hw
      exact .sends (e := .epollout ws ctl) trivial transferlist pos hook
        p.xfer.data.state (.inl rfl)
  | call env id =>
      obtain ⟨transferlist, hook, state, hstate, hframe⟩ :=
        urpcSerialCall_frame h
      rw [hframe]
      exact .sends (e := .call env id) trivial transferlist p.xfer.pos hook
        state hstate
  | discovery env => exact absurd rfl (hne env)

/-- A step is a discovery or one of the four. -/
theorem serialStep_cases {host : Endian} {p q : Port} {e : SerialEvent}
    (h : serialStep host p e = .ok q) :
    (∃ env, e = .discovery env ∧ urpcSerialDiscovery env p = .ok q) ∨
      Stepped host p.xfer e q.xfer := by
  by_cases hd : ∃ env, e = .discovery env
  · obtain ⟨env, rfl⟩ := hd
    exact .inl ⟨env, rfl, h⟩
  · exact .inr (serialStep_stepped (fun env he => hd ⟨env, he⟩) h)

theorem feed_state_le {host : Endian} {x y : SerialXfer} {bs : List UInt8}
    {log : List Call} (h : (receiver host none).feed x bs = .ok (y, log)) :
    x.data.state ≤ y.data.state := by
  apply (receiver host none).feed_invariant
    (I := fun z => x.data.state ≤ z.data.state) _ (Int.le_refl _) h
  intro s b t log hle hread
  unfold Collector.read Collector.readBy at hread
  obtain ⟨u, hu, hread⟩ := bind_eq_ok.mp hread
  obtain ⟨data, _, rfl⟩ := absorbBytes_eq_ok.mp hu
  by_cases hz : (receiver host none).need (holding s data [b].length) = 0
  · rw [if_pos hz] at hread
    obtain ⟨v, hv, hread⟩ := bind_eq_ok.mp hread
    cases hread
    exact Int.le_trans hle (handleData_handled hv).state_le
  · rw [if_neg hz] at hread
    cases hread
    exact hle

end Aura.Proofs
