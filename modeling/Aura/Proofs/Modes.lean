import Aura.Proofs.Discovery

/-!
# Discovery data and replies

One field tells a packet that describes an object from one that answers a
call: `state`, zero during a discovery and zero again while a call waits. So a
reply is taken for an object, unless its body is a single byte, which is the
mark that ends a discovery. As long as every packet that arrives while a call
waits is of that kind, nothing is taken for an object and every wait ends
(`modesSeparate_of_oneByte`); an ordinary reply breaks both
(`modes_not_separate`).
-/

namespace Aura.Proofs

open Aura.Lib Aura.Ref

/-! ## After a discovery -/

/-- Any event but another discovery. -/
def NoDiscovery (_ : Port) : SerialEvent → Prop
  | .discovery _ => False
  | _ => True

instance (p : Port) : ∀ e, Decidable (NoDiscovery p e)
  | .discovery _ => isFalse id
  | .epollin _ _ | .epollout _ _ | .call _ _ => isTrue trivial

theorem NoDiscovery.ne {p : Port} {e : SerialEvent} (h : NoDiscovery p e)
    (env : CallEnv) : e ≠ .discovery env := by
  rintro rfl
  exact h

/-- An instance whose `urpc_serial_discovery` has returned: its wait loop ran
until `state` was not zero any more, and the urpc plugin filled in what it
makes of the objects. -/
def DiscoveryReturned (host : Endian) (p : Port) : Prop :=
  ∃ env p₀ p₁ q inst, urpcSerialDiscovery env p₀ = .ok p₁ ∧
    Runs (serialStep host) NoDiscovery p₁ q ∧ q.xfer.data.state ≠ 0 ∧
    p = { q with xfer := { q.xfer with data := { q.xfer.data with inst } } }

/-- A body is there: `y` is what the handler of packets will find. -/
def Completes (p : Port) (bytes : List UInt8) (y : SerialXfer) : Prop :=
  absorbBytes p.xfer bytes = .ok y ∧ y.expectBytes = 0 ∧
    y.handleData = .packets ∧ y.data.rxstate = .getBody

/-- Replies and discovery data kept apart, in every run from `p`: no packet
touches the objects, and the first packet that completes while a call waits
ends the wait. -/
structure ModesSeparate (host : Endian) (guard : Port → SerialEvent → Prop)
    (p : Port) : Prop where
  objects_kept : ∀ q, Runs (serialStep host) guard p q →
    q.xfer.data.inst = p.xfer.data.inst ∧
      q.xfer.data.objcount = p.xfer.data.objcount
  wait_ends : ∀ q, Runs (serialStep host) guard p q →
    ∀ bytes g y, guard q (.epollin (.got bytes) g) → 0 < bytes.length →
      q.xfer.data.state = 0 → Completes q bytes y →
      ∃ r, serialStep host q (.epollin (.got bytes) g) = .ok r ∧
        r.xfer.data.state ≠ 0

/-- The length of the packet in the buffer reads 1. -/
def OneByteBody (host : Endian) (y : SerialXfer) : Prop :=
  ∃ n, numberToInt host y.recv.data 1 y.data.szSz = .ok n ∧ cInt n = 1

/-- Every packet that completes while a call waits has a body of one byte. -/
def OneByteReplies (host : Endian) (p : Port) (e : SerialEvent) : Prop :=
  NoDiscovery p e ∧ ∀ bytes g y, e = .epollin (.got bytes) g →
    Completes p bytes y → y.data.state = 0 → OneByteBody host y

/-! ## The handler in charge -/

/-- While the handler of packets is not in charge, `state` is zero. -/
def PacketsOrZero (x : SerialXfer) : Prop :=
  x.handleData = .packets ∨ x.data.state = 0

theorem Handled.packetsOrZero {host : Endian} {g : Grant} {h : Handler}
    {x y : SerialXfer} (hx : x.handleData = h) (hy : Handled host g x h y)
    (hinv : PacketsOrZero x) : PacketsOrZero y := by
  cases hy with
  | noise => exact hinv
  | ignored => exact hinv
  | features => exact .inl rfl
  | counts => exact .inl hx
  | adds => exact .inl hx
  | start hs hb he =>
      obtain ⟨data, hy⟩ := auraAsyncExpectBytes_eq_ok he
      exact .inl (by rw [hy, expecting_handleData]; exact hx)
  | length hs hn he =>
      obtain ⟨data, hy⟩ := auraAsyncExpectBytes_eq_ok he
      exact .inl (by rw [hy, expecting_handleData]; exact hx)
  | startInit hs hb he =>
      obtain ⟨data, hy⟩ := auraAsyncExpectBytes_eq_ok he
      refine hinv.imp (fun h => ?_) (fun h => ?_)
      · rw [hx] at h
        cases h
      · rw [hy, expecting_data]
        exact h

/-- When a discovery has returned, the handler of packets is in charge. -/
theorem DiscoveryReturned.packets {host : Endian} {p : Port}
    (h : DiscoveryReturned host p) : p.xfer.handleData = .packets := by
  obtain ⟨env, p₀, p₁, q, inst, hstart, hrun, hstate, rfl⟩ := h
  obtain ⟨transferlist, hook, r, y, _, hp₁⟩ :=
    urpcSerialDiscovery_eq_ok hstart
  have hq : PacketsOrZero q.xfer := by
    apply hrun.invariant (I := fun q => PacketsOrZero q.xfer)
    · intro s e t hinv hguard hstep
      have hs := serialStep_stepped (NoDiscovery.ne hguard) hstep
      generalize t.xfer = x at hs
      cases hs with
      | nothing => exact hinv
      | absorbs hy =>
          obtain ⟨hdata, hhandler⟩ := absorbBytes_data hy
          rwa [PacketsOrZero, hdata, hhandler]
      | fires hy hzero hz =>
          obtain ⟨hdata, hhandler⟩ := absorbBytes_data hy
          refine (handleData_handled hz).packetsOrZero rfl ?_
          rwa [PacketsOrZero, hdata, hhandler]
      | sends he _ _ _ state hstate =>
          rcases hstate with rfl | rfl
          · exact hinv
          · exact .inr rfl
    · rw [hp₁]
      exact .inr rfl
  exact hq.resolve_right hstate

/-! ## One-byte replies -/

theorem Completes.handled {host : Endian} {g : Grant} {p : Port}
    {bytes : List UInt8} {y : SerialXfer} (h : Completes p bytes y) :
    serialStep host p (.epollin (.got bytes) g)
      = (getBody host y).map fun xfer => { p with xfer } := by
  obtain ⟨hy, hzero, hhandler, hs⟩ := h
  rw [serialStep, handlerIn_got, hy, ok_bind, if_pos hzero, hhandler,
    handleData_packets_getBody hs]
  cases getBody host y <;> rfl

/-- A wait ends with the packet that completes exactly when its body is one
byte. -/
theorem wait_ends_iff {host : Endian} {g : Grant} {p : Port}
    {bytes : List UInt8} {y : SerialXfer} (h : Completes p bytes y)
    (hwait : p.xfer.data.state = 0) :
    (∃ r, serialStep host p (.epollin (.got bytes) g) = .ok r ∧
      r.xfer.data.state ≠ 0) ↔ OneByteBody host y := by
  have hstate : y.data.state = 0 := by
    rw [(absorbBytes_data h.1).1]
    exact hwait
  rw [h.handled]
  constructor
  · rintro ⟨r, hr, hne⟩
    cases hbody : getBody host y with
    | error e =>
        rw [hbody] at hr
        cases hr
    | ok z =>
        rw [hbody] at hr
        cases hr
        cases getBody_handled (g := none) h.2.2.2 hbody with
        | counts hs hcount => exact hcount.resolve_left (not_not.mpr hstate)
        | adds => exact absurd hstate hne
        | noise hs => cases h.2.2.2.symm.trans hs
        | start hs => cases h.2.2.2.symm.trans hs
        | length hs => cases h.2.2.2.symm.trans hs
        | ignored => exact absurd hstate hne
  · rintro ⟨n, hn, hone⟩
    rw [getBody_of_one hstate hn hone, hstate,
      intArith_of_mem (by decide) (by decide)]
    exact ⟨_, rfl, show (0 : Int) + 1 ≠ 0 by decide⟩

/-- What every state of a run shares with the state the discovery left. -/
structure ObjectsKept (p q : Port) : Prop where
  handler : q.xfer.handleData = .packets
  inst : q.xfer.data.inst = p.xfer.data.inst
  objcount : q.xfer.data.objcount = p.xfer.data.objcount

theorem Handled.keeps_objects {host : Endian} {g : Grant} {x y : SerialXfer}
    (h : Handled host g x .packets y)
    (hone : x.data.rxstate = .getBody → x.data.state = 0 →
      OneByteBody host x) :
    y.data.inst = x.data.inst ∧ y.data.objcount = x.data.objcount ∧
      (x.handleData = .packets → y.handleData = .packets) := by
  cases h with
  | noise => exact ⟨rfl, rfl, id⟩
  | ignored => exact ⟨rfl, rfl, id⟩
  | counts => exact ⟨rfl, rfl, id⟩
  | start hs hb he =>
      obtain ⟨data, hy⟩ := auraAsyncExpectBytes_eq_ok he
      rw [hy, expecting_data, expecting_handleData]
      exact ⟨rfl, rfl, id⟩
  | length hs hn he =>
      obtain ⟨data, hy⟩ := auraAsyncExpectBytes_eq_ok he
      rw [hy, expecting_data, expecting_handleData]
      exact ⟨rfl, rfl, id⟩
  | adds hs hzero hn hne =>
      obtain ⟨m, hm, hmone⟩ := hone hs hzero
      cases hn.symm.trans hm
      exact absurd hmone hne

theorem objectsKept_step {host : Endian} {p q r : Port} {e : SerialEvent}
    (h : ObjectsKept p q) (hguard : OneByteReplies host q e)
    (hstep : serialStep host q e = .ok r) : ObjectsKept p r := by
  obtain ⟨hhandler, hinst, hcount⟩ := h
  have hs := serialStep_stepped hguard.1.ne hstep
  suffices hkeep : r.xfer.handleData = .packets ∧
      r.xfer.data.inst = q.xfer.data.inst ∧
      r.xfer.data.objcount = q.xfer.data.objcount from
    ⟨hkeep.1, hkeep.2.1.trans hinst, hkeep.2.2.trans hcount⟩
  generalize r.xfer = x at hs
  cases hs with
  | nothing => exact ⟨hhandler, rfl, rfl⟩
  | absorbs hy =>
      obtain ⟨hdata, hsame⟩ := absorbBytes_data hy
      rw [hdata, hsame]
      exact ⟨hhandler, rfl, rfl⟩
  | fires hy hzero hz =>
      obtain ⟨hdata, hsame⟩ := absorbBytes_data hy
      rw [hsame, hhandler] at hz
      obtain ⟨hi, hc, hp⟩ := (handleData_handled hz).keeps_objects
        fun hs hstate => hguard.2 _ _ _ rfl
          ⟨hy, hzero, hsame.trans hhandler, hs⟩ hstate
      rw [hi, hc, hdata]
      exact ⟨hp (hsame.trans hhandler), rfl, rfl⟩
  | sends => exact ⟨hhandler, rfl, rfl⟩

/-- If every packet that comes while a call waits has a body of one byte, the
modes stay apart. -/
theorem modesSeparate_of_oneByte {host : Endian} {p : Port}
    (hp : DiscoveryReturned host p) :
    ModesSeparate host (OneByteReplies host) p := by
  have hstart : ObjectsKept p p := ⟨hp.packets, rfl, rfl⟩
  constructor
  · intro q hrun
    have hq := hrun.invariant
      (fun s e t hs hguard hstep => objectsKept_step hs hguard hstep) hstart
    exact ⟨hq.inst, hq.objcount⟩
  · intro q hrun bytes g y hguard _ hwait hdone
    have hstate : y.data.state = 0 := by
      rw [(absorbBytes_data hdone.1).1]
      exact hwait
    exact (wait_ends_iff hdone hwait).mpr
      (hguard.2 bytes g y rfl hdone hstate)

/-! ## An ordinary reply -/

/-- A method `f` without arguments and with a reply of one byte. -/
def methodF : UrpcObject :=
  { flags := 1, name := some [chr 'f'], args := none, acache := none
    reply := some (formatOf [.u8]), rcache := some [.unpack .u8] }

/-- A device that describes it. -/
def describesF : List SerialEvent :=
  reads [[magicStart], [1, 1, chr 'l', 0, 0], [magicStart], [9],
    [1, 0, chr 'f', 0, 0, chr '1', chr 'u', chr ';', 0], [magicStart], [1], [7]]

/-- The instance after its discovery. -/
def portF : Port :=
  let q := afterwards (serialStep .little) waitingPort describesF
  { q with xfer := { q.xfer with
    data := { q.xfer.data with inst := ⟨[methodF], [methodF]⟩ } } }

/-- The method is called and replies 7: length, id, value, checksum. -/
def callF : List SerialEvent :=
  .call generousEnv 0 :: reads [[magicStart], [3], [0, 7, 10]]

theorem discoveryReturned_portF : DiscoveryReturned .little portF :=
  ⟨generousEnv, openedPort, waitingPort, _, _, urpcSerialDiscovery_openedPort,
    Runs.afterwards (l := describesF) (by decide +kernel), by decide +kernel,
    rfl⟩

theorem modesSeparate_portF :
    ModesSeparate .little (OneByteReplies .little) portF :=
  modesSeparate_of_oneByte discoveryReturned_portF

/-- The reply to a call becomes an object. -/
theorem modes_not_separate :
    ¬ ∀ p, DiscoveryReturned .little p →
      ModesSeparate .little NoDiscovery p := by
  intro h
  have hrun : Runs (serialStep .little) NoDiscovery portF _ :=
    Runs.afterwards (l := callF) (by decide +kernel)
  have hkept := ((h portF discoveryReturned_portF).objects_kept _ hrun).2
  revert hkept
  decide +kernel

end Aura.Proofs
