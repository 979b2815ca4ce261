import Aura.Proofs.Accounting
import Aura.Proofs.Reading

/-!
# Garbage

With a length field of one byte a receiver is never owed more than a start
byte, a length and 255 bytes of body. Whatever these turn out to be, it is then
back where it waits for the next packet (`garbage_resyncs`): every read either
brings it back or brings it nearer by the bytes read (`Normal.read`).
-/

namespace Aura.Proofs

open Aura.Lib Aura.Ref

/-! ## Reads -/

/-- One read. -/
def readStep (host : Endian) (x : SerialXfer) (r : SerialRead) :
    Res SerialXfer :=
  auraAsyncXferHandlerIn (handleData host r.2) r.1 x

/-- What `read` promises. -/
def ReadKept (x : SerialXfer) (r : SerialRead) : Prop :=
  match r.1 with
  | .failed => True
  | .got bytes => ReadReturns x bytes

instance decidableReadKept (x : SerialXfer) : DecidablePred (ReadKept x)
  | (.failed, _) => isTrue trivial
  | (.got _, _) => inferInstanceAs (Decidable (_ ≤ _))

/-- A read that completes what `x` waits for, and leaves `z`, which waits for
the next packet with nothing received. -/
structure Resyncs (host : Endian) (x : SerialXfer) (r : SerialRead)
    (z : SerialXfer) : Prop where
  goes : readStep host x r = .ok z
  fires : callsDuring r.1 x ≠ []
  waits : z.data.rxstate = .waitStart
  empty : z.recv.size = 0

/-- An instance in normal operation, with lengths of one byte and room for the
longest packet. -/
structure Normal (host : Endian) (x : SerialXfer) : Prop where
  staged : Staged host x
  packets : x.handleData = .packets
  szSz : x.data.szSz = 1
  state_ne : x.data.state ≠ 0
  state_ge : 0 ≤ x.data.state
  state_lt : x.data.state < intMax
  room : 257 ≤ x.recv.alloc

/-- At most this many bytes more, and a packet is over. -/
def owed (x : SerialXfer) : Nat :=
  match x.data.rxstate with
  | .waitStart => 257
  | .getLen => 256
  | .getBody => max 1 x.expectBytes.toNat
  | .discovery => 0

/-- What a read leads to: back, or nearer by the bytes it brings. -/
def Nears (host : Endian) (x : SerialXfer) (bytes : List UInt8) (g : Grant) :
    Prop :=
  (∃ z, Resyncs host x (.got bytes, g) z ∧ bytes.length ≤ owed x) ∨
    ∃ y, readStep host x (.got bytes, g) = .ok y ∧ Normal host y ∧
      bytes.length + owed y ≤ owed x

section Nears

variable {host : Endian} {x y z : SerialXfer} {bytes : List UInt8} {g : Grant}

theorem Normal.alloc_le (hx : Normal host x) :
    (x.recv.alloc : Int) ≤ intMax := hx.staged.alloc_le

/-- A length of one byte. -/
theorem lengthOf_one_lt (w : List UInt8) : lengthOf host 1 w < 256 := by
  have hle : (w.take 1).length ≤ 1 := by
    rw [List.length_take]
    exact Nat.min_le_left ..
  exact Nat.lt_of_lt_of_le (host.decode_lt (w.take 1))
    (Nat.pow_le_pow_right (by decide) hle)

/-- The three places a normal receiver can be at. -/
theorem Normal.stages (hx : Normal host x) :
    (x.data.rxstate = .waitStart ∧ x.recv.size = 0 ∧ x.expectBytes = 1) ∨
    (x.data.rxstate = .getLen ∧ x.recv.payload = [magicStart] ∧
      x.expectBytes = 1) ∨
    (x.data.rxstate = .getBody ∧ 0 ≤ x.expectBytes ∧
      (x.recv.size : Int) + x.expectBytes ≤ 257) := by
  have hpackets := hx.packets
  have hone := hx.szSz
  cases hx.staged.stage with
  | announce hh | features hh => cases hpackets.symm.trans hh
  | lost _ hk => exact absurd (.inl hone) hk
  | start _ hs _ _ hsize he => exact .inl ⟨hs, hsize, he⟩
  | @length k w _ hs _ hsz hw hsum hpos =>
      have hnil : w = [] := List.eq_nil_of_length_eq_zero (by omega)
      subst hnil
      rw [List.length_nil] at hsum
      exact .inr (.inl ⟨hs, hw, by omega⟩)
  | @body k w n _ hs _ hsz hw hn hlen hsum hpos =>
      obtain rfl : k = 1 := by omega
      have hsmall := @lengthOf_one_lt host w
      have hcount : n = lengthOf host 1 w := by
        rw [hn]
        exact cInt_of_mem (by unfold intMax; omega) (by unfold intMax; omega)
      have hsize := size_of_payload hx.staged.inside hw
      exact .inr (.inr ⟨hs, hpos (by omega), by omega⟩)

/-- Never more than the longest packet. -/
theorem Normal.fits (hx : Normal host x) :
    0 ≤ x.expectBytes ∧ (x.recv.size : Int) + x.expectBytes ≤ 257 := by
  rcases hx.stages with ⟨_, hsize, he⟩ | ⟨_, hw, he⟩ | ⟨_, hfits⟩
  · omega
  · have hsize := size_of_payload hx.staged.inside hw
    rw [List.length_nil] at hsize
    omega
  · exact hfits

theorem Normal.owed_pos (hx : Normal host x) : 0 < owed x := by
  rcases hx.stages with ⟨hs, _⟩ | ⟨hs, _⟩ | ⟨hs, _⟩ <;> simp [owed, hs]

theorem Normal.owed_le (hx : Normal host x) : owed x ≤ 257 := by
  rcases hx.stages with ⟨hs, _⟩ | ⟨hs, _⟩ | ⟨hs, _, hfits⟩
  · simp [owed, hs]
  · simp [owed, hs]
  · simp only [owed, hs]
    omega

/-- A normal receiver that has taken its bytes and goes on with them. -/
theorem Normal.keeps (hx : Normal host x) (hz : Staged host z)
    (hh : z.handleData = x.handleData) (hsz : z.data.szSz = x.data.szSz)
    (hstate : z.data.state = x.data.state)
    (halloc : z.recv.alloc = x.recv.alloc) : Normal host z where
  staged := hz
  packets := hh.trans hx.packets
  szSz := hsz.trans hx.szSz
  state_ne := hstate ▸ hx.state_ne
  state_ge := hstate ▸ hx.state_ge
  state_lt := hstate ▸ hx.state_lt
  room := halloc ▸ hx.room

/-- A part of what is waited for, or nothing. -/
theorem Normal.nears_part (hx : Normal host x) (hasked : ReadReturns x bytes)
    (hy : absorbBytes x bytes = .ok y) (hmore : y.expectBytes ≠ 0) :
    Nears host x bytes g := by
  have habs := absorbed_of_eq_ok hy
  have hexpect := habs.expectBytes
  obtain ⟨hpos, hfits⟩ := hx.fits
  have hle := hasked.le hpos (by unfold intMax; omega)
  refine .inr ⟨y, handlerIn_short hy hmore, hx.keeps
    (hx.staged.absorbs hasked habs hmore) habs.handleData (by rw [habs.data])
    (by rw [habs.data]) habs.alloc, ?_⟩
  rcases hx.stages with ⟨hs, _, he⟩ | ⟨hs, _, he⟩ | ⟨hs, _⟩
  · simp only [owed, habs.data, hs]
    omega
  · simp only [owed, habs.data, hs]
    omega
  · simp only [owed, habs.data, hs]
    omega

/-- The piece is complete, and the handler asks for the next. -/
theorem Normal.requests (hx : Normal host x) (hy : absorbBytes x bytes = .ok y)
    (hzero : y.expectBytes = 0) {st : RxState} {n : Nat} (hn : n ≤ 257)
    (hcall : handleData host g y.handleData y
      = auraAsyncExpectBytes g (entering y st) n >>= fun r => pure r.2) :
    ∃ z, readStep host x (.got bytes, g) = .ok z ∧ Normal host z ∧
      z.data.rxstate = st ∧ z.expectBytes = n := by
  have habs := absorbed_of_eq_ok hy
  have halloc : (entering y st).recv.alloc = x.recv.alloc := habs.alloc
  have hroom := hx.room
  have hmax := hx.alloc_le
  rw [auraAsyncExpectBytes_fits g (by rw [halloc]; exact hmax)
    (by rw [halloc]; omega) (by rw [halloc]; omega)] at hcall
  refine ⟨_, (handlerIn_full hy hzero).trans hcall, ?_, rfl, rfl⟩
  exact hx.keeps (hx.staged.fires habs hzero hcall) habs.handleData
    (show y.data.szSz = x.data.szSz by rw [habs.data])
    (show y.data.state = x.data.state by rw [habs.data]) habs.alloc

theorem callsDuring_ne_nil (hy : absorbBytes x bytes = .ok y)
    (hzero : y.expectBytes = 0) : callsDuring (.got bytes) x ≠ [] := by
  simp [callsDuring, hy, hzero]

/-- The start byte, or what is there in its place. -/
theorem Normal.nears_start (hx : Normal host x)
    (hy : absorbBytes x bytes = .ok y) (hzero : y.expectBytes = 0)
    (hs : x.data.rxstate = .waitStart) (he : x.expectBytes = 1) :
    Nears host x bytes g := by
  have hroom := hx.room
  have habs := absorbed_of_eq_ok hy
  have hexpect := habs.expectBytes
  have hs' : y.data.rxstate = .waitStart := by rw [habs.data, hs]
  have howed : owed x = 257 := by rw [owed, hs]
  have hcall : handleData host g y.handleData y = awaitStart g y .getLen 1 := by
    rw [habs.handleData, hx.packets, handleData_packets_waitStart hs',
      habs.data, hx.szSz]
  obtain ⟨b, hb⟩ : ∃ b, loadByte y.recv.data 0 = .ok b :=
    ⟨_, loadByte_of_lt (show 0 < y.recv.data.length by
      have halloc : y.recv.data.length = _ := habs.alloc
      omega)⟩
  rw [awaitStart, hb, ok_bind] at hcall
  by_cases hstart : b = magicStart
  · rw [if_neg (not_not.mpr hstart)] at hcall
    obtain ⟨z, hz, hnormal, hlen, _⟩ :=
      hx.requests (n := 1) hy hzero (by decide) hcall
    refine .inr ⟨z, hz, hnormal, ?_⟩
    simp only [owed, hs, hlen]
    omega
  · rw [if_pos hstart] at hcall
    exact .inl ⟨resynced y, ⟨(handlerIn_full hy hzero).trans hcall,
      callsDuring_ne_nil hy hzero, hs', rfl⟩, by omega⟩

/-- The length behind the start byte: so many more are owed. -/
theorem Normal.nears_length (hx : Normal host x)
    (hy : absorbBytes x bytes = .ok y) (hzero : y.expectBytes = 0)
    (hs : x.data.rxstate = .getLen) (hw : x.recv.payload = [magicStart])
    (he : x.expectBytes = 1) : Nears host x bytes g := by
  have habs := absorbed_of_eq_ok hy
  have hexpect := habs.expectBytes
  have hs' : y.data.rxstate = .getLen := by rw [habs.data, hs]
  have hpay : y.recv.payload = magicStart :: bytes := by
    rw [habs.payload, hw]
    rfl
  have hsmall := @lengthOf_one_lt host bytes
  have hnum : numberToInt host y.recv.data 1 1 = .ok (lengthOf host 1 bytes) :=
    numberToInt_payload (k := 1) (.inl rfl) hpay (by omega)
  have hcall : handleData host g y.handleData y
      = auraAsyncExpectBytes g (entering y .getBody) (lengthOf host 1 bytes)
        >>= fun r => pure r.2 := by
    rw [habs.handleData, hx.packets, handleData_packets_getLen hs', habs.data,
      hx.szSz, hnum, ok_bind, cInt_of_mem (by unfold intMax; omega)
      (by unfold intMax; omega)]
  obtain ⟨z, hz, hnormal, hbody, hz'⟩ := hx.requests hy hzero (by omega) hcall
  refine .inr ⟨z, hz, hnormal, ?_⟩
  simp only [owed, hs, hbody, hz']
  omega

/-- The body: whatever it is, the packet is counted. -/
theorem Normal.nears_body (hx : Normal host x)
    (hy : absorbBytes x bytes = .ok y) (hzero : y.expectBytes = 0)
    (hs : x.data.rxstate = .getBody) : Nears host x bytes g := by
  have hge := hx.state_ge
  have hlt := hx.state_lt
  have habs := absorbed_of_eq_ok hy
  have hexpect := habs.expectBytes
  have hs' : y.data.rxstate = .getBody := by rw [habs.data, hs]
  have hcall : handleData host g y.handleData y
      = .ok (counted y (x.data.state + 1)) := by
    rw [habs.handleData, hx.packets, handleData_packets_getBody hs',
      getBody_of_ne_zero (by rw [habs.data]; exact hx.state_ne), habs.data,
      intArith_of_mem (by unfold intMax; omega) (by omega)]
    rfl
  refine .inl ⟨_, ⟨(handlerIn_full hy hzero).trans hcall,
    callsDuring_ne_nil hy hzero, rfl, rfl⟩, ?_⟩
  simp only [owed, hs]
  omega

/-- Each read brings a normal receiver back, or nearer. -/
theorem Normal.read (hx : Normal host x) (hasked : ReadReturns x bytes) :
    Nears host x bytes g := by
  have hroom := hx.room
  obtain ⟨hpos, hfits⟩ := hx.fits
  have hle := hasked.le hpos (by unfold intMax; omega)
  obtain ⟨y, hy⟩ := absorbBytes_room.mpr
    (show x.recv.size + bytes.length ≤ x.recv.alloc by omega)
  by_cases hzero : y.expectBytes = 0
  · rcases hx.stages with ⟨hs, _, he⟩ | ⟨hs, hw, he⟩ | ⟨hs, _⟩
    · exact hx.nears_start hy hzero hs he
    · exact hx.nears_length hy hzero hs hw he
    · exact hx.nears_body hy hzero hs
  · exact hx.nears_part hasked hy hzero

end Nears

/-! ## Streams -/

section Streams

variable {host : Endian} {x y z : SerialXfer} {rs : List SerialRead}

theorem received_step {r : SerialRead} (hy : readStep host x r = .ok y) :
    received host x (r :: rs) = received host y rs := by
  obtain ⟨r, g⟩ := r
  rw [received_cons]
  show readStep host x (r, g) >>= _ = _
  rw [hy, ok_bind]

/-- As many bytes as are owed bring the receiver back. -/
theorem Normal.resyncs (hx : Normal host x)
    (hrs : Guarded (readStep host) ReadKept x rs)
    (hlong : owed x ≤ (bytesOf rs).length) :
    ∃ before r y z, before ++ [r] <+: rs ∧
      (bytesOf (before ++ [r])).length ≤ owed x ∧
      received host x before = .ok y ∧ Resyncs host y r z := by
  induction rs generalizing x with
  | nil => exact absurd hlong (Nat.not_le.mpr hx.owed_pos)
  | cons r rs ih =>
      obtain ⟨r, g⟩ := r
      obtain ⟨hasked, hrest⟩ := hrs
      cases r with
      | failed =>
          obtain ⟨before, r, y, z, hbefore, hlen, hy, hz⟩ :=
            ih hx (hrest x rfl) hlong
          exact ⟨(.failed, g) :: before, r, y, z,
            List.cons_prefix_cons.mpr ⟨rfl, hbefore⟩, hlen,
            (received_failed g).trans hy, hz⟩
      | got bytes =>
          rcases hx.read (g := g) hasked with ⟨z, hz, hle⟩ | ⟨y, hy, hnormal, hle⟩
          · refine ⟨[], (.got bytes, g), x, z, ?_, ?_, rfl, hz⟩
            · exact List.cons_prefix_cons.mpr ⟨rfl, List.nil_prefix⟩
            · rw [List.nil_append, bytesOf_got, List.length_append]
              exact hle
          · rw [bytesOf_got, List.length_append] at hlong
            obtain ⟨before, r, u, z, hbefore, hlen, hu, hz⟩ :=
              ih hnormal (hrest y hy) (by omega)
            refine ⟨(.got bytes, g) :: before, r, u, z,
              List.cons_prefix_cons.mpr ⟨rfl, hbefore⟩, ?_,
              (received_step hy).trans hu, hz⟩
            rw [List.cons_append, bytesOf_got, List.length_append]
            omega

theorem received_runs (h : received host x rs = .ok z) :
    Runs (readStep host) (fun _ _ => True) x z := by
  induction rs generalizing x with
  | nil =>
      cases h
      exact .refl x
  | cons r rs ih =>
      obtain ⟨r, g⟩ := r
      rw [received_cons] at h
      obtain ⟨y, hy, h⟩ := bind_eq_ok.mp h
      exact Relation.ReflTransGen.head ⟨(r, g), trivial, hy⟩ (ih h)

/-- What the stream leaves as it is. -/
structure Undisturbed (x y : SerialXfer) : Prop where
  packets : y.handleData = .packets
  state_pos : 0 < y.data.state
  inst : y.data.inst = x.data.inst
  objcount : y.data.objcount = x.data.objcount

theorem readStep_undisturbed {r : SerialRead} (hx : x.handleData = .packets)
    (hpos : 0 < x.data.state) (h : readStep host x r = .ok y) :
    Undisturbed x y := by
  obtain ⟨r, g⟩ := r
  cases r with
  | failed =>
      cases h
      exact ⟨hx, hpos, rfl, rfl⟩
  | got bytes =>
      rw [readStep, handlerIn_got] at h
      obtain ⟨u, hu, h⟩ := bind_eq_ok.mp h
      obtain ⟨hdata, hhandler⟩ := absorbBytes_data hu
      rw [hx] at hhandler
      by_cases hzero : u.expectBytes = 0
      · rw [if_pos hzero, hhandler] at h
        have hhandled := handleData_handled h
        obtain ⟨hinst, hcount, hh⟩ := hhandled.keeps_objects fun _ hstate => by
          rw [hdata] at hstate
          omega
        have hle := hhandled.state_le
        rw [hdata] at hinst hcount hle
        exact ⟨hh hhandler, Int.lt_of_lt_of_le hpos hle, hinst, hcount⟩
      · rw [if_neg hzero] at h
        cases h
        exact ⟨hhandler, by rwa [hdata], by rw [hdata], by rw [hdata]⟩

theorem received_undisturbed (hx : x.handleData = .packets)
    (hpos : 0 < x.data.state) (h : received host x rs = .ok z) :
    Undisturbed x z := by
  refine (received_runs h).invariant (I := Undisturbed x) ?_ ⟨hx, hpos, rfl, rfl⟩
  intro s r t hs _ hstep
  have ht := readStep_undisturbed hs.packets hs.state_pos hstep
  exact ⟨ht.packets, ht.state_pos, ht.inst.trans hs.inst,
    ht.objcount.trans hs.objcount⟩

end Streams

/-! ## Instances -/

section Instances

variable {host : Endian} {guard : Port → SerialEvent → Prop} {p : Port}

/-- Only calls and discoveries set the counter back. -/
theorem LivesUnder.state_nonneg (h : LivesUnder host guard p) :
    0 ≤ p.xfer.data.state := by
  induction h with
  | discovers hp h =>
      obtain ⟨transferlist, hook, hq⟩ := hp.discovers h
      rw [hq]
  | fills _ inst ih => exact ih
  | @steps p q e hp _ _ h ih =>
      rcases serialStep_cases h with ⟨env, rfl, hd⟩ | hs
      · obtain ⟨_, _, _, y, _, hq⟩ := urpcSerialDiscovery_eq_ok hd
        rw [hq]
      · generalize q.xfer = z at hs
        cases hs with
        | nothing => exact ih
        | absorbs hy =>
            rw [(absorbBytes_data hy).1]
            exact ih
        | fires hy hzero hz =>
            have hle := (handleData_handled hz).state_le
            rw [(absorbBytes_data hy).1] at hle
            exact Int.le_trans ih hle
        | sends _ _ _ _ state hstate =>
            show 0 ≤ state
            omega

/-- No garbage can wedge the receiver: within 257 bytes it is between two
packets again, and none of them is taken for an object. -/
theorem garbage_resyncs {rs : List SerialRead} (hp : LivesUnder host guard p)
    (hh : p.xfer.handleData = .packets) (hsz : p.xfer.data.szSz = 1)
    (hne : p.xfer.data.state ≠ 0) (hlt : p.xfer.data.state < intMax)
    (hroom : 257 ≤ p.xfer.recv.alloc)
    (hrs : Guarded (readStep host) ReadKept p.xfer rs)
    (hlong : 257 ≤ (bytesOf rs).length) :
    (∃ before r y z, before ++ [r] <+: rs ∧
      (bytesOf (before ++ [r])).length ≤ 257 ∧
      received host p.xfer before = .ok y ∧ Resyncs host y r z) ∧
    ∀ before z, before <+: rs → received host p.xfer before = .ok z →
      z.data.inst.objlist = p.xfer.data.inst.objlist ∧
        z.data.objcount = p.xfer.data.objcount := by
  have hge := hp.state_nonneg
  have hx : Normal host p.xfer :=
    ⟨hp.staged, hh, hsz, hne, hge, hlt, hroom⟩
  constructor
  · obtain ⟨before, r, y, z, hbefore, hlen, hy, hz⟩ :=
      hx.resyncs hrs (Nat.le_trans hx.owed_le hlong)
    exact ⟨before, r, y, z, hbefore, Nat.le_trans hlen hx.owed_le, hy, hz⟩
  · intro before z _ hz
    have hkept := received_undisturbed hh (by omega) hz
    exact ⟨congrArg _ hkept.inst, hkept.objcount⟩

end Instances

/-- An instance with a buffer of 300 bytes that waits for an answer. -/
def roomyPort : Port :=
  { waitingPort with xfer := { waitingPort.xfer with
      recv := ⟨List.replicate 300 0, 0⟩ } }

set_option maxRecDepth 4000 in
theorem livesUnder_roomyPort :
    LivesUnder .little (fun _ _ => True) roomyPort := by
  have hstart : urpcSerialDiscovery generousEnv
      { openedPort with xfer := { openedPort.xfer with
          recv := ⟨List.replicate 300 0, 0⟩ } } = .ok roomyPort := rfl
  exact .discovers ⟨by decide +kernel, by decide +kernel, rfl⟩ hstart

/-- A device without objects, which has begun a packet after its answer. -/
def listeningPort : Port :=
  afterwards (serialStep .little) roomyPort
    (reads [[magicStart], [1, 1, chr 'l', 0, 0], [magicStart], [1], [7],
      [magicStart]])

/-- The longest packet there is, and one byte more. -/
def garbage : List SerialRead :=
  [(.got [255], none), (.failed, none), (.got (List.replicate 200 91), none),
    (.got (List.replicate 55 0), none), (.got [0], none)]

theorem garbage_resyncs_listening :
    (∃ before r y z, before ++ [r] <+: garbage ∧
      (bytesOf (before ++ [r])).length ≤ 257 ∧
      received .little listeningPort.xfer before = .ok y ∧
      Resyncs .little y r z) ∧
    ∀ before z, before <+: garbage →
      received .little listeningPort.xfer before = .ok z →
      z.data.inst.objlist = listeningPort.xfer.data.inst.objlist ∧
        z.data.objcount = listeningPort.xfer.data.objcount :=
  garbage_resyncs
    (livesUnder_roomyPort.runs (Runs.afterwards (by decide +kernel)))
    (by decide +kernel) (by decide +kernel) (by decide +kernel)
    (by decide +kernel) (by decide +kernel) (by decide +kernel)
    (by decide +kernel)

end Aura.Proofs
