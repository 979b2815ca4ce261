import Aura.Proofs.CallFrame
import Aura.Proofs.Discovery

/-!
# Room in the receive buffer

`aura_async_expect_bytes` compares a request with the whole block, although
the header of the packet already lies in it. A request is safe when it fits
behind the header, and safe again when it is so much larger than the block
that growing the block by twice what is missing makes room for the header too;
in between it is not (`expectBytes_fits_iff`). If every length a device sends
is on the safe side, no read ever stores past the block
(`bufferFits_of_lengthsFit`); a length of 255 is not (`buffer_too_small`).
-/

namespace Aura.Proofs

open Aura.Lib Aura.Ref

/-! ## One request -/

/-- What is still expected is not negative and has room behind what is
there. -/
def BufferFits (x : SerialXfer) : Prop :=
  0 ≤ x.expectBytes ∧ (x.recv.size : Int) + x.expectBytes ≤ x.recv.alloc

instance (x : SerialXfer) : Decidable (BufferFits x) :=
  inferInstanceAs (Decidable (_ ∧ _))

/-- A request of `n` bytes that leaves room for itself: in the block as it is,
or in the block it is grown to. -/
def Room (x : SerialXfer) (n : Int) : Prop :=
  0 ≤ n ∧ ((x.recv.size : Int) + n ≤ x.recv.alloc ∨
    ((x.recv.alloc : Int) + x.recv.size ≤ n ∧ 2 * n - x.recv.alloc ≤ intMax))

instance (x : SerialXfer) (n : Int) : Decidable (Room x n) :=
  inferInstanceAs (Decidable (_ ∧ _))

section Request

variable {x : SerialXfer} {n : Int} (junk : Nat → UInt8)

/-- A request beyond the block, granted. -/
theorem expectBytes_grows (hmax : (x.recv.alloc : Int) ≤ intMax)
    (hn : x.recv.alloc < n) (hgrown : 2 * n - x.recv.alloc ≤ intMax) :
    ∃ data, auraAsyncExpectBytes (some junk) x n
        = .ok (0, expecting x data n) ∧
      (data.length : Int) = 2 * n - x.recv.alloc := by
  have hle : n ≤ intMax := by omega
  obtain ⟨d, hd, hsize, halloc, _⟩ := auraChunkRealloc_granted junk
    (c := x.recv) (show 0 ≤ -((x.recv.alloc : Int) - n) * 2 by omega)
    (show (x.recv.alloc : Int) + -((x.recv.alloc : Int) - n) * 2 ≤ intMax by
      omega)
  refine ⟨d.data, ?_, ?_⟩
  · rw [auraAsyncExpectBytes, cInt_of_mem (by unfold intMax at *; omega)
      (by omega), cInt_of_mem (by unfold intMax; omega) hle, if_pos (by omega),
      intArith_of_mem (by unfold intMax; omega) (by omega), ok_bind,
      intArith_of_mem (by unfold intMax; omega) (by omega), ok_bind, hd,
      ok_bind, expecting, ← hsize]
    rfl
  · have hlen : (d.data.length : Int) = x.recv.alloc + _ := halloc
    omega

theorem expectBytes_of_room (hmax : (x.recv.alloc : Int) ≤ intMax)
    (hroom : Room x n) :
    ∃ data, auraAsyncExpectBytes (some junk) x n
        = .ok (0, expecting x data n) ∧
      x.recv.alloc ≤ data.length ∧ (data.length : Int) ≤ intMax ∧
      (x.recv.size : Int) + n ≤ data.length := by
  obtain ⟨hpos, hfit | ⟨hfar, hgrown⟩⟩ := hroom
  · refine ⟨x.recv.data, ?_, Nat.le_refl _, hmax, hfit⟩
    rw [auraAsyncExpectBytes_fits _ hmax (by omega) (by omega)]
    rfl
  · by_cases hn : (x.recv.alloc : Int) < n
    · obtain ⟨data, hreq, hlen⟩ := expectBytes_grows junk hmax hn hgrown
      exact ⟨data, hreq, by omega, by omega, by omega⟩
    · refine ⟨x.recv.data, ?_, Nat.le_refl _, hmax, ?_⟩
      · rw [auraAsyncExpectBytes_fits _ hmax (by omega) (by omega)]
        rfl
      · show _ ≤ (x.recv.alloc : Int)
        omega

/-- A request whose block no `int` can count. -/
theorem expectBytes_overflows (g : Grant) (hn : x.recv.alloc < n)
    (hhi : n ≤ intMax) (hover : intMax < 2 * n - x.recv.alloc) :
    auraAsyncExpectBytes g x n = .error .intOverflow := by
  rw [auraAsyncExpectBytes, cInt_of_mem (by unfold intMax at *; omega)
    (by omega), if_pos (by omega),
    intArith_of_mem (by unfold intMax at *; omega) (by omega), ok_bind]
  by_cases hextra : -((x.recv.alloc : Int) - n) * 2 ≤ intMax
  · rw [intArith_of_mem (by unfold intMax at *; omega) hextra, ok_bind,
      auraChunkRealloc, intArith, if_neg (by omega), error_bind, error_bind]
  · rw [intArith, if_neg (by omega), error_bind]

/-- A granted request fits exactly when it had room. -/
theorem expectBytes_fits_iff (hmax : (x.recv.alloc : Int) ≤ intMax)
    (hlo : -intMax - 1 ≤ n) (hhi : n ≤ intMax) :
    (∃ r y, auraAsyncExpectBytes (some junk) x n = .ok (r, y) ∧ BufferFits y)
      ↔ Room x n := by
  constructor
  · rintro ⟨r, y, h, hpos, hfits⟩
    have hn : 0 ≤ n := by
      obtain ⟨data, rfl⟩ := auraAsyncExpectBytes_eq_ok h
      rw [cInt_of_mem hlo hhi] at hpos
      exact hpos
    by_cases hle : n ≤ x.recv.alloc
    · rw [auraAsyncExpectBytes_fits _ hmax hle (by omega)] at h
      cases h
      exact ⟨hn, .inl hfits⟩
    · by_cases hgrown : 2 * n - x.recv.alloc ≤ intMax
      · obtain ⟨data, hreq, hlen⟩ :=
          expectBytes_grows junk hmax (by omega) hgrown
        rw [hreq] at h
        cases h
        have hroom : (x.recv.size : Int) + n ≤ data.length := hfits
        exact ⟨hn, .inr ⟨by omega, hgrown⟩⟩
      · rw [expectBytes_overflows _ (by omega) hhi (by omega)] at h
        cases h
  · intro hroom
    obtain ⟨data, hreq, _, _, hfit⟩ := expectBytes_of_room junk hmax hroom
    exact ⟨0, _, hreq, hroom.1, hfit⟩

end Request

/-! ## Runs -/

/-- What the handler will find, if the read completes what was waited for. -/
def completed (x : SerialXfer) (bytes : List UInt8) : Option SerialXfer :=
  match absorbBytes x bytes with
  | .ok y => if y.expectBytes = 0 then some y else none
  | .error _ => none

theorem completed_eq_some {x y : SerialXfer} {bytes : List UInt8} :
    completed x bytes = some y ↔
      absorbBytes x bytes = .ok y ∧ y.expectBytes = 0 := by
  unfold completed
  cases absorbBytes x bytes with
  | error e => simp
  | ok z =>
      by_cases hz : z.expectBytes = 0
      · simp only [if_pos hz, Option.some.injEq, Except.ok.injEq]
        exact ⟨fun h => ⟨h, h ▸ hz⟩, And.left⟩
      · simp only [if_neg hz, reduceCtorEq, Except.ok.injEq, false_iff]
        rintro ⟨rfl, h⟩
        exact hz h

instance (n : Int) : Decidable (DeclaredSize n) :=
  inferInstanceAs (Decidable (_ ∨ _))

/-- The feature packet about to be read declares sizes of 1, 2 or 4 bytes. -/
def SizesDeclared (y : SerialXfer) : Prop :=
  y.handleData = .discoveryInit → y.data.rxstate = .discovery →
    ∀ stag ∈ y.recv.data[1]?, DeclaredSize stag.toBitVec.toInt

/-- The length about to be read has room. -/
def LengthFits (host : Endian) (y : SerialXfer) : Prop :=
  y.handleData = .packets → y.data.rxstate = .getLen →
    ∀ n ∈ (numberToInt host y.recv.data 1 y.data.szSz).toOption,
      Room y (cInt n)

/-- What is taken for granted: `read` returns no more than it was asked for,
reallocations succeed, and sizes are of 1, 2 or 4 bytes. -/
def DeviceReads (p : Port) : SerialEvent → Prop
  | .epollin (.got bytes) g =>
      (bytes.length : Int) ≤ p.xfer.expectBytes ∧ g.isSome = true ∧
        ∀ y ∈ completed p.xfer bytes, SizesDeclared y
  | _ => True

/-- And every length has room, and no discovery is started over a buffer that
has none for a feature packet. -/
def LengthsFit (host : Endian) (p : Port) (e : SerialEvent) : Prop :=
  DeviceReads p e ∧
    match e with
    | .epollin (.got bytes) _ => ∀ y ∈ completed p.xfer bytes, LengthFits host y
    | .discovery _ => p.xfer.recv.size + 6 ≤ p.xfer.recv.alloc
    | _ => True

instance (p : Port) : ∀ e, Decidable (DeviceReads p e)
  | .epollin (.got _) _ =>
      have : DecidablePred SizesDeclared := fun _ =>
        inferInstanceAs (Decidable (_ → _ → _))
      inferInstanceAs (Decidable (_ ∧ _ ∧ _))
  | .epollin .failed _ | .epollout _ _ | .call _ _ | .discovery _ =>
      isTrue trivial

instance (host : Endian) (p : Port) : ∀ e, Decidable (LengthsFit host p e)
  | .epollin (.got _) _ =>
      have : DecidablePred (LengthFits host) := fun _ =>
        inferInstanceAs (Decidable (_ → _ → _))
      inferInstanceAs (Decidable (_ ∧ _))
  | .discovery _ => inferInstanceAs (Decidable (_ ∧ _ ≤ _))
  | .epollin .failed _ | .epollout _ _ | .call _ _ =>
      isTrue ⟨trivial, trivial⟩

/-- What each state of the receiver knows about its buffer. -/
def StageFits (x : SerialXfer) : Prop :=
  match x.handleData, x.data.rxstate with
  | .packets, .waitStart =>
      DeclaredSize x.data.szSz ∧ x.recv.size + x.expectBytes = 1
  | .packets, .getLen =>
      DeclaredSize x.data.szSz ∧
        x.recv.size + x.expectBytes = 1 + x.data.szSz
  | .packets, .getBody => DeclaredSize x.data.szSz
  | .packets, .discovery => False
  | .discoveryInit, .waitStart =>
      x.recv.size + x.expectBytes + 5 ≤ x.recv.alloc
  | .discoveryInit, .discovery => True
  | .discoveryInit, _ => False

/-- The invariant of a run in which every length has room. -/
structure RxInv (x : SerialXfer) : Prop where
  alloc_ge : 256 ≤ x.recv.alloc
  alloc_le : (x.recv.alloc : Int) ≤ intMax
  fits : BufferFits x
  stage : StageFits x

/-- A read stays inside the block. -/
theorem RxInv.absorb {x : SerialXfer} {bytes : List UInt8} (h : RxInv x)
    (hle : (bytes.length : Int) ≤ x.expectBytes) :
    ∃ y, absorbBytes x bytes = .ok y ∧ RxInv y := by
  obtain ⟨hge, hmax, ⟨hpos, hfit⟩, hstage⟩ := h
  obtain ⟨data, hstore⟩ : ∃ data,
      storeBytes x.recv.data x.recv.size bytes = .ok data := by
    refine ⟨_, storeBytes_eq_ok.mpr ⟨?_, rfl⟩⟩
    unfold AuraChunk.alloc at hfit
    omega
  have halloc : (holding x data bytes.length).recv.alloc = x.recv.alloc :=
    storeBytes_length hstore
  refine ⟨holding x data bytes.length,
    absorbBytes_eq_ok.mpr ⟨data, hstore, rfl⟩, ?_⟩
  have hsum : ((holding x data bytes.length).recv.size : Int)
      + (holding x data bytes.length).expectBytes
      = x.recv.size + x.expectBytes := by
    simp only [holding]
    omega
  refine ⟨by omega, by omega, ⟨?_, by omega⟩, ?_⟩
  · simp only [holding]
    omega
  · unfold StageFits at hstage ⊢
    rw [halloc, hsum]
    exact hstage

theorem rxInv_restart {x : SerialXfer} (hge : 256 ≤ x.recv.alloc)
    (hmax : (x.recv.alloc : Int) ≤ intMax) (he : x.expectBytes = 1)
    (hsize : x.recv.size = 0) (hs : x.data.rxstate = .waitStart)
    (hsz : x.handleData = .packets → DeclaredSize x.data.szSz) : RxInv x := by
  refine ⟨hge, hmax, ⟨by omega, by omega⟩, ?_⟩
  unfold StageFits
  rw [hs]
  cases hh : x.handleData with
  | packets => exact ⟨hsz hh, by omega⟩
  | discoveryInit =>
      show (x.recv.size : Int) + x.expectBytes + 5 ≤ x.recv.alloc
      omega

/-- A request with room, made on the way to another state. -/
theorem rxInv_expect {g : Grant} {x z : SerialXfer} {st : RxState} {n r : Int}
    (hge : 256 ≤ x.recv.alloc) (hmax : (x.recv.alloc : Int) ≤ intMax)
    (hg : g.isSome = true) (hroom : Room x n)
    (h : auraAsyncExpectBytes g (entering x st) n = .ok (r, z))
    (hstage : ∀ data, StageFits (expecting (entering x st) data n)) :
    RxInv z := by
  obtain ⟨junk, rfl⟩ := Option.isSome_iff_exists.mp hg
  obtain ⟨data, hreq, hgrow, hmax', hfit⟩ :=
    expectBytes_of_room (x := entering x st) junk hmax hroom
  rw [hreq] at h
  cases h
  exact ⟨Nat.le_trans hge hgrow, hmax', ⟨hroom.1, hfit⟩, hstage data⟩

/-- A call of the handler, if what it asks for has room. -/
theorem RxInv.handled {host : Endian} {g : Grant} {h : Handler}
    {x z : SerialXfer} (hx : RxInv x) (hzero : x.expectBytes = 0)
    (hh : x.handleData = h) (hz : Handled host g x h z)
    (hg : g.isSome = true) (hsizes : SizesDeclared x)
    (hlength : LengthFits host x) : RxInv z := by
  obtain ⟨hge, hmax, hfits, hstage⟩ := hx
  have hnow := hstage
  unfold StageFits at hnow
  cases hz with
  | noise hs hb hne =>
      refine rxInv_restart hge hmax rfl rfl hs fun hp => ?_
      have hp : x.handleData = .packets := hp
      rw [hp, hs] at hnow
      exact hnow.1
  | ignored => exact ⟨hge, hmax, hfits, hstage⟩
  | counts hs =>
      rw [hh, hs] at hnow
      exact rxInv_restart hge hmax rfl rfl rfl fun _ => hnow
  | adds hs =>
      rw [hh, hs] at hnow
      exact rxInv_restart hge hmax rfl rfl rfl fun _ => hnow
  | features swap hs hstag =>
      exact rxInv_restart hge hmax rfl rfl rfl fun _ =>
        hsizes hh hs _ (loadByte_eq_ok.mp hstag)
  | start hs hb he =>
      rw [hh, hs] at hnow
      obtain ⟨hsz, hsum⟩ := hnow
      have hpos : 0 ≤ x.data.szSz ∧ x.data.szSz ≤ 4 := by
        unfold DeclaredSize at hsz
        omega
      refine rxInv_expect hge hmax hg ⟨hpos.1, .inl (by omega)⟩ he
        fun data => ?_
      simp only [StageFits, expecting, entering, hh]
      exact ⟨hsz, by omega⟩
  | length hs hn he =>
      rw [hh, hs] at hnow
      have hroom := hlength hh hs _ (by rw [hn]; rfl)
      generalize cInt _ = k at hroom he
      refine rxInv_expect hge hmax hg hroom he fun data => ?_
      simp only [StageFits, expecting, entering, hh]
      exact hnow.1
  | startInit hs hb he =>
      rw [hh, hs] at hnow
      have hfive : (x.recv.size : Int) + x.expectBytes + 5 ≤ x.recv.alloc :=
        hnow
      refine rxInv_expect hge hmax hg ⟨by decide, .inl (by omega)⟩ he
        fun data => ?_
      simp only [StageFits, expecting, entering, hh]

theorem rxInv_step {host : Endian} {p q : Port} {e : SerialEvent}
    (hp : RxInv p.xfer) (hguard : LengthsFit host p e)
    (hstep : serialStep host p e = .ok q) : RxInv q.xfer := by
  obtain ⟨hreads, hlengths⟩ := hguard
  rcases serialStep_cases hstep with ⟨env, rfl, hd⟩ | hs
  · have hsix : p.xfer.recv.size + 6 ≤ p.xfer.recv.alloc := hlengths
    obtain ⟨hge, hmax, _, _⟩ := hp
    obtain ⟨transferlist, hook, hq⟩ :=
      urpcSerialDiscovery_waits (by omega) hmax hd
    rw [hq]
    refine ⟨hge, hmax, ⟨?_, ?_⟩, ?_⟩
    · show (0 : Int) ≤ 1
      decide
    · show (p.xfer.recv.size : Int) + 1 ≤ p.xfer.recv.alloc
      omega
    · show (p.xfer.recv.size : Int) + 1 + 5 ≤ p.xfer.recv.alloc
      omega
  · generalize q.xfer = z at hs
    cases hs with
    | nothing => exact hp
    | sends => exact ⟨hp.alloc_ge, hp.alloc_le, hp.fits, hp.stage⟩
    | absorbs hy hmore =>
        obtain ⟨y, hy', hinv⟩ := hp.absorb hreads.1
        cases hy.symm.trans hy'
        exact hinv
    | fires hy hzero hz =>
        obtain ⟨hle, hg, hsizes⟩ := hreads
        obtain ⟨y, hy', hinv⟩ := hp.absorb hle
        cases hy.symm.trans hy'
        have hdone := completed_eq_some.mpr ⟨hy, hzero⟩
        exact hinv.handled hzero rfl (handleData_handled hz) hg
          (hsizes _ hdone) (hlengths _ hdone)

/-- The receive buffer is always big enough, and no read leaves it, if every
length has room. -/
theorem bufferFits_of_lengthsFit {host : Endian} {env : CallEnv}
    {p₀ p q : Port} (hopen : Opened p₀)
    (hstart : urpcSerialDiscovery env p₀ = .ok p)
    (hrun : Runs (serialStep host) (LengthsFit host) p q) :
    BufferFits q.xfer ∧ ∀ bytes : List UInt8,
      (bytes.length : Int) ≤ q.xfer.expectBytes →
      ∃ y, absorbBytes q.xfer bytes = .ok y := by
  have hmax : (p₀.xfer.recv.alloc : Int) ≤ intMax := by
    rw [hopen.buffer]
    decide
  obtain ⟨transferlist, hook, hp⟩ :=
    urpcSerialDiscovery_waits (by rw [hopen.buffer]; decide) hmax hstart
  have hinit : RxInv p.xfer := by
    rw [hp]
    exact rxInv_restart (Nat.le_of_eq hopen.buffer.symm) hmax rfl hopen.empty
      rfl (fun h => by cases h)
  have hq : RxInv q.xfer := hrun.invariant
    (fun s e t hs hguard hstep => rxInv_step hs hguard hstep) hinit
  refine ⟨hq.fits, fun bytes hle => ?_⟩
  obtain ⟨y, hy, _⟩ := hq.absorb hle
  exact ⟨y, hy⟩

/-- A feature packet and a packet header that declares `lb` bytes. -/
def declares (lb : UInt8) : List SerialEvent :=
  reads [[magicStart], [1, 1, chr 'l', 0, 0], [magicStart], [lb]]

theorem bufferFits_253 :
    BufferFits (afterwards (serialStep .little) waitingPort (declares 253)).xfer ∧
      ∀ bytes : List UInt8, (bytes.length : Int) ≤
          (afterwards (serialStep .little) waitingPort
            (declares 253)).xfer.expectBytes →
        ∃ y, absorbBytes (afterwards (serialStep .little) waitingPort
          (declares 253)).xfer bytes = .ok y :=
  @bufferFits_of_lengthsFit .little generousEnv openedPort waitingPort _
    opened_openedPort urpcSerialDiscovery_openedPort
    (Runs.afterwards (by decide +kernel))

/-- 255 bytes behind a header of two, in a block of 256. -/
theorem buffer_too_small :
    ¬ ∀ env p₀ p q, Opened p₀ → urpcSerialDiscovery env p₀ = .ok p →
      Runs (serialStep .little) DeviceReads p q → BufferFits q.xfer := by
  intro h
  have hfits := h generousEnv openedPort waitingPort _
    opened_openedPort urpcSerialDiscovery_openedPort
    (Runs.afterwards (l := declares 255) (by decide +kernel))
  revert hfits
  decide +kernel

end Aura.Proofs
