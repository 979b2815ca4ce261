import Aura.Lib.Scan
import Aura.Proofs.Modes
import Aura.Proofs.RxBuffer

/-!
# The walk over an object's description

Flags, id and three strings, one behind the other: the parser reads up to the
third NUL it meets, and nobody tells it where the body ends. It stays among the
bytes received exactly when the body has that NUL (`parser_inside_iff`);
otherwise it goes on into whatever earlier packets left in the buffer, or past
the block.
-/

namespace Aura.Proofs

open Aura.Lib Aura.Ref

/-! ## What is read -/

/-- The positions the parser looks at in a body that starts at `s`: flags, id,
and each string up to the NUL that ends it. -/
def parserReads (data : List UInt8) (s : Nat) : List Nat :=
  s :: (s + 1) :: scans 0 data 3 (s + 2)

section Reads

variable {data : List UInt8} {size s : Nat}

/-- All of them lie below `size` when three NULs do. -/
theorem parserReads_lt_iff (h : size ≤ data.length) :
    (∀ i ∈ parserReads data s, i < size) ↔
      3 ≤ ((data.take size).drop (s + 2)).count 0 := by
  rw [← scans_lt_iff h, parserReads, List.forall_mem_cons,
    List.forall_mem_cons]
  constructor
  · rintro ⟨_, _, hscans⟩
    exact hscans
  · intro hscans
    have hlast := hscans (s + 2) (by simp [scans, List.mem_range'_1])
    exact ⟨by omega, by omega, hscans⟩

theorem parserReads_ends_iff : (∀ i ∈ parserReads data s, i < size) ↔
    scanEnd 0 data (s + 2) < size ∧
      scanEnd 0 data (scanEnd 0 data (s + 2) + 1) < size ∧
      scanEnd 0 data (scanEnd 0 data (scanEnd 0 data (s + 2) + 1) + 1)
        < size := by
  rw [parserReads, List.forall_mem_cons, List.forall_mem_cons,
    scans_succ_lt_iff, scans_succ_lt_iff, scans_succ_lt_iff]
  simp only [scans, List.not_mem_nil, false_imp_iff, implies_true, and_true]
  constructor
  · rintro ⟨_, _, hends⟩
    exact hends
  · intro hends
    have hname : s + 2 ≤ scanEnd 0 data (s + 2) := Nat.le_add_right _ _
    exact ⟨by omega, by omega, hends⟩

/-- The object those bytes describe. -/
def described (data : List UInt8) (s : Nat) : UrpcObject :=
  let args := scanEnd 0 data (s + 2) + 1
  { flags := data.getD s 0
    name := dupNonEmpty (runAt 0 data (s + 2))
    args := dupNonEmpty (runAt 0 data args)
    acache := none
    reply := dupNonEmpty (runAt 0 data (scanEnd 0 data args + 1))
    rcache := none }

theorem cstrAt_eq_ok {off : Nat} {str : List UInt8} :
    cstrAt data off = .ok str ↔
      scanEnd 0 data off < data.length ∧ str = runAt 0 data off := by
  show (if scanEnd 0 data off < data.length then Except.ok (runAt 0 data off)
    else .error Fault.outOfBounds) = _ ↔ _
  by_cases h : scanEnd 0 data off < data.length
  · simp [h, eq_comm]
  · simp [h]

/-- The parser gives that object when none of its reads leaves the block, and
fails otherwise. -/
theorem parseObject_eq_ok {o : UrpcObject} :
    parseObject data s = .ok o ↔
      (∀ i ∈ parserReads data s, i < data.length) ∧ o = described data s := by
  constructor
  · intro h
    obtain ⟨flags, hflags, h⟩ := bind_eq_ok.mp h
    obtain ⟨_, _, h⟩ := bind_eq_ok.mp h
    obtain ⟨name, hname, h⟩ := bind_eq_ok.mp h
    obtain ⟨args, hargs, h⟩ := bind_eq_ok.mp h
    obtain ⟨reply, hreply, h⟩ := bind_eq_ok.mp h
    cases h
    obtain ⟨hname', rfl⟩ := cstrAt_eq_ok.mp hname
    obtain ⟨hargs', rfl⟩ := cstrAt_eq_ok.mp hargs
    obtain ⟨hreply', rfl⟩ := cstrAt_eq_ok.mp hreply
    refine ⟨parserReads_ends_iff.mpr ⟨hname', hargs', hreply'⟩, ?_⟩
    rw [described, List.getD_eq_getElem?_getD, loadByte_eq_ok.mp hflags]
    rfl
  · rintro ⟨h, rfl⟩
    obtain ⟨hname, hargs, hreply⟩ := parserReads_ends_iff.mp h
    have hflags : s < data.length := h s (.head _)
    have hid : s + 1 < data.length := h (s + 1) (.tail _ (.head _))
    rw [parseObject, loadByte_of_lt hflags, ok_bind, loadByte_of_lt hid,
      ok_bind, cstrAt_eq_ok.mpr ⟨hname, rfl⟩, ok_bind]
    show cstrAt data (scanEnd 0 data (s + 2) + 1) >>= _ = _
    rw [cstrAt_eq_ok.mpr ⟨hargs, rfl⟩, ok_bind]
    show cstrAt data (scanEnd 0 data (scanEnd 0 data (s + 2) + 1) + 1) >>= _
      = _
    rw [cstrAt_eq_ok.mpr ⟨hreply, rfl⟩, ok_bind, described,
      List.getD_eq_getElem?_getD, List.getElem?_eq_getElem hflags]
    rfl

theorem parseObject_congr {data' : List UInt8} (h : size ≤ data.length)
    (hsame : data'.take size = data.take size)
    (hreads : ∀ i ∈ parserReads data s, i < size) :
    parseObject data' s = parseObject data s := by
  obtain ⟨hname, hargs, hreply⟩ := parserReads_ends_iff.mp hreads
  have hends : ∀ i ∈ parserReads data' s, i < size := by
    rw [parserReads_ends_iff, scanEnd_congr hsame hname,
      scanEnd_congr hsame hargs, scanEnd_congr hsame hreply]
    exact ⟨hname, hargs, hreply⟩
  have hlen : size ≤ data'.length := by
    have hboth := congrArg List.length hsame
    rw [List.length_take, List.length_take] at hboth
    omega
  have hflags : data'.getD s 0 = data.getD s 0 := by
    have hs : s < size := hreads s (.head _)
    rw [List.getD_eq_getElem?_getD, List.getD_eq_getElem?_getD,
      ← List.getElem?_take_of_lt hs, hsame, List.getElem?_take_of_lt hs]
  have hsame' : described data s = described data' s := by
    simp only [described, hflags, scanEnd_congr hsame hname,
      scanEnd_congr hsame hargs, runAt_congr hsame hname,
      runAt_congr hsame hargs, runAt_congr hsame hreply]
  rw [parseObject_eq_ok.mpr
      ⟨fun i hi => Nat.lt_of_lt_of_le (hends i hi) hlen, hsame'⟩,
    parseObject_eq_ok.mpr
      ⟨fun i hi => Nat.lt_of_lt_of_le (hreads i hi) h, rfl⟩]

end Reads

/-! ## A body that is complete -/

/-- The parser looks at nothing but what was received, and what it finds does
not depend on anything else in the buffer. -/
structure ParserInside (y : SerialXfer) : Prop where
  start : 0 ≤ 1 + y.data.szSz
  reads : ∀ i ∈ parserReads y.recv.data (1 + y.data.szSz).toNat,
    i < y.recv.size
  only : ∀ data, data.take y.recv.size = y.recv.payload →
    parseObject data (1 + y.data.szSz).toNat
      = parseObject y.recv.data (1 + y.data.szSz).toNat

/-- The body, which starts behind the length field, has flags, an id and three
NULs behind them. -/
def HoldsObject (y : SerialXfer) : Prop :=
  0 ≤ 1 + y.data.szSz ∧
    3 ≤ (y.recv.payload.drop ((1 + y.data.szSz).toNat + 2)).count 0

instance (y : SerialXfer) : Decidable (HoldsObject y) :=
  inferInstanceAs (Decidable (_ ∧ _))

theorem HoldsObject.length {y : SerialXfer} (h : HoldsObject y) :
    (1 + y.data.szSz) + 5 ≤ y.recv.size := by
  obtain ⟨hstart, hcount⟩ := h
  have hle := List.count_le_length (a := (0 : UInt8))
    (l := y.recv.payload.drop ((1 + y.data.szSz).toNat + 2))
  have htake : y.recv.payload.length ≤ y.recv.size := List.length_take_le _ _
  rw [List.length_drop] at hle
  omega

/-- When a discovery is going on, and the body is not the single byte that
ends it, the parser stays inside. -/
def ParsesInside (host : Endian) (y : SerialXfer) : Prop :=
  y.data.state = 0 → ¬ OneByteBody host y → ParserInside y

/-- A body that arrives during discovery is parsed without looking past it
exactly when there is nothing to parse or a whole object to find. -/
theorem parser_inside_iff {host : Endian} {p : Port} {bytes : List UInt8}
    {y : SerialXfer} (h : Completes p bytes y)
    (hdisc : p.xfer.data.state = 0) :
    ParsesInside host y ↔ OneByteBody host y ∨ HoldsObject y := by
  have hsize : y.recv.size ≤ y.recv.data.length := by
    obtain ⟨data, hdata, rfl⟩ := absorbBytes_eq_ok.mp h.1
    show p.xfer.recv.size + bytes.length ≤ data.length
    rw [storeBytes_length hdata]
    exact (storeBytes_eq_ok.mp hdata).1
  have hzero : y.data.state = 0 := by
    rw [(absorbBytes_data h.1).1]
    exact hdisc
  have hreads := @parserReads_lt_iff _ _ (1 + y.data.szSz).toNat hsize
  constructor
  · intro hinside
    by_cases hone : OneByteBody host y
    · exact .inl hone
    · have hparser := hinside hzero hone
      exact .inr ⟨hparser.start, hreads.mp hparser.reads⟩
  · intro hgood _ hone
    obtain ⟨hstart, hcount⟩ := hgood.resolve_left hone
    have hbelow := hreads.mpr hcount
    exact ⟨hstart, hbelow, fun data hdata =>
      parseObject_congr hsize hdata hbelow⟩

/-- A feature packet and the header of a packet of `lb` bytes. -/
def headerRead (lb : UInt8) : Port :=
  afterwards (serialStep .little) waitingPort (declares lb)

/-- What the handler finds after the `bytes`. -/
def filled (p : Port) (bytes : List UInt8) : SerialXfer :=
  holding p.xfer
    (p.xfer.recv.data.take p.xfer.recv.size ++ bytes ++
      p.xfer.recv.data.drop (p.xfer.recv.size + bytes.length)) bytes.length

theorem completes_filled {p : Port} {bytes : List UInt8}
    (hfits : p.xfer.recv.size + bytes.length ≤ p.xfer.recv.data.length)
    (he : p.xfer.expectBytes = bytes.length)
    (hh : p.xfer.handleData = .packets)
    (hs : p.xfer.data.rxstate = .getBody) :
    Completes p bytes (filled p bytes) := by
  refine ⟨absorbBytes_eq_ok.mpr ⟨_, storeBytes_eq_ok.mpr ⟨hfits, rfl⟩, rfl⟩,
    ?_, hh, hs⟩
  show p.xfer.expectBytes - bytes.length = 0
  omega

/-- A method `f` without arguments or reply. -/
theorem parser_inside_f :
    ParsesInside .little (filled (headerRead 6) [1, 0, chr 'f', 0, 0, 0]) :=
  (parser_inside_iff (completes_filled (by decide +kernel) (by decide +kernel)
    (by decide +kernel) (by decide +kernel)) (by decide +kernel)).mpr
    (.inr (by decide +kernel))

/-- A body of three bytes without a NUL becomes an object with the help of
what the buffer held before. -/
theorem parser_outside :
    ¬ ∀ env p₀ p q bytes y, Opened p₀ → urpcSerialDiscovery env p₀ = .ok p →
      Runs (serialStep .little) DeviceReads p q → Completes q bytes y →
      q.xfer.data.state = 0 → ParsesInside .little y := by
  intro h
  have hinside := h generousEnv openedPort waitingPort (headerRead 3)
    [1, 0, chr 'f'] _ opened_openedPort
    urpcSerialDiscovery_openedPort (Runs.afterwards (by decide +kernel))
    (completes_filled (by decide +kernel) (by decide +kernel)
      (by decide +kernel) (by decide +kernel)) (by decide +kernel)
  have hlong : ¬ OneByteBody .little (filled (headerRead 3)
      [1, 0, chr 'f']) := by
    rintro ⟨n, hn, hone⟩
    have hthree : numberToInt .little
        (filled (headerRead 3) [1, 0, chr 'f']).recv.data 1
        (filled (headerRead 3) [1, 0, chr 'f']).data.szSz = .ok 3 := by
      decide +kernel
    rw [hthree] at hn
    cases hn
    exact absurd hone (by decide)
  have hreads := (hinside (by decide +kernel) hlong).reads
  revert hreads
  decide +kernel

end Aura.Proofs
