import Aura.Proofs.Lengths
import Aura.Proofs.RxBuffer
import Aura.Ref.Wait

/-!
# Where a receiver is in a packet

What the buffer holds is the beginning of a packet, and what is expected is the
rest of the piece that is being waited for. This is so whatever the device
sends, for as long as the size of its length field is one that can be read
(`staged_step`). A buffer never shrinks, and what is in it stays when it grows
(`auraAsyncExpectBytes_keeps`).
-/

namespace Aura.Proofs

open Aura.Lib Aura.Ref

/-! ## Growing -/

/-- The block in which `n` bytes are waited for. -/
def roomFor (g : Grant) (data : List UInt8) (n : Nat) : List UInt8 :=
  if n ≤ data.length then data
  else match g with
    | none => data
    | some junk =>
        data ++ ((List.range (2 * n - data.length)).drop data.length).map junk

section Growing

variable {g : Grant} {x y : SerialXfer}

theorem prefix_roomFor (g : Grant) (data : List UInt8) (n : Nat) :
    data <+: roomFor g data n := by
  unfold roomFor
  by_cases hn : n ≤ data.length
  · rw [if_pos hn]
  · rw [if_neg hn]
    cases g with
    | none => exact List.prefix_rfl
    | some junk => exact List.prefix_append ..

theorem roomFor_none (data : List UInt8) (n : Nat) :
    roomFor none data n = data := by
  unfold roomFor
  by_cases hn : n ≤ data.length
  · rw [if_pos hn]
  · rw [if_neg hn]

/-- Growing does not look at what is in the block. -/
theorem roomFor_congr (g : Grant) {data data' : List UInt8} (n : Nat) {i : Nat}
    (hlen : data'.length = data.length) (hdrop : data'.drop i = data.drop i) :
    (roomFor g data' n).length = (roomFor g data n).length ∧
      (roomFor g data' n).drop i = (roomFor g data n).drop i := by
  unfold roomFor
  rw [hlen]
  by_cases hn : n ≤ data.length
  · rw [if_pos hn, if_pos hn]
    exact ⟨hlen, hdrop⟩
  · rw [if_neg hn, if_neg hn]
    cases g with
    | none => exact ⟨hlen, hdrop⟩
    | some junk =>
        simp only [List.length_append, List.drop_append, hlen, hdrop, and_self]

/-- A block that ends up with room for more than `n` bytes was big enough, or
is as big as an `int` can count. -/
theorem roomFor_fits {data : List UInt8} {n : Nat}
    (hroom : n < (roomFor g data n).length)
    (hmax : ((roomFor g data n).length : Int) ≤ intMax) :
    n ≤ data.length ∨ 2 * (n : Int) - data.length ≤ intMax := by
  unfold roomFor at hroom hmax
  by_cases hn : n ≤ data.length
  · exact .inl hn
  · rw [if_neg hn] at hroom hmax
    cases g with
    | none => exact absurd (Nat.le_of_lt hroom) hn
    | some junk =>
        simp only [List.length_append, List.length_map, List.length_drop,
          List.length_range] at hmax
        exact .inr (by omega)

theorem auraChunkRealloc_keeps {c d : AuraChunk} {extra r : Int}
    (hextra : 0 ≤ extra) (hmax : (c.alloc : Int) ≤ intMax)
    (h : auraChunkRealloc g c extra = .ok (r, d)) :
    c.data <+: d.data ∧ (d.alloc : Int) ≤ intMax := by
  rw [auraChunkRealloc, bind_eq_ok] at h
  obtain ⟨sz, hsz, h⟩ := h
  obtain ⟨rfl, _, hle⟩ := intArith_eq_ok.mp hsz
  cases g with
  | none =>
      cases h
      exact ⟨List.prefix_rfl, hmax⟩
  | some junk =>
      simp only [if_neg (show ¬ (c.alloc : Int) + extra < 0 by omega)] at h
      cases h
      constructor
      · rw [List.take_of_length_le (by unfold AuraChunk.alloc; omega)]
        exact List.prefix_append ..
      · simp only [AuraChunk.alloc, List.length_append, List.length_take,
          List.length_map, List.length_drop, List.length_range] at *
        omega

/-- Whatever is asked for, what is in the buffer stays. -/
theorem auraAsyncExpectBytes_keeps {n r : Int}
    (hmax : (x.recv.alloc : Int) ≤ intMax)
    (h : auraAsyncExpectBytes g x n = .ok (r, y)) :
    ∃ data, y = expecting x data (cInt n) ∧ x.recv.data <+: data ∧
      (data.length : Int) ≤ intMax := by
  rw [auraAsyncExpectBytes] at h
  generalize cInt n = e at *
  by_cases hshort : cInt (x.recv.alloc - n) < 0
  · simp only [if_pos hshort] at h
    obtain ⟨minus, hminus, h⟩ := bind_eq_ok.mp h
    obtain ⟨extra, hextra, h⟩ := bind_eq_ok.mp h
    obtain ⟨⟨r', recv⟩, hrecv, h⟩ := bind_eq_ok.mp h
    have hpos : 0 ≤ extra := by
      have hdelta := (intArith_eq_ok.mp hminus).1
      have htwice := (intArith_eq_ok.mp hextra).1
      omega
    have hsize := auraChunkRealloc_size hrecv
    obtain ⟨hkeeps, hle⟩ := auraChunkRealloc_keeps hpos hmax hrecv
    cases h
    refine ⟨recv.data, ?_, hkeeps, hle⟩
    rw [expecting, ← hsize]
  · simp only [if_neg hshort] at h
    cases h
    exact ⟨x.recv.data, rfl, List.prefix_rfl, hmax⟩

/-- A length that can be waited for: the block is left, or it has to grow. -/
theorem auraAsyncExpectBytes_room {n : Nat} (hn : (n : Int) ≤ intMax)
    (hmax : (x.recv.alloc : Int) ≤ intMax)
    (hgrown : n ≤ x.recv.alloc ∨ 2 * (n : Int) - x.recv.alloc ≤ intMax) :
    ∃ r, auraAsyncExpectBytes g x n
      = .ok (r, expecting x (roomFor g x.recv.data n) n) := by
  by_cases hfits : n ≤ x.recv.alloc
  · have hroom : roomFor g x.recv.data n = x.recv.data := if_pos hfits
    rw [auraAsyncExpectBytes_fits g hmax (by omega) (by omega), hroom]
    exact ⟨0, rfl⟩
  · have hfar := hgrown.resolve_left hfits
    rw [auraAsyncExpectBytes, cInt_of_mem (by unfold intMax at *; omega)
      (by omega), cInt_of_mem (by unfold intMax; omega) hn, if_pos (by omega),
      intArith_of_mem (by unfold intMax; omega) (by omega), ok_bind,
      intArith_of_mem (by unfold intMax; omega) (by omega), ok_bind,
      auraChunkRealloc, intArith_of_mem (by unfold intMax; omega) (by omega),
      ok_bind]
    have hnat : ((x.recv.alloc : Int)
        + -((x.recv.alloc : Int) - (n : Int)) * 2).toNat
        = 2 * n - x.recv.alloc := by omega
    have hroom : roomFor g x.recv.data n = _ := if_neg hfits
    rw [hroom]
    cases g with
    | none => exact ⟨-1, rfl⟩
    | some junk =>
        refine ⟨0, ?_⟩
        simp only [if_neg (show ¬ (x.recv.alloc : Int)
          + -((x.recv.alloc : Int) - (n : Int)) * 2 < 0 by omega), hnat]
        rw [List.take_of_length_le
          (show x.recv.alloc ≤ 2 * n - x.recv.alloc by omega)]
        rfl

end Growing

/-! ## Absorbing -/

/-- What a read that brings `bytes` does to the buffer. -/
structure Absorbed (x : SerialXfer) (bytes : List UInt8) (y : SerialXfer) :
    Prop where
  payload : y.recv.payload = x.recv.payload ++ bytes
  alloc : y.recv.alloc = x.recv.alloc
  inside : y.recv.size ≤ y.recv.alloc
  behind : ∀ i, x.recv.size + bytes.length ≤ i →
    y.recv.data.drop i = x.recv.data.drop i
  expectBytes : y.expectBytes = x.expectBytes - bytes.length
  data : y.data = x.data
  handleData : y.handleData = x.handleData

section Absorbing

variable {x y : SerialXfer} {bytes : List UInt8}

theorem absorbed_of_eq_ok (h : absorbBytes x bytes = .ok y) :
    Absorbed x bytes y := by
  obtain ⟨data, hstore, rfl⟩ := absorbBytes_eq_ok.mp h
  have hlen := storeBytes_length hstore
  refine ⟨storeBytes_take hstore, hlen, ?_, fun i hi => ?_, rfl, rfl, rfl⟩
  · have hle := (storeBytes_eq_ok.mp hstore).1
    show x.recv.size + bytes.length ≤ data.length
    omega
  · obtain ⟨m, rfl⟩ := Nat.exists_eq_add_of_le hi
    show data.drop _ = x.recv.data.drop _
    rw [← List.drop_drop, storeBytes_drop hstore, List.drop_drop]

/-- There has to be room for the bytes. -/
theorem absorbBytes_room :
    (∃ y, absorbBytes x bytes = .ok y) ↔
      x.recv.size + bytes.length ≤ x.recv.alloc := by
  constructor
  · rintro ⟨y, h⟩
    obtain ⟨data, hstore, _⟩ := absorbBytes_eq_ok.mp h
    exact (storeBytes_eq_ok.mp hstore).1
  · intro hle
    exact ⟨_, absorbBytes_eq_ok.mpr ⟨_, storeBytes_eq_ok.mpr ⟨hle, rfl⟩, rfl⟩⟩

theorem length_payload {c : AuraChunk} (h : c.size ≤ c.alloc) :
    c.payload.length = c.size := by
  rw [AuraChunk.payload, List.length_take]
  exact Nat.min_eq_left h

theorem Absorbed.size (hx : x.recv.size ≤ x.recv.alloc)
    (hy : Absorbed x bytes y) : y.recv.size = x.recv.size + bytes.length := by
  have hlen := congrArg List.length hy.payload
  rwa [List.length_append, length_payload hy.inside, length_payload hx] at hlen

theorem data_eq_payload_append (c : AuraChunk) :
    c.data = c.payload ++ c.data.drop c.size :=
  (List.take_append_drop c.size c.data).symm

end Absorbing

/-! ## The stages -/

/-- The length field behind a start byte. -/
def lengthOf (host : Endian) (k : Nat) (bytes : List UInt8) : Nat :=
  host.decode (bytes.take k)

/-- Where a receiver is. Of one that has been given a size of the length field
that cannot be read nothing more is known. -/
inductive Stage (host : Endian) (x : SerialXfer) : Prop
  | announce (hh : x.handleData = .discoveryInit)
      (hs : x.data.rxstate = .waitStart) (he : x.expectBytes = 1)
  | features (hh : x.handleData = .discoveryInit)
      (hs : x.data.rxstate = .discovery) (hpos : 0 < x.expectBytes)
      (hle : x.expectBytes ≤ 5)
  | lost (hh : x.handleData = .packets) (hk : ¬ DeclaredSize x.data.szSz)
  | start {k : Nat} (hh : x.handleData = .packets)
      (hs : x.data.rxstate = .waitStart) (hk : DeclaredSize k)
      (hsz : x.data.szSz = k) (hsize : x.recv.size = 0)
      (he : x.expectBytes = 1)
  | length {k : Nat} {w : List UInt8} (hh : x.handleData = .packets)
      (hs : x.data.rxstate = .getLen) (hk : DeclaredSize k)
      (hsz : x.data.szSz = k) (hw : x.recv.payload = magicStart :: w)
      (hsum : w.length + x.expectBytes = k) (hpos : 0 < x.expectBytes)
  | body {k : Nat} {w : List UInt8} {n : Int} (hh : x.handleData = .packets)
      (hs : x.data.rxstate = .getBody) (hk : DeclaredSize k)
      (hsz : x.data.szSz = k) (hw : x.recv.payload = magicStart :: w)
      (hn : n = cInt (lengthOf host k w)) (hlen : k ≤ w.length)
      (hsum : w.length + x.expectBytes = k + n)
      (hpos : 0 ≤ n → 0 ≤ x.expectBytes)
      (hnone : x.expectBytes = 0 → w.length = k)

/-- A receiver that has been waited for before. -/
structure Staged (host : Endian) (x : SerialXfer) : Prop where
  alloc_ge : 256 ≤ x.recv.alloc
  alloc_le : (x.recv.alloc : Int) ≤ intMax
  inside : x.recv.size ≤ x.recv.alloc
  stage : Stage host x

/-- `read` returns no more than the `size_t` it was asked for. -/
def ReadReturns (x : SerialXfer) (bytes : List UInt8) : Prop :=
  bytes.length ≤ sizeT x.expectBytes

section Stages

variable {host : Endian} {x y z : SerialXfer} {bytes : List UInt8}

theorem ReadReturns.le (h : ReadReturns x bytes) (hpos : 0 ≤ x.expectBytes)
    (hmax : x.expectBytes ≤ intMax) : (bytes.length : Int) ≤ x.expectBytes := by
  obtain ⟨n, hn⟩ := Int.eq_ofNat_of_zero_le hpos
  rw [ReadReturns, hn, sizeT_natCast (by omega)] at h
  omega

theorem lengthOf_append {k : Nat} {w : List UInt8} (v : List UInt8)
    (hk : k ≤ w.length) : lengthOf host k (w ++ v) = lengthOf host k w := by
  rw [lengthOf, List.take_append_of_le_length hk, lengthOf]

theorem natCast_declared {k : Int} (hk : DeclaredSize k) :
    ∃ n : Nat, k = n ∧ DeclaredSize n := by
  unfold DeclaredSize at *
  exact ⟨k.toNat, by omega, by omega⟩

theorem DeclaredSize.le {k : Nat} (hk : DeclaredSize k) : 1 ≤ k ∧ k ≤ 4 := by
  unfold DeclaredSize at hk
  omega

/-- The length is read off what has been received. -/
theorem numberToInt_payload {c : AuraChunk} {k : Nat} {w : List UInt8}
    (hk : DeclaredSize k) (hc : c.payload = magicStart :: w)
    (hlen : k ≤ w.length) :
    numberToInt host c.data 1 k = .ok (lengthOf host k w) := by
  have hdata : c.data
      = magicStart :: (w.take k ++ (w.drop k ++ c.data.drop c.size)) := by
    rw [← List.append_assoc, List.take_append_drop, ← List.cons_append, ← hc]
    exact data_eq_payload_append c
  rw [hdata, numberToInt_width host (by unfold DeclaredSize at hk; omega)
    (by rw [List.length_take]; omega), lengthOf]

theorem lengthOf_lt {k : Nat} (hk : DeclaredSize k) (w : List UInt8) :
    lengthOf host k w < 4294967296 := by
  have hle : (w.take k).length ≤ 4 := by
    rw [List.length_take]
    exact Nat.le_trans (Nat.min_le_left ..) hk.le.2
  exact Nat.lt_of_lt_of_le (host.decode_lt (w.take k))
    (Nat.pow_le_pow_right (by decide) hle)

/-- A read that leaves something to be expected. -/
theorem Staged.absorbs (hx : Staged host x) (hasked : ReadReturns x bytes)
    (hy : Absorbed x bytes y) (hmore : y.expectBytes ≠ 0) : Staged host y := by
  have he := hy.expectBytes
  refine ⟨hy.alloc ▸ hx.alloc_ge, hy.alloc ▸ hx.alloc_le, hy.inside, ?_⟩
  cases hx.stage with
  | announce hh hs hone =>
      have hle := hasked.le (by omega) (by rw [hone]; decide)
      exact .announce (hy.handleData.trans hh) (by rw [hy.data, hs]) (by omega)
  | features hh hs hpos hfive =>
      have hle := hasked.le (by omega) (by unfold intMax; omega)
      exact .features (hy.handleData.trans hh) (by rw [hy.data, hs]) (by omega)
        (by omega)
  | lost hh hk => exact .lost (hy.handleData.trans hh) (by rwa [hy.data])
  | start hh hs hk hsz hsize hone =>
      have hle := hasked.le (by omega) (by rw [hone]; decide)
      have hgrown := hy.size hx.inside
      exact .start (hy.handleData.trans hh) (by rw [hy.data, hs]) hk
        (by rw [hy.data, hsz]) (by omega) (by omega)
  | @length k w hh hs hk hsz hw hsum hpos =>
      have hle := hasked.le (by omega) (by
        have hfour := hk.le
        unfold intMax
        omega)
      apply Stage.length (k := k) (w := w ++ bytes) (hy.handleData.trans hh)
        (by rw [hy.data, hs]) hk (by rw [hy.data, hsz])
      · rw [hy.payload, hw, List.cons_append]
      · rw [List.length_append]
        omega
      · omega
  | @body k w n hh hs hk hsz hw hn hlen hsum hpos hnone =>
      have hmax : n ≤ intMax := hn ▸ cInt_le _
      apply Stage.body (k := k) (w := w ++ bytes) (n := n)
        (hy.handleData.trans hh) (by rw [hy.data, hs]) hk (by rw [hy.data, hsz])
      · rw [hy.payload, hw, List.cons_append]
      · rw [hn, lengthOf_append bytes hlen]
      · rw [List.length_append]
        omega
      · rw [List.length_append]
        omega
      · intro hzero
        have hle := hasked.le (hpos hzero) (by omega)
        omega
      · exact fun hzero => absurd hzero hmore

/-- What has been received stays where it is while the block grows. -/
theorem expecting_payload {data : List UInt8} {e : Int}
    (hinside : x.recv.size ≤ x.recv.alloc) (hdata : x.recv.data <+: data) :
    (expecting x data e).recv.payload = x.recv.payload := by
  obtain ⟨more, rfl⟩ := hdata
  exact List.take_append_of_le_length hinside

/-- A byte that completes an empty buffer is what the buffer starts with. -/
theorem payload_start {c : AuraChunk} (hone : c.size = 1)
    (hb : loadByte c.data 0 = .ok magicStart) : c.payload = [magicStart] := by
  have hget := loadByte_eq_ok.mp hb
  rw [AuraChunk.payload, hone]
  cases hdata : c.data with
  | nil =>
      rw [hdata] at hget
      cases hget
  | cons b data =>
      rw [hdata] at hget
      cases hget
      rfl

theorem Handled.lost {g : Grant} (hz : Handled host g y .packets z)
    (hh : y.handleData = .packets) :
    z.handleData = .packets ∧ z.data.szSz = y.data.szSz := by
  cases hz with
  | noise | counts | adds | ignored => exact ⟨hh, rfl⟩
  | start hs hb he | length hs hn he =>
      obtain ⟨data, hy⟩ := auraAsyncExpectBytes_eq_ok he
      rw [hy, expecting_handleData, expecting_data]
      exact ⟨hh, rfl⟩

/-- What a request for more does to a receiver on its way to the state `st`. -/
structure Requested (y : SerialXfer) (st : RxState) (n : Int) (z : SerialXfer) :
    Prop where
  expectBytes : z.expectBytes = cInt n
  handleData : z.handleData = y.handleData
  data : z.data = { y.data with rxstate := st }
  payload : z.recv.payload = y.recv.payload
  size : z.recv.size = y.recv.size
  alloc_ge : y.recv.alloc ≤ z.recv.alloc
  alloc_le : (z.recv.alloc : Int) ≤ intMax

theorem requested_of_eq_ok {g : Grant} {st : RxState} {n r : Int}
    (hinside : y.recv.size ≤ y.recv.alloc)
    (hmax : (y.recv.alloc : Int) ≤ intMax)
    (h : auraAsyncExpectBytes g (entering y st) n = .ok (r, z)) :
    Requested y st n z := by
  obtain ⟨data, hz, hkeeps, hle⟩ :=
    auraAsyncExpectBytes_keeps (x := entering y st) hmax h
  generalize he : cInt n = e at *
  subst hz
  exact ⟨he.symm, rfl, rfl, @expecting_payload (entering y st) data _ hinside hkeeps,
    rfl, hkeeps.length_le, hle⟩

theorem handleData_init_discovery {g : Grant} (hs : y.data.rxstate = .discovery) :
    handleData host g .discoveryInit y = (do
      let stag ← loadByte y.recv.data 1
      let itag ← loadByte y.recv.data 2
      let etag ← loadByte y.recv.data 3
      pure (featured y stag.toBitVec.toInt itag.toBitVec.toInt
        ((host = .little && etag = chr 'b') ||
          (host = .big && etag = chr 'l')))) := by
  rw [handleData, urpcXferHandlerDiscoveryInit, hs]
  rfl

/-- Between two packets. -/
theorem staged_restart (hge : 256 ≤ z.recv.alloc)
    (hmax : (z.recv.alloc : Int) ≤ intMax) (hh : z.handleData = .packets)
    (hs : z.data.rxstate = .waitStart) (hsize : z.recv.size = 0)
    (he : z.expectBytes = 1) : Staged host z := by
  refine ⟨hge, hmax, by omega, ?_⟩
  by_cases hk : DeclaredSize z.data.szSz
  · obtain ⟨k, hsz, hk⟩ := natCast_declared hk
    exact .start hh hs hk hsz hsize he
  · exact .lost hh hk

/-- A read that leaves nothing to be expected, and the call it leads to. -/
theorem Staged.fires {g : Grant} (hx : Staged host x)
    (hy : Absorbed x bytes y) (hzero : y.expectBytes = 0)
    (hz : handleData host g y.handleData y = .ok z) : Staged host z := by
  have he := hy.expectBytes
  have hge : 256 ≤ y.recv.alloc := hy.alloc ▸ hx.alloc_ge
  have hmax : (y.recv.alloc : Int) ≤ intMax := hy.alloc ▸ hx.alloc_le
  have hsize := hy.size hx.inside
  have hgoes : ∀ {st : RxState} {n : Int}, Requested y st n z →
      Stage host z → Staged host z := fun hreq hstage =>
    ⟨Nat.le_trans hge hreq.alloc_ge, hreq.alloc_le,
      hreq.size ▸ Nat.le_trans hy.inside hreq.alloc_ge, hstage⟩
  cases hx.stage with
  | announce hh hs hone =>
      have hh' := hy.handleData.trans hh
      have hs' : y.data.rxstate = .waitStart := by rw [hy.data, hs]
      rw [hh', handleData_init_waitStart hs'] at hz
      rcases awaitStart_eq_ok hz with ⟨b, hb, hne, rfl⟩ | ⟨hb, r, hr⟩
      · exact ⟨hge, hmax, Nat.zero_le _, .announce hh' hs' rfl⟩
      · have hreq := requested_of_eq_ok hy.inside hmax hr
        have hfive : z.expectBytes = 5 := hreq.expectBytes
        exact hgoes hreq (.features (hreq.handleData.trans hh')
          (by rw [hreq.data]) (by omega) (by omega))
  | features hh hs hpos hle =>
      have hh' := hy.handleData.trans hh
      have hs' : y.data.rxstate = .discovery := by rw [hy.data, hs]
      rw [hh', handleData_init_discovery hs'] at hz
      obtain ⟨stag, _, hz⟩ := bind_eq_ok.mp hz
      obtain ⟨itag, _, hz⟩ := bind_eq_ok.mp hz
      obtain ⟨etag, _, hz⟩ := bind_eq_ok.mp hz
      cases hz
      exact staged_restart hge hmax rfl rfl rfl rfl
  | lost hh hk =>
      have hh' := hy.handleData.trans hh
      rw [hh'] at hz
      have hhandled := handleData_handled hz
      obtain ⟨hh'', hsz⟩ := hhandled.lost hh'
      have hstage : Stage host z := .lost hh'' (by rwa [hsz, hy.data])
      cases hhandled with
      | noise | counts | adds => exact ⟨hge, hmax, Nat.zero_le _, hstage⟩
      | ignored => exact ⟨hge, hmax, hy.inside, hstage⟩
      | start _ _ hr | length _ _ hr =>
          exact hgoes (requested_of_eq_ok hy.inside hmax hr) hstage
  | @start k hh hs hk hsz hempty hone =>
      have hh' := hy.handleData.trans hh
      have hs' : y.data.rxstate = .waitStart := by rw [hy.data, hs]
      have hsz' : y.data.szSz = k := by rw [hy.data, hsz]
      rw [hh', handleData_packets_waitStart hs'] at hz
      rcases awaitStart_eq_ok hz with ⟨b, hb, hne, rfl⟩ | ⟨hb, r, hr⟩
      · exact ⟨hge, hmax, Nat.zero_le _, .start hh' hs' hk hsz' rfl rfl⟩
      · have hreq := requested_of_eq_ok hy.inside hmax hr
        have hone' : z.expectBytes = k := by
          rw [hreq.expectBytes, hsz']
          exact cInt_of_mem (by unfold intMax; omega)
            (by have hfour := hk.le; unfold intMax; omega)
        have hfour := hk.le
        apply hgoes hreq
        apply Stage.length (k := k) (w := []) (hreq.handleData.trans hh')
          (by rw [hreq.data]) hk (by rw [hreq.data, hsz'])
        · rw [hreq.payload, payload_start (by omega) hb]
        · rw [List.length_nil]
          omega
        · omega
  | @length k w hh hs hk hsz hw hsum hpos =>
      have hh' := hy.handleData.trans hh
      have hs' : y.data.rxstate = .getLen := by rw [hy.data, hs]
      have hsz' : y.data.szSz = k := by rw [hy.data, hsz]
      have hpay : y.recv.payload = magicStart :: (w ++ bytes) := by
        rw [hy.payload, hw, List.cons_append]
      have hlen : (w ++ bytes).length = k := by
        rw [List.length_append]
        omega
      rw [hh', handleData_packets_getLen hs', hsz',
        numberToInt_payload hk hpay (Nat.le_of_eq hlen.symm), ok_bind] at hz
      obtain ⟨⟨r, z'⟩, hr, hz⟩ := bind_eq_ok.mp hz
      cases hz
      have hreq := requested_of_eq_ok hy.inside hmax hr
      apply hgoes hreq
      apply Stage.body (k := k) (w := w ++ bytes) (hreq.handleData.trans hh')
        (by rw [hreq.data]) hk (by rw [hreq.data, hsz'])
        (hreq.payload.trans hpay) rfl (Nat.le_of_eq hlen.symm)
      · rw [hreq.expectBytes, cInt_cInt, hlen]
      · rw [hreq.expectBytes, cInt_cInt]
        exact id
      · exact fun _ => hlen
  | @body k w n hh hs hk hsz hw hn hlen hsum hpos hnone =>
      have hh' := hy.handleData.trans hh
      have hs' : y.data.rxstate = .getBody := by rw [hy.data, hs]
      rw [hh', handleData_packets_getBody hs'] at hz
      obtain ⟨s, _, rfl⟩ := getBody_nextPacket hz
      exact staged_restart hge hmax hh' rfl rfl rfl

/-- Nothing else of a receiver counts. -/
theorem Staged.congr (hx : Staged host x) (hh : y.handleData = x.handleData)
    (hs : y.data.rxstate = x.data.rxstate)
    (hsz : y.data.szSz = x.data.szSz) (he : y.expectBytes = x.expectBytes)
    (hrecv : y.recv = x.recv) : Staged host y := by
  obtain ⟨hge, hmax, hinside, hstage⟩ := hx
  rw [← hrecv] at hge hmax hinside
  refine ⟨hge, hmax, hinside, ?_⟩
  cases hstage with
  | announce hh' hs' he' =>
      exact .announce (hh.trans hh') (hs.trans hs') (he.trans he')
  | features hh' hs' hpos hle =>
      rw [← he] at hpos hle
      exact .features (hh.trans hh') (hs.trans hs') hpos hle
  | lost hh' hk => exact .lost (hh.trans hh') (by rwa [hsz])
  | start hh' hs' hk hsz' hsize he' =>
      exact .start (hh.trans hh') (hs.trans hs') hk (hsz.trans hsz')
        (hrecv ▸ hsize) (he.trans he')
  | length hh' hs' hk hsz' hw hsum hpos =>
      rw [← he] at hsum hpos
      exact .length (hh.trans hh') (hs.trans hs') hk (hsz.trans hsz')
        (hrecv ▸ hw) hsum hpos
  | body hh' hs' hk hsz' hw hn hlen hsum hpos hnone =>
      rw [← he] at hsum hpos hnone
      exact .body (hh.trans hh') (hs.trans hs') hk (hsz.trans hsz')
        (hrecv ▸ hw) hn hlen hsum hpos hnone

end Stages

/-! ## Runs -/

/-- What `read` promises. -/
def ReadsReturn (p : Port) : SerialEvent → Prop
  | .epollin (.got bytes) _ => ReadReturns p.xfer bytes
  | _ => True

theorem staged_step {host : Endian} {p q : Port} {e : SerialEvent}
    (hp : Staged host p.xfer) (hasked : ReadsReturn p e)
    (hstep : serialStep host p e = .ok q) : Staged host q.xfer := by
  rcases serialStep_cases hstep with ⟨env, rfl, hd⟩ | hs
  · have hge := hp.alloc_ge
    obtain ⟨transferlist, hook, hq⟩ :=
      urpcSerialDiscovery_waits (by omega) hp.alloc_le hd
    rw [hq]
    exact ⟨hge, hp.alloc_le, hp.inside, .announce rfl rfl rfl⟩
  · generalize q.xfer = z at hs
    cases hs with
    | nothing => exact hp
    | absorbs hy hmore => exact hp.absorbs hasked (absorbed_of_eq_ok hy) hmore
    | fires hy hzero hz => exact hp.fires (absorbed_of_eq_ok hy) hzero hz
    | sends => exact hp.congr rfl rfl rfl rfl rfl

/-- An instance, from its first discovery on: whatever happens to it, with the
objects the urpc plugin puts there. -/
inductive Lives (host : Endian) : Port → Prop
  | discovers {env : CallEnv} {p q : Port} (hopen : Opened p)
      (h : urpcSerialDiscovery env p = .ok q) : Lives host q
  | steps {p q : Port} {e : SerialEvent} (hp : Lives host p)
      (hasked : ReadsReturn p e) (h : serialStep host p e = .ok q) :
      Lives host q
  | fills {p : Port} (hp : Lives host p) (inst : UrpcInstance) :
      Lives host
        { p with xfer := { p.xfer with data := { p.xfer.data with inst } } }

theorem Lives.staged {host : Endian} {p : Port} (h : Lives host p) :
    Staged host p.xfer := by
  induction h with
  | discovers hopen h =>
      have hbuffer := hopen.buffer
      obtain ⟨transferlist, hook, hq⟩ := urpcSerialDiscovery_waits
        (by omega) (by rw [hbuffer]; decide) h
      rw [hq]
      exact ⟨Nat.le_of_eq hbuffer.symm, hbuffer ▸ (by decide),
        hopen.empty ▸ Nat.zero_le _, .announce rfl rfl rfl⟩
  | steps _ hasked h ih => exact staged_step ih hasked h
  | fills _ inst ih => exact ih.congr rfl rfl rfl rfl rfl

end Aura.Proofs
