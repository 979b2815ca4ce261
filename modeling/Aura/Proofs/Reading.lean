import Aura.Proofs.Arrivals
import Aura.Proofs.Parser

/-!
# One read

A read takes its bytes off what has to arrive: it ends the wait, or what comes
after it has to be the rest (`comes_read`). There is a lemma for each stage of
a packet, and one for each of the calls that a complete piece leads to.
-/

namespace Aura.Proofs

open Aura.Lib Aura.Ref

/-! ## Where a read leads -/

section Reads

variable {host : Endian} {x y : SerialXfer} {s : List Arrival} {g : Grant}
  {bytes : List UInt8}

/-- The wait is over with this, or what arrives next ends it. -/
def Leads (host : Endian) (r : Res SerialXfer) (s : List Arrival) : Prop :=
  ∃ z, r = .ok z ∧ (z.data.state ≠ 0 ∨ Comes host z s)

theorem leads_error {e : Fault} : ¬ Leads host (.error e) s := by
  rintro ⟨z, hz, _⟩
  cases hz

theorem leads_ok (hwait : y.data.state = 0) :
    Leads host (.ok y) s ↔ Comes host y s := by
  constructor
  · rintro ⟨z, hz, hne | hcomes⟩
    · cases hz
      exact absurd hwait hne
    · cases hz
      exact hcomes
  · intro h
    exact ⟨y, rfl, .inr h⟩

/-- Without room for the bytes there is no telling what the read does. -/
theorem handlerIn_overrun (h : x.recv.alloc < x.recv.size + bytes.length) :
    auraAsyncXferHandlerIn (handleData host g) (.got bytes) x
      = .error .outOfBounds := by
  have hstore : storeBytes x.recv.data x.recv.size bytes
      = .error .outOfBounds := if_neg (Nat.not_le.mpr h)
  rw [handlerIn_got, absorbBytes_eq, hstore]
  rfl

theorem handlerIn_short (hy : absorbBytes x bytes = .ok y)
    (hmore : y.expectBytes ≠ 0) :
    auraAsyncXferHandlerIn (handleData host g) (.got bytes) x = .ok y := by
  rw [handlerIn_got, hy, ok_bind, if_neg hmore]
  rfl

theorem handlerIn_full (hy : absorbBytes x bytes = .ok y)
    (hzero : y.expectBytes = 0) :
    auraAsyncXferHandlerIn (handleData host g) (.got bytes) x
      = handleData host g y.handleData y := by
  rw [handlerIn_got, hy, ok_bind, if_pos hzero]

/-- A read that is asked for more than nothing and brings nothing. -/
theorem comes_read_nil (hx : Staged host x) (hwait : x.data.state = 0)
    (hmore : x.expectBytes ≠ 0) :
    Comes host x s ↔
      Leads host (auraAsyncXferHandlerIn (handleData host g) (.got []) x) s := by
  rw [handlerIn_short (absorbBytes_nil hx.inside) hmore, leads_ok hwait]

/-- In front of a packet or of an announcement, `b` is the byte that counts. -/
theorem awaitStart_leads {st : RxState} {n : Nat} {b : UInt8}
    (hwait : y.data.state = 0) (hb : loadByte y.recv.data 0 = .ok b)
    (hmax : (y.recv.alloc : Int) ≤ intMax) (hn : n ≤ y.recv.alloc) :
    Leads host (awaitStart g y st n) s ↔
      if b = magicStart then
        Comes host (expecting (entering y st) y.recv.data n) s
      else Comes host (resynced y) s := by
  rw [awaitStart, hb, ok_bind]
  by_cases hstart : b = magicStart
  · rw [if_neg (not_not.mpr hstart), if_pos hstart, auraAsyncExpectBytes_fits g
      (x := entering y st) hmax (Int.ofNat_le.mpr hn) (by
        show (y.recv.alloc : Int) - n ≤ intMax
        omega)]
    exact leads_ok (y := expecting (entering y st) y.recv.data n) hwait
  · rw [if_pos hstart, if_neg hstart]
    exact leads_ok (y := resynced y) hwait

/-! ## The announcement -/

theorem comes_read_announce {b : UInt8} (hx : Staged host x)
    (hwait : x.data.state = 0) (hh : x.handleData = .discoveryInit)
    (hs : x.data.rxstate = .waitStart) (he : x.expectBytes = 1) :
    Comes host x ((b, g) :: s) ↔
      Leads host (auraAsyncXferHandlerIn (handleData host g) (.got [b]) x)
        s := by
  rw [comes_announce hh hs]
  cases hstore : storeBytes x.recv.data x.recv.size [b] with
  | error e =>
      rw [handlerIn_got, absorbBytes_eq, hstore]
      refine iff_of_false (fun h => ?_) leads_error
      cases h with
      | noise hstore' => cases hstore.symm.trans hstore'
      | start hstore' => cases hstore.symm.trans hstore'
  | ok data =>
      have hy : absorbBytes x [b] = .ok (holding x data 1) :=
        absorbBytes_eq_ok.mpr ⟨data, hstore, rfl⟩
      have hlen : data.length = x.recv.alloc := storeBytes_length hstore
      have hge := hx.alloc_ge
      have hfirst : loadByte data 0 = .ok data[0] := loadByte_of_lt (by omega)
      rw [handlerIn_full hy (by simp only [holding]; omega),
        announces_cons_iff hstore, loadByte_eq_ok.mp hfirst]
      show _ ↔ Leads host (handleData host g x.handleData (holding x data 1)) s
      rw [hh, handleData_init_waitStart
        (show (holding x data 1).data.rxstate = .waitStart from hs)]
      have hmax : (data.length : Int) ≤ intMax := hlen ▸ hx.alloc_le
      refine Iff.trans ?_ (@awaitStart_leads _ (holding x data 1) s g .discovery
        5 _ hwait hfirst hmax (show 5 ≤ data.length by omega)).symm
      simp only [Option.some.injEq]
      by_cases hb : data[0] = magicStart
      · rw [if_pos hb, if_pos hb]
        exact (@comes_features _ (expecting (entering (holding x data 1)
          .discovery) data 5) s hh rfl).symm
      · rw [if_neg hb, if_neg hb]
        exact (@comes_announce _ (resynced (holding x data 1)) s hh hs).symm

theorem featured_append {e size : Nat} {buf : List UInt8}
    (hle : bytes.length ≤ e) :
    Featured host e buf size (bytes.map (·, g) ++ s) ↔
      ∃ d, storeBytes buf size bytes = .ok d ∧
        Featured host (e - bytes.length) d (size + bytes.length) s := by
  have htake : bytesIn ((bytes.map (·, g) ++ s).take e)
      = bytes ++ bytesIn (s.take (e - bytes.length)) := by
    rw [List.take_append, List.length_map,
      List.take_of_length_le (by rwa [List.length_map]), bytesIn_append,
      bytesIn_map]
  have hdrop : (bytes.map (·, g) ++ s).drop e = s.drop (e - bytes.length) := by
    rw [List.drop_append, List.length_map,
      List.drop_of_length_le (by rwa [List.length_map]), List.nil_append]
  unfold Featured
  rw [htake, hdrop, List.length_append, List.length_map, storeBytes_append]
  constructor
  · rintro ⟨hall, data, stag, hstore, hstag, h⟩
    obtain ⟨d, hd, hstore⟩ := bind_eq_ok.mp hstore
    exact ⟨d, hd, by omega, data, stag, hstore, hstag, h⟩
  · rintro ⟨d, hd, hall, data, stag, hstore, hstag, h⟩
    exact ⟨by omega, data, stag, bind_eq_ok.mpr ⟨d, hd, hstore⟩, hstag, h⟩

theorem featured_zero {size : Nat} {buf : List UInt8}
    (hsize : size ≤ buf.length) :
    Featured host 0 buf size s ↔ ∃ stag, buf[1]? = some stag ∧
      Heard host buf stag.toBitVec.toInt s := by
  have hstore : storeBytes buf size (bytesIn (s.take 0)) = .ok buf := by
    rw [List.take_zero, storeBytes_eq_ok]
    refine ⟨hsize, ?_⟩
    show buf = buf.take size ++ [] ++ buf.drop (size + 0)
    rw [List.append_nil, Nat.add_zero, List.take_append_drop]
  constructor
  · rintro ⟨_, data, stag, hstore', hstag, h⟩
    cases hstore.symm.trans hstore'
    exact ⟨stag, hstag, h⟩
  · rintro ⟨stag, hstag, h⟩
    exact ⟨Nat.zero_le _, buf, stag, hstore, hstag, h⟩

theorem comes_read_features (hx : Staged host x) (hwait : x.data.state = 0)
    (hh : x.handleData = .discoveryInit) (hs : x.data.rxstate = .discovery)
    (hpos : 0 < x.expectBytes) (hle : (bytes.length : Int) ≤ x.expectBytes) :
    Comes host x (bytes.map (·, g) ++ s) ↔
      Leads host (auraAsyncXferHandlerIn (handleData host g) (.got bytes) x)
        s := by
  obtain ⟨e, he⟩ := Int.eq_ofNat_of_zero_le (Int.le_of_lt hpos)
  rw [comes_features hh hs, he, Int.toNat_natCast, featured_append (by omega)]
  cases hstore : storeBytes x.recv.data x.recv.size bytes with
  | error f =>
      rw [handlerIn_got, absorbBytes_eq, hstore]
      refine iff_of_false ?_ leads_error
      rintro ⟨d, hd, _⟩
      cases hd
  | ok data =>
      have hy : absorbBytes x bytes = .ok (holding x data bytes.length) :=
        absorbBytes_eq_ok.mpr ⟨data, hstore, rfl⟩
      have hlen : data.length = x.recv.alloc := storeBytes_length hstore
      have hroom := (storeBytes_eq_ok.mp hstore).1
      have hge := hx.alloc_ge
      simp only [Except.ok.injEq, exists_eq_left']
      by_cases hall : bytes.length = e
      · rw [handlerIn_full hy (by simp only [holding]; omega), hall,
          Nat.sub_self, featured_zero (by rw [hlen, ← hall]; exact hroom)]
        have hload : ∀ i < 256, ∃ b, loadByte data i = .ok b :=
          fun i hi => ⟨_, loadByte_of_lt (show i < data.length by omega)⟩
        obtain ⟨stag, hstag⟩ := hload 1 (by decide)
        obtain ⟨itag, hitag⟩ := hload 2 (by decide)
        obtain ⟨etag, hetag⟩ := hload 3 (by decide)
        show _ ↔ Leads host (handleData host g x.handleData (holding x data e)) s
        rw [hh, handleData_init_discovery
          (show (holding x data e).data.rxstate = _ from hs)]
        show _ ↔ Leads host (loadByte data 1 >>= fun stag =>
          loadByte data 2 >>= fun itag => loadByte data 3 >>= _) s
        rw [hstag, ok_bind, hitag, ok_bind, hetag, ok_bind]
        refine Iff.trans ?_ ((leads_ok (by exact hwait)).trans
          (comes_packets (by rfl))).symm
        rw [held_empty rfl, List.nil_append]
        show _ ↔ Heard host data stag.toBitVec.toInt s
        rw [loadByte_eq_ok.mp hstag]
        simp only [Option.some.injEq, exists_eq_left']
      · rw [handlerIn_short hy (by simp only [holding]; omega)]
        refine Iff.trans ?_ ((leads_ok (by exact hwait)).trans
          (comes_features (by exact hh) (by exact hs))).symm
        have hrest : (x.expectBytes - (bytes.length : Nat)).toNat
            = e - bytes.length := by omega
        show _ ↔ Featured host (x.expectBytes - (bytes.length : Nat)).toNat data
          (x.recv.size + bytes.length) s
        rw [hrest]

/-! ## Packets -/

/-- A length field that is not read has no packet of length 1. -/
theorem Handled.waits (hz : Handled host g y .packets x)
    (hk : ¬ DeclaredSize y.data.szSz) (hwait : y.data.state = 0) :
    x.data.state = 0 := by
  cases hz with
  | noise | adds | ignored => exact hwait
  | start hs hb he | length hs hn he =>
      obtain ⟨data, hx⟩ := auraAsyncExpectBytes_eq_ok he
      rw [hx, expecting_data]
      exact hwait
  | counts hs hcount =>
      obtain ⟨n, hn, hone⟩ := hcount.resolve_left (not_not.mpr hwait)
      unfold DeclaredSize at hk
      rw [numberToInt, if_neg (by omega), if_neg (by omega),
        if_neg (by omega)] at hn
      cases hn
      exact absurd hone (by decide)

theorem comes_read_lost (hwait : x.data.state = 0)
    (hh : x.handleData = .packets) (hk : ¬ DeclaredSize x.data.szSz) :
    Comes host x (bytes.map (·, g) ++ s) ↔
      Leads host (auraAsyncXferHandlerIn (handleData host g) (.got bytes) x)
        s := by
  have hnever : ∀ {z : SerialXfer} {t : List Arrival},
      z.handleData = .packets → z.data.szSz = x.data.szSz →
      ¬ Comes host z t := by
    intro z t hz hsz
    rw [comes_packets hz, hsz]
    rintro ⟨k, hk', hdeclared, _⟩
    exact hk (hk' ▸ hdeclared)
  refine iff_of_false (hnever hh rfl) ?_
  rintro ⟨z, hz, hleads⟩
  rw [handlerIn_got] at hz
  obtain ⟨y, hy, hz⟩ := bind_eq_ok.mp hz
  obtain ⟨hdata, hhandler⟩ := absorbBytes_data hy
  have hh' : y.handleData = .packets := hhandler.trans hh
  by_cases hzero : y.expectBytes = 0
  · rw [if_pos hzero, hh'] at hz
    have hhandled := handleData_handled hz
    have hstays := hhandled.waits (by rwa [hdata]) (by rwa [hdata])
    obtain ⟨hpackets, hsz⟩ := hhandled.lost hh'
    exact hleads.elim (fun hne => hne hstays)
      (hnever hpackets (by rw [hsz, hdata]))
  · rw [if_neg hzero] at hz
    cases hz
    exact hleads.elim (fun hne => hne (by rwa [hdata]))
      (hnever hh' (by rw [hdata]))

theorem comes_read_start {k : Nat} {b : UInt8} (hx : Staged host x)
    (hwait : x.data.state = 0) (hh : x.handleData = .packets)
    (hs : x.data.rxstate = .waitStart) (hk : DeclaredSize k)
    (hsz : x.data.szSz = k) (hsize : x.recv.size = 0)
    (he : x.expectBytes = 1) :
    Comes host x ((b, g) :: s) ↔
      Leads host (auraAsyncXferHandlerIn (handleData host g) (.got [b]) x)
        s := by
  rw [comes_packets hh, heard_iff hk hsz, held_empty hsize, List.nil_append]
  have hge := hx.alloc_ge
  have hfour := hk.le
  obtain ⟨y, hy⟩ := absorbBytes_room.mpr
    (show x.recv.size + [b].length ≤ x.recv.alloc by
      rw [List.length_singleton]
      omega)
  obtain ⟨data, hstore, rfl⟩ := absorbBytes_eq_ok.mp hy
  have hdata : data = b :: x.recv.data.drop 1 := by
    rw [hsize] at hstore
    exact (storeBytes_eq_ok.mp hstore).2
  have hlen : data.length = x.recv.alloc := storeBytes_length hstore
  have hmax : (data.length : Int) ≤ intMax := hlen ▸ hx.alloc_le
  have hfirst : loadByte data 0 = .ok b := by rw [hdata]; rfl
  rw [handlerIn_full hy (by simp only [holding, List.length_singleton]; omega)]
  show _ ↔ Leads host (handleData host g x.handleData (holding x data 1)) s
  rw [hh, handleData_packets_waitStart
    (show (holding x data 1).data.rxstate = .waitStart from hs)]
  show _ ↔ Leads host (awaitStart g (holding x data 1) .getLen x.data.szSz) s
  rw [hsz]
  refine Iff.trans ?_ (@awaitStart_leads _ (holding x data 1) s g .getLen k _
    hwait hfirst hmax (show k ≤ data.length by omega)).symm
  by_cases hb : b = magicStart
  · rw [if_pos hb]
    refine Iff.trans ?_ (comes_packets (by exact hh)).symm
    have hpay : (expecting (entering (holding x data 1) .getLen) data
        k).recv.payload = [magicStart] := by
      show data.take (x.recv.size + 1) = [magicStart]
      rw [hsize, hdata, hb]
      rfl
    rw [held_start (by exact hpay)]
    show _ ↔ Heard host data x.data.szSz ((magicStart, none) :: s)
    rw [heard_iff hk hsz, hb]
    refine concludes_congr rfl fun n _ => ⟨rfl, fun _ => ?_⟩
    refine roomFor_congr _ n hlen.symm ?_
    rw [hdata, Nat.add_comm 1, List.drop_succ_cons, List.drop_drop,
      Nat.add_comm]
  · rw [if_neg hb]
    refine Iff.trans ?_ (comes_packets (by exact hh)).symm
    rw [held_empty rfl, List.nil_append]
    show _ ↔ Heard host data x.data.szSz s
    rw [heard_iff hk hsz, concludes_noise_iff hb, hdata]

/-- The answers to what is already in the buffer were given before. -/
theorem roomIn_held {k n : Nat} {w buf : List UInt8} (hk : DeclaredSize k)
    (hlen : k ≤ w.length) : roomIn k buf (w.map (·, none) ++ s) n = buf := by
  have hone := hk.le
  have hnone : (w.map (·, none) ++ s : List Arrival)[k - 1]?.bind Prod.snd
      = none := by
    rw [List.getElem?_append_left (by rw [List.length_map]; omega),
      List.getElem?_map]
    cases w[k - 1]? <;> rfl
  rw [roomIn, hnone, roomFor_none]

/-- Behind what has arrived in two ways all is the same. -/
theorem append_behind {a a' : List Arrival} {i : Nat}
    (hlen : a'.length = a.length) (hi : a.length ≤ i) :
    (a' ++ s)[i]? = (a ++ s)[i]? ∧ (a' ++ s).drop i = (a ++ s).drop i := by
  rw [List.getElem?_append_right (by omega), List.getElem?_append_right hi,
    List.drop_append, List.drop_append, List.drop_of_length_le (by omega),
    List.drop_of_length_le hi, hlen]
  exact ⟨rfl, rfl⟩

/-- Bytes that arrive next can be taken for received, if the room for the body
stays what it is behind them. -/
theorem concludes_received {k : Nat} {w buf buf' : List UInt8}
    (hbehind : ∀ n, lengthOf host k (w ++ bytes ++ bytesIn s) = n →
      w.length + bytes.length ≤ k + n ∧
      (n ≠ 1 →
        (roomIn k buf' ((w ++ bytes).map (·, none) ++ s) n).length
          = (roomIn k buf (w.map (·, none) ++ (bytes.map (·, g) ++ s))
              n).length ∧
        (roomIn k buf' ((w ++ bytes).map (·, none) ++ s) n).drop (1 + (k + n))
          = (roomIn k buf (w.map (·, none) ++ (bytes.map (·, g) ++ s))
              n).drop (1 + (k + n)))) :
    Concludes host k buf ((magicStart, none) :: (w.map (·, none)
        ++ (bytes.map (·, g) ++ s))) ↔
      Concludes host k buf' ((magicStart, none) :: ((w ++ bytes).map (·, none)
        ++ s)) := by
  have hbytes : bytesIn (w.map (·, none) ++ (bytes.map (·, g) ++ s))
      = w ++ bytes ++ bytesIn s := by
    simp only [bytesIn_append, bytesIn_map, List.append_assoc]
  refine (concludes_congr ?_ fun n hn => ?_).symm
  · rw [hbytes, bytesIn_append, bytesIn_map]
  · obtain ⟨hle, hroom⟩ := hbehind n (hbytes ▸ hn)
    refine ⟨?_, hroom⟩
    have hsame : ((w ++ bytes).map fun b => ((b, none) : Arrival)).length
        = (w.map (·, none) ++ bytes.map (·, g) : List Arrival).length := by
      simp only [List.length_map, List.length_append]
    rw [← List.append_assoc]
    refine (append_behind hsame ?_).2
    rw [← hsame, List.length_map, List.length_append]
    exact hle

/-- A length, once it is complete: `a` is how it arrived. -/
theorem getLen_leads {k : Nat} {a : List Arrival} (hwait : y.data.state = 0)
    (hh : y.handleData = .packets) (hs : y.data.rxstate = .getLen)
    (hk : DeclaredSize k) (hsz : y.data.szSz = k)
    (hinside : y.recv.size ≤ y.recv.alloc)
    (hmax : (y.recv.alloc : Int) ≤ intMax)
    (hpay : y.recv.payload = magicStart :: bytesIn a) (hlen : a.length = k)
    (hanswer : a[k - 1]?.bind Prod.snd = g) :
    Leads host (handleData host g .packets y) s ↔
      Concludes host k y.recv.data ((magicStart, none) :: (a ++ s)) := by
  have hone := hk.le
  have hlen' : (bytesIn a).length = k := by rw [bytesIn, List.length_map, hlen]
  have hread : ∀ v : List Arrival,
      lengthOf host k (bytesIn (a ++ v)) = lengthOf host k (bytesIn a) := by
    intro v
    rw [bytesIn_append, lengthOf_append _ (Nat.le_of_eq hlen'.symm)]
  have hbytes : bytesIn ((bytesIn a).map (·, none) ++ s) = bytesIn (a ++ s) := by
    rw [bytesIn_append, bytesIn_map, bytesIn_append]
  have hroom : ∀ n, roomIn k y.recv.data (a ++ s) n
      = roomFor g y.recv.data n := by
    intro n
    rw [roomIn, List.getElem?_append_left (by omega), hanswer]
  have hlt : lengthOf host k (bytesIn a) < 4294967296 := lengthOf_lt hk _
  rw [handleData_packets_getLen hs, hsz,
    numberToInt_payload hk hpay (Nat.le_of_eq hlen'.symm), ok_bind]
  generalize lengthOf host k (bytesIn a) = n at *
  by_cases hint : (n : Int) ≤ intMax
  · rw [cInt_of_mem (by unfold intMax; omega) hint]
    by_cases hgrown : n ≤ y.recv.alloc ∨ 2 * (n : Int) - y.recv.alloc ≤ intMax
    · obtain ⟨r, hr⟩ := auraAsyncExpectBytes_room (g := g)
        (x := entering y .getBody) hint hmax hgrown
      rw [hr]
      show Leads host (.ok
        (expecting (entering y .getBody) (roomFor g y.recv.data n) n)) s ↔ _
      refine ((leads_ok (by
        rw [expecting_data]
        exact hwait)).trans (comes_packets (by exact hh))).trans ?_
      have hpay' : (expecting (entering y .getBody) (roomFor g y.recv.data n)
          n).recv.payload = magicStart :: bytesIn a :=
        (@expecting_payload (entering y .getBody) _ _ hinside
          (prefix_roomFor ..)).trans hpay
      rw [held_start hpay', List.cons_append]
      show Heard host (roomFor g y.recv.data n) y.data.szSz _ ↔ _
      rw [heard_iff hk hsz]
      refine concludes_congr hbytes fun m hm => ⟨?_, fun _ => ?_⟩
      · exact (append_behind (by rw [List.length_map, hlen', hlen])
          (by omega)).2
      · obtain rfl : n = m := (hread s).symm.trans hm
        rw [roomIn_held hk (Nat.le_of_eq hlen'.symm), hroom]
        exact ⟨rfl, rfl⟩
    · rw [expectBytes_overflows (x := entering y .getBody) g (by
          show (y.recv.alloc : Int) < n
          omega) hint (by
          show intMax < 2 * (n : Int) - y.recv.alloc
          omega)]
      refine iff_of_false leads_error fun h => hgrown ?_
      obtain ⟨m, hm, _, hobject⟩ := concludes_start_iff.mp h
      obtain rfl : n = m := (hread s).symm.trans hm
      have hsize : y.recv.size = k + 1 := by
        rw [← length_payload hinside, hpay, List.length_cons, hlen']
      obtain ⟨hfits, hle, _⟩ := hobject (by omega)
      rw [hroom] at hfits hle
      exact roomFor_fits (by omega) hle
  · -- a negative count: nothing is ever going to complete this packet
    refine iff_of_false ?_ fun h => hint (hread s ▸ concludes_length_le h)
    rintro ⟨z, hz, hleads⟩
    obtain ⟨⟨r, z'⟩, hr, hz⟩ := bind_eq_ok.mp hz
    cases hz
    have hreq := requested_of_eq_ok hinside hmax hr
    rcases hleads with hne | hcomes
    · rw [hreq.data] at hne
      exact hne hwait
    · rw [comes_packets (hreq.handleData.trans hh),
        heard_iff hk (by rw [hreq.data, hsz]),
        held_start (hreq.payload.trans hpay), List.cons_append] at hcomes
      have hle := concludes_length_le hcomes
      rw [hbytes, hread] at hle
      exact hint hle

/-- What is in the buffer of a packet whose length is not complete. -/
theorem comes_read_length {k : Nat} {w : List UInt8} (hx : Staged host x)
    (hwait : x.data.state = 0) (hh : x.handleData = .packets)
    (hs : x.data.rxstate = .getLen) (hk : DeclaredSize k)
    (hsz : x.data.szSz = k) (hw : x.recv.payload = magicStart :: w)
    (hsum : w.length + x.expectBytes = k) (hpos : 0 < x.expectBytes)
    (hle : (bytes.length : Int) ≤ x.expectBytes) :
    Comes host x (bytes.map (·, g) ++ s) ↔
      Leads host (auraAsyncXferHandlerIn (handleData host g) (.got bytes) x)
        s := by
  have hge := hx.alloc_ge
  have hfour := hk.le
  have hsize : x.recv.size = 1 + w.length := by
    rw [← length_payload hx.inside, hw, List.length_cons, Nat.add_comm]
  obtain ⟨y, hy⟩ := absorbBytes_room.mpr
    (show x.recv.size + bytes.length ≤ x.recv.alloc by omega)
  have hab := absorbed_of_eq_ok hy
  have he := hab.expectBytes
  have hpay : y.recv.payload = magicStart :: (w ++ bytes) := by
    rw [hab.payload, hw, List.cons_append]
  have hsz' : y.data.szSz = k := by rw [hab.data, hsz]
  have hwait' : y.data.state = 0 := by rw [hab.data, hwait]
  have hh' := hab.handleData.trans hh
  rw [comes_packets hh, heard_iff hk hsz, held_start hw, List.cons_append]
  by_cases hall : (bytes.length : Int) = x.expectBytes
  · rw [handlerIn_full hy (by omega), hh', getLen_leads
      (a := w.map (·, none) ++ bytes.map (·, g)) hwait' hh'
      (by rw [hab.data, hs]) hk hsz' hab.inside (hab.alloc ▸ hx.alloc_le)
      (by rw [hpay, bytesIn_append, bytesIn_map, bytesIn_map])
      (by simp only [List.length_append, List.length_map]; omega)
      (by
        rw [List.getElem?_append_right (by rw [List.length_map]; omega),
          List.getElem?_map, List.getElem?_eq_getElem (by
            rw [List.length_map]
            omega)]
        rfl),
      List.append_assoc]
    refine (concludes_congr rfl fun n _ => ⟨rfl, fun _ => ?_⟩).symm
    exact roomFor_congr _ n hab.alloc (hab.behind _ (by omega))
  · rw [handlerIn_short hy (by omega)]
    refine Iff.trans ?_ ((leads_ok hwait').trans (comes_packets hh')).symm
    rw [heard_iff hk hsz', held_start hpay, List.cons_append]
    refine concludes_received fun n _ => ⟨by omega, fun _ => ?_⟩
    have hlen : ((w ++ bytes).map fun b => ((b, none) : Arrival)).length
        = (w.map (·, none) ++ bytes.map (·, g) : List Arrival).length := by
      simp only [List.length_map, List.length_append]
    have hanswer := (append_behind (s := s) (i := k - 1) hlen (by
      simp only [List.length_append, List.length_map]
      omega)).1
    rw [roomIn, roomIn, hanswer, List.append_assoc]
    exact roomFor_congr _ n hab.alloc (hab.behind _ (by omega))

theorem comes_extended {k : Nat} {o : UrpcObject} (hh : y.handleData = .packets)
    (hk : DeclaredSize k) (hsz : y.data.szSz = k) :
    Comes host (extended y o) s ↔ Concludes host k y.recv.data s := by
  rw [comes_packets (show (extended y o).handleData = .packets from hh),
    held_empty (show (extended y o).recv.size = 0 from rfl), List.nil_append]
  exact heard_iff hk hsz

/-- A body, once it is complete. -/
theorem getBody_leads {k n : Nat} {v : List UInt8} (hwait : y.data.state = 0)
    (hh : y.handleData = .packets) (hk : DeclaredSize k)
    (hsz : y.data.szSz = k) (hpay : y.recv.payload = magicStart :: v)
    (hlen : lengthOf host k v = n) (hint : (n : Int) ≤ intMax)
    (hall : k ≤ v.length) :
    Leads host (getBody host y) s ↔
      (n ≠ 1 → 3 ≤ (y.recv.data.drop (k + 3)).count 0 ∧
        Concludes host k y.recv.data s) := by
  have hnum : numberToInt host y.recv.data 1 y.data.szSz = .ok n := by
    rw [hsz, numberToInt_payload hk hpay hall, hlen]
  have hcint : cInt n = n := cInt_of_mem (by unfold intMax; omega) hint
  by_cases hone : n = 1
  · subst hone
    rw [getBody_of_one hwait hnum hcint, hwait]
    refine iff_of_true ?_ fun hne => absurd rfl hne
    exact ⟨counted y 1, rfl, .inl Int.one_ne_zero⟩
  · rw [getBody_of_object hwait hnum (by omega) (by omega), hsz,
      show (1 + (k : Int)).toNat = 1 + k by omega]
    have hreads := @parserReads_lt_iff y.recv.data _ (1 + k)
      (Nat.le_refl y.recv.data.length)
    rw [List.take_length, show 1 + k + 2 = k + 3 by omega] at hreads
    constructor
    · rintro ⟨z, hz, hleads⟩ _
      cases hparse : parseObject y.recv.data (1 + k) with
      | error e =>
          rw [hparse] at hz
          cases hz
      | ok o =>
          rw [hparse] at hz
          cases hz
          refine ⟨hreads.mp (parseObject_eq_ok.mp hparse).1, ?_⟩
          exact (comes_extended hh hk hsz).mp
            (hleads.resolve_left (not_not.mpr hwait))
    · intro h
      obtain ⟨hnuls, hends⟩ := h hone
      refine ⟨extended y (described y.recv.data (1 + k)), ?_,
        .inr ((comes_extended hh hk hsz).mpr hends)⟩
      rw [parseObject_eq_ok.mpr ⟨hreads.mpr hnuls, rfl⟩]
      rfl

/-- A packet whose body has arrived as a whole. -/
theorem concludes_body {k m : Nat} {w : List UInt8} (hx : Staged host x)
    (hab : Absorbed x bytes y) (hk : DeclaredSize k)
    (hw : x.recv.payload = magicStart :: w) (hm : lengthOf host k w = m)
    (hlen : k ≤ w.length) (hsum : w.length + bytes.length = k + m) :
    Concludes host k x.recv.data ((magicStart, none) :: (w.map (·, none)
        ++ (bytes.map (·, g) ++ s))) ↔
      (m ≠ 1 → 3 ≤ (y.recv.data.drop (k + 3)).count 0 ∧
        Concludes host k y.recv.data s) := by
  have htaken : (w ++ bytes).length = k + m := by
    rw [List.length_append, hsum]
  have hpay : y.recv.payload = magicStart :: (w ++ bytes) := by
    rw [hab.payload, hw, List.cons_append]
  have hend : y.recv.size = 1 + (k + m) := by
    rw [← length_payload hab.inside, hpay, List.length_cons, htaken,
      Nat.add_comm]
  have hsize : x.recv.size = 1 + w.length := by
    rw [← length_payload hx.inside, hw, List.length_cons, Nat.add_comm]
  have hread : lengthOf host k (bytesIn (w.map (·, none) ++ (bytes.map (·, g)
      ++ s))) = m := by
    rw [bytesIn_append, bytesIn_map, lengthOf_append _ hlen, hm]
  have hdata : packetIn x.recv.data (w.map (·, none) ++ (bytes.map (·, g)
      ++ s)) (k + m) = y.recv.data := by
    rw [data_eq_payload_append y.recv, hpay, hend, hab.behind _ (by omega),
      packetIn, bytesIn_append, bytesIn_append, bytesIn_map, bytesIn_map,
      ← List.append_assoc, List.take_left' htaken, List.cons_append]
  have hdrop : (w.map (·, none) ++ (bytes.map (·, g) ++ s)
      : List Arrival).drop (k + m) = s := by
    rw [← List.append_assoc]
    exact List.drop_left' (by
      rw [List.length_append, List.length_map, List.length_map, hsum])
  rw [concludes_start_iff]
  constructor
  · rintro ⟨m', hm', _, hobject⟩ hne
    obtain rfl : m = m' := hread.symm.trans hm'
    obtain ⟨_, _, hnuls, hends⟩ := hobject hne
    rw [roomIn_held hk hlen, hdata] at hnuls hends
    rw [hdrop] at hends
    exact ⟨hnuls, hends⟩
  · intro h
    refine ⟨m, hread, ?_, fun hne => ?_⟩
    · simp only [List.length_append, List.length_map]
      omega
    · obtain ⟨hnuls, hends⟩ := h hne
      rw [roomIn_held hk hlen, hdata, hdrop]
      refine ⟨?_, hx.alloc_le, hnuls, hends⟩
      have halloc : y.recv.alloc = x.recv.data.length := hab.alloc
      have hinside := hab.inside
      omega

/-- What is in the buffer of a packet whose body is not complete. -/
theorem comes_read_body {k : Nat} {w : List UInt8} {n : Int}
    (hx : Staged host x) (hwait : x.data.state = 0)
    (hh : x.handleData = .packets) (hs : x.data.rxstate = .getBody)
    (hk : DeclaredSize k) (hsz : x.data.szSz = k)
    (hw : x.recv.payload = magicStart :: w) (hn : n = cInt (lengthOf host k w))
    (hlen : k ≤ w.length) (hsum : w.length + x.expectBytes = k + n)
    (hpos : 0 ≤ n → 0 ≤ x.expectBytes) (hasked : ReadReturns x bytes) :
    Comes host x (bytes.map (·, g) ++ s) ↔
      Leads host (auraAsyncXferHandlerIn (handleData host g) (.got bytes) x)
        s := by
  have hsize : x.recv.size = 1 + w.length := by
    rw [← length_payload hx.inside, hw, List.length_cons, Nat.add_comm]
  have hlt : lengthOf host k w < 4294967296 := lengthOf_lt hk w
  have hread : ∀ v : List Arrival, lengthOf host k (bytesIn (w.map (·, none)
      ++ v)) = lengthOf host k w := fun v => by
    rw [bytesIn_append, bytesIn_map, lengthOf_append _ hlen]
  have hj := length_payload hx.inside
  rw [comes_packets hh, heard_iff hk hsz, held_start hw, List.cons_append]
  by_cases hint : (lengthOf host k w : Int) ≤ intMax
  · rw [cInt_of_mem (by unfold intMax; omega) hint] at hn
    have hle := hasked.le (hpos (by omega)) (by omega)
    by_cases hroom : x.recv.size + bytes.length ≤ x.recv.alloc
    · obtain ⟨y, hy⟩ := absorbBytes_room.mpr hroom
      have hab := absorbed_of_eq_ok hy
      have he := hab.expectBytes
      have hpay : y.recv.payload = magicStart :: (w ++ bytes) := by
        rw [hab.payload, hw, List.cons_append]
      have hsz' : y.data.szSz = k := by rw [hab.data, hsz]
      have hwait' : y.data.state = 0 := by rw [hab.data, hwait]
      have hh' := hab.handleData.trans hh
      generalize hm : lengthOf host k w = m at *
      by_cases hall : (bytes.length : Int) = x.expectBytes
      · rw [handlerIn_full hy (by omega), hh',
          handleData_packets_getBody (by rw [hab.data, hs]),
          getBody_leads hwait' hh' hk hsz' hpay
            ((lengthOf_append bytes hlen).trans hm) hint
            (by rw [List.length_append]; omega)]
        exact concludes_body hx hab hk hw hm hlen (by omega)
      · rw [handlerIn_short hy (by omega)]
        refine Iff.trans ?_ ((leads_ok hwait').trans (comes_packets hh')).symm
        rw [heard_iff hk hsz', held_start hpay, List.cons_append]
        refine concludes_received fun m' hm' => ?_
        rw [List.append_assoc, lengthOf_append _ hlen, hm] at hm'
        subst hm'
        refine ⟨by omega, fun _ => ?_⟩
        rw [roomIn_held hk hlen, roomIn_held hk (by
          rw [List.length_append]
          omega)]
        exact ⟨hab.alloc, hab.behind _ (by omega)⟩
    · rw [handlerIn_overrun (by omega)]
      refine iff_of_false (fun h => ?_) leads_error
      obtain ⟨m, hm, _, hobject⟩ := concludes_start_iff.mp h
      rw [hread] at hm
      rw [roomIn_held hk hlen] at hobject
      have hge := hx.alloc_ge
      have hfour := hk.le
      obtain ⟨hfits, _⟩ := hobject (by omega)
      have halloc : x.recv.alloc = x.recv.data.length := rfl
      omega
  · refine iff_of_false (fun h => hint (hread _ ▸ concludes_length_le h)) ?_
    rintro ⟨z, hz, hleads⟩
    rw [handlerIn_got] at hz
    obtain ⟨y, hy, hz⟩ := bind_eq_ok.mp hz
    have hab := absorbed_of_eq_ok hy
    have he := hab.expectBytes
    -- a negative count only gets smaller
    have hneg : n < 0 := by
      rw [hn]
      unfold cInt intMax at *
      omega
    rw [if_neg (by omega)] at hz
    cases hz
    rcases hleads with hne | hcomes
    · rw [hab.data] at hne
      exact hne hwait
    · rw [comes_packets (hab.handleData.trans hh),
        heard_iff hk (by rw [hab.data, hsz]),
        held_start (hab.payload.trans (by rw [hw, List.cons_append])),
        List.cons_append, List.map_append, List.append_assoc] at hcomes
      exact hint (hread _ ▸ concludes_length_le hcomes)

/-! ## Any of them -/

/-- Wherever the receiver is, a read takes its bytes off what has to arrive. -/
theorem comes_read (hx : Staged host x) (hwait : x.data.state = 0)
    (hasked : ReadReturns x bytes) :
    Comes host x (bytes.map (·, g) ++ s) ↔
      Leads host (auraAsyncXferHandlerIn (handleData host g) (.got bytes) x)
        s := by
  cases hx.stage with
  | announce hh hs hone =>
      have hle := hasked.le (by omega) (by rw [hone]; decide)
      rcases bytes with _ | ⟨b, _ | ⟨c, more⟩⟩
      · exact comes_read_nil hx hwait (by omega)
      · exact comes_read_announce hx hwait hh hs hone
      · simp only [List.length_cons] at hle
        omega
  | features hh hs hpos hfive =>
      exact comes_read_features hx hwait hh hs hpos
        (hasked.le (by omega) (by unfold intMax; omega))
  | lost hh hk => exact comes_read_lost hwait hh hk
  | start hh hs hk hsz hsize hone =>
      have hle := hasked.le (by omega) (by rw [hone]; decide)
      rcases bytes with _ | ⟨b, _ | ⟨c, more⟩⟩
      · exact comes_read_nil hx hwait (by omega)
      · exact comes_read_start hx hwait hh hs hk hsz hsize hone
      · simp only [List.length_cons] at hle
        omega
  | length hh hs hk hsz hw hsum hpos =>
      have hfour := hk.le
      exact comes_read_length hx hwait hh hs hk hsz hw hsum hpos
        (hasked.le (by omega) (by unfold intMax; omega))
  | body hh hs hk hsz hw hn hlen hsum hpos =>
      exact comes_read_body hx hwait hh hs hk hsz hw hn hlen hsum hpos hasked

end Reads

end Aura.Proofs
