import Aura.Proofs.ByteOrder
import Aura.Proofs.Packets
import Aura.Proofs.Transitions

/-!
# The length field of a packet

What comes behind the length field is counted off to the byte, whatever the
reads cut it into (`consumesBody_iff`). How many bytes that are is read in the
host's order, though: `number_to_int` takes no account of the order the feature
packet declared. A body of the length a device wrote is what the receiver takes
exactly when the orders agree or the length does not tell them apart
(`lengths_read_iff`).
-/

namespace Aura.Proofs

open Aura.Lib Aura.Ref

/-! ## Stretches of a delivery -/

/-- The state a delivery leads to. -/
def received (host : Endian) (x : SerialXfer) (rs : List SerialRead) :
    Res SerialXfer :=
  (receive host x rs).map Prod.fst

section Received

variable {host : Endian} {x : SerialXfer} {rs : List SerialRead}

theorem received_cons (r : ReadResult) (g : Grant) :
    received host x ((r, g) :: rs)
      = auraAsyncXferHandlerIn (handleData host g) r x >>= fun y =>
          received host y rs := by
  rw [received, receive]
  cases hy : auraAsyncXferHandlerIn (handleData host g) r x with
  | error e => rfl
  | ok y =>
      rw [ok_bind, ok_bind, received]
      cases receive host y rs <;> rfl

theorem received_failed (g : Grant) :
    received host x ((.failed, g) :: rs) = received host x rs :=
  received_cons .failed g

theorem absorbBytes_expectBytes {y : SerialXfer} {bytes : List UInt8}
    (h : absorbBytes x bytes = .ok y) :
    y.expectBytes = x.expectBytes - bytes.length := by
  obtain ⟨data, _, rfl⟩ := absorbBytes_eq_ok.mp h
  rfl

theorem received_got_short {bytes : List UInt8} (g : Grant)
    (hshort : (bytes.length : Int) ≠ x.expectBytes) :
    received host x ((.got bytes, g) :: rs)
      = absorbBytes x bytes >>= fun y => received host y rs := by
  rw [received_cons, handlerIn_got]
  cases hy : absorbBytes x bytes with
  | error e => rfl
  | ok y =>
      have hleft := absorbBytes_expectBytes hy
      have hopen : y.expectBytes ≠ 0 := by omega
      rw [ok_bind, ok_bind, if_neg hopen]
      rfl

theorem received_got_full {bytes : List UInt8} (g : Grant)
    (hfull : (bytes.length : Int) = x.expectBytes) :
    received host x ((.got bytes, g) :: rs)
      = absorbBytes x bytes >>= fun y =>
          handleData host g y.handleData y >>= fun z => received host z rs := by
  rw [received_cons, handlerIn_got]
  cases hy : absorbBytes x bytes with
  | error e => rfl
  | ok y =>
      have hleft := absorbBytes_expectBytes hy
      have hdone : y.expectBytes = 0 := by omega
      rw [ok_bind, ok_bind, if_pos hdone]

theorem delivered_got_short {bytes : List UInt8} {g : Grant} {y : SerialXfer}
    (h : Delivered host x ((.got bytes, g) :: rs))
    (hy : absorbBytes x bytes = .ok y)
    (hshort : (bytes.length : Int) ≠ x.expectBytes) :
    Delivered host y rs := by
  refine h.2.2 y ?_
  have hleft := absorbBytes_expectBytes hy
  have hopen : y.expectBytes ≠ 0 := by omega
  rw [handlerIn_got, hy, ok_bind, if_neg hopen]
  rfl

theorem delivered_got_full {bytes : List UInt8} {g : Grant} {y z : SerialXfer}
    (h : Delivered host x ((.got bytes, g) :: rs))
    (hy : absorbBytes x bytes = .ok y)
    (hfull : (bytes.length : Int) = x.expectBytes)
    (hz : handleData host g y.handleData y = .ok z) : Delivered host z rs := by
  refine h.2.2 z ?_
  have hleft := absorbBytes_expectBytes hy
  have hdone : y.expectBytes = 0 := by omega
  rw [handlerIn_got, hy, ok_bind, if_pos hdone]
  exact hz

theorem bytesOf_got (bytes : List UInt8) (g : Grant) :
    bytesOf ((.got bytes, g) :: rs) = bytes ++ bytesOf rs := rfl

theorem absorbBytes_nil (hroom : x.recv.size ≤ x.recv.alloc) :
    absorbBytes x [] = .ok x := by
  refine absorbBytes_eq_ok.mpr ⟨x.recv.data, storeBytes_eq_ok.mpr
    ⟨hroom, ?_⟩, ?_⟩
  · rw [List.append_nil]
    exact (List.take_append_drop x.recv.size x.recv.data).symm
  · rw [holding, List.length_nil]
    obtain ⟨queue, pos, e, ⟨buffer, size⟩, hook, s, handler⟩ := x
    simp

theorem received_short (hroom : x.recv.size ≤ x.recv.alloc)
    (hshort : ((bytesOf rs).length : Int) < x.expectBytes) :
    received host x rs = absorbBytes x (bytesOf rs) := by
  induction rs generalizing x with
  | nil => exact (absorbBytes_nil hroom).symm
  | cons r rs ih =>
      obtain ⟨r, g⟩ := r
      cases r with
      | failed =>
          rw [received_failed]
          exact ih hroom hshort
      | got bytes =>
          rw [bytesOf_got, List.length_append] at hshort
          rw [received_got_short g (by omega), bytesOf_got, absorbBytes_append]
          cases hy : absorbBytes x bytes with
          | error e => rfl
          | ok y =>
              obtain ⟨data, hdata, rfl⟩ := absorbBytes_eq_ok.mp hy
              rw [ok_bind, ok_bind]
              apply ih
              · show x.recv.size + bytes.length ≤ data.length
                rw [storeBytes_length hdata]
                exact (storeBytes_eq_ok.mp hdata).1
              · show ((bytesOf rs).length : Int) < x.expectBytes - bytes.length
                push_cast at hshort
                omega

/-- Reads that bring what is waited for lead to one call, and what they bring
beyond it comes after. A read can only go beyond it if it was not asked for. -/
theorem received_upto {z : SerialXfer} {bs more : List UInt8}
    (hbytes : bytesOf rs = bs ++ more)
    (hlen : (bs.length : Int) = x.expectBytes)
    (habsorb : absorbBytes x bs = .ok z)
    (hcut : Delivered host x rs ∨ more = [])
    (hread : bs ≠ [] ∨ ∃ r ∈ rs, r.1 ≠ .failed) :
    ∃ g rest, bytesOf rest = more ∧
      (received host x rs
        = handleData host g z.handleData z >>= fun y => received host y rest) ∧
      (Delivered host x rs → ∀ y, handleData host g z.handleData z = .ok y →
        Delivered host y rest) := by
  induction rs generalizing x bs with
  | nil =>
      rcases hread with hne | ⟨r, hr, _⟩
      · exact absurd (List.append_eq_nil_iff.mp hbytes.symm).1 hne
      · cases hr
  | cons r rs ih =>
      obtain ⟨r, g⟩ := r
      cases r with
      | failed =>
          rw [received_failed]
          refine ih hbytes hlen habsorb hcut ?_
          rcases hread with hne | ⟨r, hr, hgot⟩
          · exact .inl hne
          · rcases List.mem_cons.mp hr with rfl | hr
            · exact absurd rfl hgot
            · exact .inr ⟨r, hr, hgot⟩
      | got bytes =>
          rw [bytesOf_got] at hbytes
          by_cases hfull : bytes.length = bs.length
          · obtain ⟨rfl, hrest⟩ := List.append_inj hbytes hfull
            refine ⟨g, rs, hrest, ?_, ?_⟩
            · rw [received_got_full g hlen, habsorb, ok_bind]
            · intro hdel y hy
              exact delivered_got_full hdel habsorb hlen hy
          · -- the read ends inside the piece
            have hle : bytes.length ≤ bs.length := by
              rcases hcut with hdel | rfl
              · have hasked := hdel.2.1
                omega
              · have htotal := congrArg List.length hbytes
                rw [List.append_nil, List.length_append] at htotal
                omega
            obtain ⟨bs', rfl⟩ : bytes <+: bs :=
              List.prefix_of_prefix_length_le ⟨_, hbytes⟩ ⟨more, rfl⟩ hle
            rw [List.length_append] at hlen hfull
            rw [absorbBytes_append] at habsorb
            obtain ⟨y, hy, habsorb⟩ := bind_eq_ok.mp habsorb
            rw [List.append_assoc, List.append_cancel_left_eq] at hbytes
            have hleft := absorbBytes_expectBytes hy
            push_cast at hlen
            have hshort : (bytes.length : Int) ≠ x.expectBytes := by omega
            have hnext : Delivered host x ((.got bytes, g) :: rs) →
                Delivered host y rs :=
              fun hdel => delivered_got_short hdel hy hshort
            obtain ⟨g', rest, hmore, hsame, hdel⟩ := ih hbytes
              (show (bs'.length : Int) = y.expectBytes by omega) habsorb
              (hcut.imp_left hnext)
              (.inl (List.ne_nil_of_length_pos (by omega)))
            refine ⟨g', rest, hmore, ?_, fun h => hdel (hnext h)⟩
            rw [received_got_short g hshort, hy, ok_bind, hsame]

theorem received_nothing (hdel : Delivered host x rs)
    (hnone : bytesOf rs = []) : received host x rs = .ok x := by
  induction rs with
  | nil => rfl
  | cons r rs ih =>
      obtain ⟨r, g⟩ := r
      cases r with
      | failed =>
          rw [received_failed]
          exact ih hdel hnone
      | got bytes =>
          rw [bytesOf_got, List.append_eq_nil_iff] at hnone
          rw [hnone.1] at hdel
          exact absurd hdel.1 (Nat.lt_irrefl 0)

end Received

/-! ## The body -/

/-- From `y` on the receiver takes `L` bytes for the body of a packet: before
it has them it stays in `STATE_GET_BODY`, and with the last of them it is back
in `STATE_WAIT_START`, unless the body itself made `getBody` fail. -/
structure ConsumesBody (host : Endian) (y : SerialXfer) (L : Nat) : Prop where
  waits : ∀ rs, (bytesOf rs).length < L →
    ∃ z, received host y rs = .ok z ∧ z.data.rxstate = .getBody
  ends : ∀ rs, (∃ r ∈ rs, r.1 ≠ .failed) → (bytesOf rs).length = L →
    ∃ z, absorbBytes y (bytesOf rs) = .ok z ∧
      received host y rs = getBody host z ∧
      ∀ w, getBody host z = .ok w → w.data.rxstate = .waitStart

section Body

variable {host : Endian} {y : SerialXfer} {L : Nat}

/-- A body taken leaves the buffer empty, and of the instance the sizes. -/
theorem getBody_nextPacket {w : SerialXfer} (h : getBody host y = .ok w) :
    ∃ s : SerialInstance, s.szSz = y.data.szSz ∧
      w = nextPacket { y with data := s } := by
  rw [getBody] at h
  by_cases hzero : y.data.state ≠ 0
  · rw [if_pos hzero] at h
    obtain ⟨_, _, h⟩ := bind_eq_ok.mp h
    cases h
    refine ⟨_, ?_, rfl⟩
    rfl
  · rw [if_neg hzero] at h
    obtain ⟨n, _, h⟩ := bind_eq_ok.mp h
    by_cases hone : cInt n = 1
    · simp only [if_pos hone] at h
      obtain ⟨_, _, h⟩ := bind_eq_ok.mp h
      cases h
      refine ⟨_, ?_, rfl⟩
      rfl
    · by_cases hneg : 1 + y.data.szSz < 0
      · simp only [if_neg hone, if_pos hneg] at h
        cases h
      · simp only [if_neg hone, if_neg hneg] at h
        obtain ⟨_, _, h⟩ := bind_eq_ok.mp h
        cases h
        refine ⟨_, ?_, rfl⟩
        rfl

theorem getBody_waitStart {w : SerialXfer} (h : getBody host y = .ok w) :
    w.data.rxstate = .waitStart := by
  obtain ⟨s, _, rfl⟩ := getBody_nextPacket h
  rfl

/-- The bytes still expected in `STATE_GET_BODY` are the body. -/
theorem consumesBody_of_expectBytes (hs : y.data.rxstate = .getBody)
    (hh : y.handleData = .packets) (hroom : y.recv.size + L ≤ y.recv.alloc)
    (he : y.expectBytes = L) : ConsumesBody host y L := by
  have habsorbs : ∀ bs : List UInt8, bs.length ≤ L →
      ∃ z, absorbBytes y bs = .ok z := by
    intro bs hle
    refine ⟨_, absorbBytes_eq_ok.mpr ⟨_, storeBytes_eq_ok.mpr ⟨?_, rfl⟩, rfl⟩⟩
    exact Nat.le_trans (Nat.add_le_add_left hle _) hroom
  constructor
  · intro rs hlt
    obtain ⟨z, hz⟩ := habsorbs (bytesOf rs) (Nat.le_of_lt hlt)
    refine ⟨z, ?_, by rw [(absorbBytes_data hz).1, hs]⟩
    rw [received_short (by omega) (by omega), hz]
  · intro rs hread hlen
    obtain ⟨z, hz⟩ := habsorbs (bytesOf rs) (Nat.le_of_eq hlen)
    obtain ⟨hdata, hhandler⟩ := absorbBytes_data hz
    obtain ⟨g, rest, hrest, hsame, _⟩ := received_upto
      (List.append_nil (bytesOf rs)).symm (by omega) hz (.inr rfl)
      (.inr hread)
    refine ⟨z, hz, ?_, fun w hw => getBody_waitStart hw⟩
    rw [hsame, hhandler, hh, handleData_packets_getBody (hdata ▸ hs)]
    cases hw : getBody host z with
    | error e => rfl
    | ok w =>
        obtain ⟨s, _, rfl⟩ := getBody_nextPacket hw
        rw [ok_bind, received_short (Nat.zero_le _)
          (by rw [hrest]; exact Int.one_pos), hrest,
          absorbBytes_nil (Nat.zero_le _)]

theorem ConsumesBody.expectBytes_eq (h : ConsumesBody host y L)
    (hs : y.data.rxstate = .getBody) (hh : y.handleData = .packets) :
    y.expectBytes = L := by
  by_contra hne
  by_cases hearly : 0 ≤ y.expectBytes ∧ y.expectBytes < L
  · -- the call comes before the body is there
    obtain ⟨e, he⟩ := Int.eq_ofNat_of_zero_le hearly.1
    have hlen : (List.replicate e (0 : UInt8)).length = e :=
      List.length_replicate
    obtain ⟨z, hz, hstays⟩ := h.waits [(.got (List.replicate e 0), none)] (by
      rw [bytesOf_got, List.length_append, hlen]
      show e + 0 < L
      omega)
    rw [received_got_full none (by rw [hlen, he])] at hz
    obtain ⟨v, hv, hz⟩ := bind_eq_ok.mp hz
    obtain ⟨w, hw, hz⟩ := bind_eq_ok.mp hz
    obtain ⟨hdata, hhandler⟩ := absorbBytes_data hv
    rw [hhandler, hh, handleData_packets_getBody (hdata ▸ hs)] at hw
    cases hz
    rw [getBody_waitStart hw] at hstays
    cases hstays
  · -- the body is there and no call comes
    have hlen : (List.replicate L (0 : UInt8)).length = L :=
      List.length_replicate
    obtain ⟨z, hz, hsame, hdone⟩ := h.ends [(.got (List.replicate L 0), none)]
      ⟨_, List.mem_singleton_self _, nofun⟩ (by
        rw [bytesOf_got, List.length_append, hlen]
        rfl)
    rw [bytesOf_got] at hz
    rw [show bytesOf [] = [] from rfl, List.append_nil] at hz
    rw [received_got_short none (by rw [hlen]; omega), hz, ok_bind] at hsame
    have hback := hdone z hsame.symm
    rw [(absorbBytes_data hz).1, hs] at hback
    cases hback

end Body

/-! ## Between two packets -/

/-- In `STATE_WAIT_START`, once the feature packet is in: an empty buffer and
one byte to come. -/
def Rested (x : SerialXfer) : Prop :=
  x.handleData = .packets → x.data.rxstate = .waitStart →
    x.expectBytes = 1 ∧ x.recv.size = 0

/-- `read` returns no more than it was asked for. -/
def ReadsAsked (p : Port) : SerialEvent → Prop
  | .epollin (.got bytes) _ => (bytes.length : Int) ≤ p.xfer.expectBytes
  | _ => True

instance (p : Port) : ∀ e, Decidable (ReadsAsked p e)
  | .epollin (.got _) _ => inferInstanceAs (Decidable (_ ≤ _))
  | .epollin .failed _ | .epollout _ _ | .call _ _ | .discovery _ =>
      isTrue trivial

theorem Handled.rested {host : Endian} {g : Grant} {h : Handler}
    {x z : SerialXfer} (hz : Handled host g x h z) : Rested z := by
  intro hpackets hwait
  cases hz with
  | noise => exact ⟨rfl, rfl⟩
  | counts => exact ⟨rfl, rfl⟩
  | adds => exact ⟨rfl, rfl⟩
  | features => exact ⟨rfl, rfl⟩
  | ignored hs => exact absurd hwait hs
  | start hs hb he | length hs hn he | startInit hs hb he =>
      obtain ⟨data, hy⟩ := auraAsyncExpectBytes_eq_ok he
      rw [hy, expecting_data] at hwait
      cases hwait

theorem rested_step {host : Endian} {p q : Port} {e : SerialEvent}
    (hp : Rested p.xfer) (hasked : ReadsAsked p e)
    (h : serialStep host p e = .ok q) : Rested q.xfer := by
  rcases serialStep_cases h with ⟨env, rfl, h⟩ | hstep
  · obtain ⟨_, _, _, y, _, hq⟩ := urpcSerialDiscovery_eq_ok h
    intro hpackets
    rw [hq] at hpackets
    cases hpackets
  · generalize q.xfer = x at hstep
    cases hstep with
    | nothing => exact hp
    | sends => exact hp
    | fires hy hzero hz => exact (handleData_handled hz).rested
    | absorbs hy hmore =>
        obtain ⟨data, _, rfl⟩ := absorbBytes_eq_ok.mp hy
        intro hpackets hwait
        obtain ⟨he, hsize⟩ := hp hpackets hwait
        simp only [holding, ReadsAsked] at hmore hasked ⊢
        omega

/-- From the first discovery on the receiver is at rest between packets. -/
theorem rested_run {host : Endian} {env : CallEnv} {p₀ p q : Port}
    (hstart : urpcSerialDiscovery env p₀ = .ok p)
    (hrun : Runs (serialStep host) ReadsAsked p q) : Rested q.xfer := by
  refine hrun.invariant (I := fun s => Rested s.xfer)
    (fun s e t hs hasked hstep => rested_step hs hasked hstep) ?_
  obtain ⟨_, _, _, y, _, hp⟩ := urpcSerialDiscovery_eq_ok hstart
  intro hpackets
  rw [hp] at hpackets
  cases hpackets

/-! ## The header -/

/-- A feature packet from a device of order `dev` set the size of the length
field to `k`, one of those `number_to_int` knows. -/
structure Declares (host dev : Endian) (k : Nat) (s : SerialInstance) :
    Prop where
  announced : Announced host dev s
  size : s.szSz = k
  width : k = 1 ∨ k = 2 ∨ k = 4

theorem numberToInt_width {k : Nat} (host : Endian)
    (hk : k = 1 ∨ k = 2 ∨ k = 4) {bs : List UInt8} (hlen : bs.length = k)
    (rest : List UInt8) :
    numberToInt host (magicStart :: (bs ++ rest)) 1 k
      = .ok (host.decode bs) := by
  have hread := loadWord_append host hlen rest
  rcases hk with rfl | rfl | rfl <;> exact hread

/-- Start byte and length field, in any cut: the length is read and asked
for. -/
theorem received_header {host : Endian} {x : SerialXfer} {s : SerialInstance}
    {stale bs : List UInt8} {rs : List SerialRead} {k : Nat}
    (hsz : s.szSz = k) (hk : k = 1 ∨ k = 2 ∨ k = 4) (hlen : bs.length = k)
    (hdel : Delivered host (idle x .packets s stale) rs)
    (hbytes : bytesOf rs = magicStart :: bs)
    (hroom : 1 + k ≤ stale.length) (hmax : (stale.length : Int) ≤ intMax) :
    ∃ g, received host (idle x .packets s stale) rs
      = auraAsyncExpectBytes g
          (stage x .packets s .getBody 0 (magicStart :: bs)
            (stale.drop (1 + k))) (cInt (host.decode bs)) >>= fun r =>
          pure r.2 := by
  have hstart : absorbBytes (idle x .packets s stale) [magicStart]
      = .ok (stage x .packets s .waitStart 0 [magicStart] (stale.drop 1)) :=
    absorb_stage (show 1 ≤ stale.length by omega)
  obtain ⟨g, rs', hbs, hsame, hdel'⟩ := @received_upto host _ rs _ _ bs hbytes rfl
    hstart (.inl hdel) (.inl (List.cons_ne_nil _ _))
  have hcall : handleData host g .packets
      (stage x .packets s .waitStart 0 [magicStart] (stale.drop 1))
      = .ok (stage x .packets s .getLen k [magicStart] (stale.drop 1)) := by
    rw [handleData_packets_waitStart rfl]
    show awaitStart g _ .getLen s.szSz = _
    rw [hsz]
    exact awaitStart_start x g .getLen (by rw [List.length_drop]; omega)
      (by rw [List.length_drop]; omega)
  rw [hsame]
  have hnext := hdel' hdel _ hcall
  show ∃ g', handleData host g .packets _ >>= _ = _
  rw [hcall, ok_bind]
  have hlength : absorbBytes
      (stage x .packets s .getLen k [magicStart] (stale.drop 1)) bs
      = .ok (stage x .packets s .getLen 0 (magicStart :: bs)
          (stale.drop (1 + k))) := by
    rw [absorb_stage (by rw [List.length_drop]; omega), hlen, Int.sub_self,
      List.drop_drop]
    rfl
  obtain ⟨g', rs'', hnone, hsame', hdel''⟩ := @received_upto host _ rs' _ bs []
    (by rw [hbs, List.append_nil]) (by rw [hlen]; rfl) hlength (.inl hnext)
    (.inl (List.ne_nil_of_length_pos (by omega)))
  refine ⟨g', ?_⟩
  rw [hsame']
  have hread : handleData host g' .packets
      (stage x .packets s .getLen 0 (magicStart :: bs) (stale.drop (1 + k)))
      = auraAsyncExpectBytes g'
          (stage x .packets s .getBody 0 (magicStart :: bs)
            (stale.drop (1 + k))) (cInt (host.decode bs)) >>= fun r =>
          pure r.2 := by
    rw [handleData_packets_getLen rfl]
    show numberToInt host (magicStart :: (bs ++ _)) 1 s.szSz >>= _ = _
    rw [hsz, numberToInt_width host hk hlen, ok_bind]
    rfl
  show handleData host g' .packets _ >>= _ = _
  have hquiet := hdel'' hnext
  change ∀ y, handleData host g' .packets _ = .ok y → _ at hquiet
  rw [hread] at hquiet ⊢
  generalize (auraAsyncExpectBytes g' _ _ >>= fun r => pure r.2) = res at *
  cases res with
  | error e => rfl
  | ok y => exact received_nothing (hquiet y rfl) hnone

/-! ## The length -/

/-- A length survives the trip into an `int` as itself or not at all. -/
theorem cInt_eq_natCast_iff {n L : Nat} (hn : n < 4294967296)
    (hL : (L : Int) ≤ intMax) : cInt n = L ↔ n = L := by
  unfold cInt intMax at *
  omega

theorem cInt_cInt (z : Int) : cInt (cInt z) = cInt z :=
  cInt_of_mem (by unfold cInt intMax; omega) (cInt_le z)

/-- The receiver takes exactly the body a device announced if and only if
the device has the host's order or the bytes of the length read the same in
both. -/
theorem lengths_read_iff {host dev : Endian} {x : SerialXfer}
    {rs : List SerialRead} {k L : Nat} (hx : Declares host dev k x.data)
    (hh : x.handleData = .packets) (hs : x.data.rxstate = .waitStart)
    (hrest : Rested x) (hfits : L < 256 ^ k) (hL : (L : Int) ≤ intMax)
    (hroom : 1 + k + L ≤ x.recv.alloc)
    (hmax : (x.recv.alloc : Int) ≤ intMax) (hdel : Delivered host x rs)
    (hbytes : bytesOf rs = magicStart :: dev.encode k L) :
    (∃ y, received host x rs = .ok y ∧ ConsumesBody host y L) ↔
      host = dev ∨ OrderFree k L := by
  have hlen := dev.length_encode k L
  have hhead : 1 + k ≤ x.recv.data.length := Nat.le_of_add_right_le hroom
  have hboth : (magicStart :: dev.encode k L).length
      + (x.recv.data.drop (1 + k)).length = x.recv.alloc := by
    rw [List.length_cons, hlen, List.length_drop]
    rw [Nat.add_comm k 1]
    exact Nat.add_sub_cancel' hhead
  have hbody : L ≤ (x.recv.data.drop (1 + k)).length := by
    rw [List.length_drop]
    exact Nat.le_sub_of_add_le (by rw [Nat.add_comm]; exact hroom)
  have hk : 256 ^ k ≤ 4294967296 := by
    rcases hx.width with rfl | rfl | rfl <;> decide
  have hn : host.decode (dev.encode k L) < 256 ^ k := by
    have hlt := host.decode_lt (dev.encode k L)
    rwa [hlen] at hlt
  obtain ⟨he, hz⟩ := hrest hh hs
  rw [eq_idle hs he hz, hh] at hdel ⊢
  obtain ⟨g, hheader⟩ := received_header hx.size hx.width hlen hdel hbytes
    hhead hmax
  rw [hheader, ← Endian.decode_encode_iff hfits,
    ← cInt_eq_natCast_iff (Nat.lt_of_lt_of_le hn hk) hL]
  constructor
  · rintro ⟨y, hy, hconsumes⟩
    obtain ⟨⟨r, z⟩, hz, hy⟩ := bind_eq_ok.mp hy
    cases hy
    obtain ⟨data, rfl⟩ := auraAsyncExpectBytes_eq_ok hz
    have hexpect := hconsumes.expectBytes_eq rfl rfl
    have hcounted : cInt (cInt (host.decode (dev.encode k L))) = L := hexpect
    rwa [cInt_cInt] at hcounted
  · intro hread
    rw [hread, expect_stage hbody (by rw [hboth]; exact hmax) g]
    refine ⟨_, rfl, consumesBody_of_expectBytes rfl rfl ?_ rfl⟩
    rw [stage_alloc, hboth]
    show (magicStart :: dev.encode k L).length + L ≤ _
    rw [List.length_cons, hlen, Nat.add_comm k 1]
    exact hroom

/-- An instance on a little-endian host, after the feature packet of a device of
order `dev` with lengths of two bytes. -/
def twoByteLengths (dev : Endian) : Port :=
  afterwards (serialStep .little) waitingPort
    (reads [[magicStart], [2, 1, orderTag dev, 0, 0]])

theorem declares_twoByteLengths (dev : Endian) :
    Declares .little dev 2 (twoByteLengths dev).xfer.data where
  announced := ⟨none,
    { announcing dev with
      recv := ⟨[magicStart, 2, 1, orderTag dev, 0, 0], 6⟩ },
    _, rfl, rfl, rfl, by cases dev <;> decide +kernel,
    by cases dev <;> decide +kernel, by cases dev <;> decide +kernel⟩
  size := by cases dev <;> decide +kernel
  width := .inr (.inl rfl)

theorem rested_twoByteLengths (dev : Endian) :
    Rested (twoByteLengths dev).xfer :=
  @rested_run .little _ _ _ _ urpcSerialDiscovery_openedPort
    (Runs.afterwards (by cases dev <;> decide +kernel))

/-- A device of the host's order writes the length 5, and the receiver takes the
five bytes behind it, in two reads, for the body. -/
theorem lengths_read_five :
    ∃ y z, received .little (twoByteLengths .little).xfer
        [(.got [magicStart], none), (.got [5], none), (.got [0], none)]
        = .ok y ∧ absorbBytes y [1, 0, 0, 0, 0] = .ok z ∧
      received .little y [(.got [1, 0], none), (.got [0, 0, 0], none)]
        = getBody .little z := by
  obtain ⟨y, hy, hconsumes⟩ := (@lengths_read_iff .little .little _
    [(.got [magicStart], none), (.got [5], none), (.got [0], none)] 2 5
    (declares_twoByteLengths .little) (by decide +kernel) (by decide +kernel)
    (rested_twoByteLengths .little) (by decide) (by decide)
    (by decide +kernel) (by decide +kernel) (by decide +kernel)
    (by decide)).mpr (.inl rfl)
  obtain ⟨z, hz, hbody, _⟩ := hconsumes.ends
    [(.got [1, 0], none), (.got [0, 0, 0], none)]
    ⟨_, List.mem_cons_self .., nofun⟩ rfl
  exact ⟨y, z, hy, hz, hbody⟩

/-- The length 1 is read as 256. -/
theorem lengths_misread :
    ¬ ∀ (host dev : Endian) (x : SerialXfer) (rs : List SerialRead)
      (k L : Nat), Declares host dev k x.data → x.handleData = .packets →
      x.data.rxstate = .waitStart → Rested x → L < 256 ^ k →
      (L : Int) ≤ intMax → 1 + k + L ≤ x.recv.alloc →
      (x.recv.alloc : Int) ≤ intMax → Delivered host x rs →
      bytesOf rs = magicStart :: dev.encode k L →
      ∃ y, received host x rs = .ok y ∧ ConsumesBody host y L := by
  intro hall
  obtain ⟨y, hy, hconsumes⟩ := hall .little .big (twoByteLengths .big).xfer
    [(.got [magicStart], none), (.got [0, 1], none)] 2 1
    (declares_twoByteLengths .big) (by decide +kernel) (by decide +kernel)
    (rested_twoByteLengths .big) (by decide) (by decide) (by decide +kernel)
    (by decide +kernel) (by decide +kernel) (by decide)
  have hwaits : (received .little (twoByteLengths .big).xfer
      [(.got [magicStart], none), (.got [0, 1], none)]).map
        (fun y => (y.expectBytes, y.data.rxstate, y.handleData))
      = .ok (256, .getBody, .packets) := by
    decide +kernel
  rw [hy] at hwaits
  simp only [Except.map, Except.ok.injEq, Prod.mk.injEq] at hwaits
  obtain ⟨he, hs, hh⟩ := hwaits
  rw [hconsumes.expectBytes_eq hs hh] at he
  exact absurd he (by decide)

end Aura.Proofs
