import Aura.Proofs.Fields
import Aura.Proofs.Receiver

/-!
# One packet through the receiver

A receiver at rest is fed noise, a packet, a feature packet. Each of these is
a few pieces, a piece being what one call of the handler asked for
(`feeds_piece`); what the buffer held before shows nowhere but behind what has
been received since, so a state is written with the two parts of its buffer
apart (`stage`).
-/

namespace Aura.Proofs

open Aura.Lib Aura.Ref

/-- A receiver with `got` in its buffer, stale bytes behind it, and `e` bytes
still to come. -/
def stage (x : SerialXfer) (h : Handler) (s : SerialInstance) (st : RxState)
    (e : Int) (got stale : List UInt8) : SerialXfer :=
  { x with
    expectBytes := e
    recv := ⟨got ++ stale, got.length⟩
    data := { s with rxstate := st }
    handleData := h }

/-- A receiver at rest. -/
abbrev idle (x : SerialXfer) (h : Handler) (s : SerialInstance)
    (stale : List UInt8) : SerialXfer :=
  stage x h s .waitStart 1 [] stale

section Stage

variable {host : Endian} {x : SerialXfer} {h : Handler} {s : SerialInstance}
  {st : RxState} {e : Int} {got stale bs : List UInt8}

/-- A receiver that has nothing yet and waits for one byte is at rest. -/
theorem eq_idle {x : SerialXfer} (hs : x.data.rxstate = .waitStart)
    (he : x.expectBytes = 1) (hz : x.recv.size = 0) :
    x = idle x x.handleData x.data x.recv.data := by
  obtain ⟨queue, pos, e, ⟨buffer, size⟩, hook, s, handler⟩ := x
  obtain ⟨swap, idSz, szSz, rxstate, state, objcount, inst⟩ := s
  cases hs
  cases he
  cases hz
  rfl

theorem stage_payload : (stage x h s st e got stale).recv.payload = got :=
  List.take_left' rfl

theorem stage_alloc :
    (stage x h s st e got stale).recv.alloc = got.length + stale.length :=
  List.length_append

theorem absorb_stage (hlen : bs.length ≤ stale.length) :
    absorbBytes (stage x h s st e got stale) bs
      = .ok (stage x h s st (e - bs.length) (got ++ bs)
          (stale.drop bs.length)) := by
  rw [absorbBytes_eq]
  have hstore : storeBytes (got ++ stale) got.length bs
      = .ok (got ++ bs ++ stale.drop bs.length) := by
    refine storeBytes_eq_ok.mpr ⟨?_, ?_⟩
    · rw [List.length_append]
      omega
    · rw [List.take_left' rfl, ← List.drop_drop, List.drop_left' rfl]
  show (storeBytes (got ++ stale) got.length bs).map _ = _
  rw [hstore]
  show Except.ok (holding _ _ _) = _
  rw [holding, stage, stage, List.length_append]

/-- A piece: the bytes the receiver waits for, and the call they lead to. -/
theorem feeds_piece {y : SerialXfer} {got' stale' : List UInt8}
    (hpos : 0 < bs.length) (hlen : bs.length ≤ stale.length)
    (hgot : got ++ bs = got') (hstale : stale.drop bs.length = stale')
    (hfit : PieceFits host (stage x h s st 0 got' stale'))
    (hcall : handleData host none h (stage x h s st 0 got' stale') = .ok y) :
    (receiver host none).Feeds (PieceFits host)
      (stage x h s st bs.length got stale) bs y [⟨h, st, got'⟩] := by
  have habsorb : absorbBytes (stage x h s st bs.length got stale) bs
      = .ok (stage x h s st 0 got' stale') := by
    rw [absorb_stage hlen, Int.sub_self, hgot, hstale]
  have hneed : bs.length
      = (receiver host none).need (stage x h s st bs.length got stale) := rfl
  have hfeeds := (receiver host none).feeds_fill hpos hneed habsorb hfit hcall
  have hlog : callOf (stage x h s st 0 got' stale') = ⟨h, st, got'⟩ := by
    rw [callOf, stage_payload]
    rfl
  rwa [show (receiver host none).call = callOf from rfl, hlog] at hfeeds

theorem loadByte_stage {b : UInt8} {rest : List UInt8} :
    loadByte (stage x h s st e (b :: rest) stale).recv.data 0 = .ok b := rfl

theorem expect_stage {n : Nat} (hroom : n ≤ stale.length)
    (hmax : ((got.length + stale.length : Nat) : Int) ≤ intMax) (g : Grant) :
    auraAsyncExpectBytes g (stage x h s st e got stale) n
      = .ok (0, stage x h s st n got stale) := by
  rw [auraAsyncExpectBytes_fits g (by rw [stage_alloc]; exact hmax)
    (by rw [stage_alloc]; omega) (by rw [stage_alloc]; omega)]
  rfl

theorem pieceFits_stage {n : Nat}
    (hn : demand host (stage x h s st e got stale) = some (n : Int))
    (hroom : n ≤ stale.length)
    (hmax : ((got.length + stale.length : Nat) : Int) ≤ intMax) :
    PieceFits host (stage x h s st e got stale) := by
  refine ⟨by rw [stage_alloc]; exact hmax, fun m hm => ?_⟩
  cases hn.symm.trans hm
  rw [stage_alloc]
  constructor
  · show (got.length : Int) + n ≤ _
    omega
  · omega

theorem pieceFits_quiet (hn : demand host (stage x h s st e got stale) = none)
    (hmax : ((got.length + stale.length : Nat) : Int) ≤ intMax) :
    PieceFits host (stage x h s st e got stale) := by
  refine ⟨by rw [stage_alloc]; exact hmax, fun m hm => ?_⟩
  cases hn.symm.trans hm

end Stage

/-! ## Noise -/

section Feeds

variable (host : Endian) (x : SerialXfer) {s : SerialInstance}

theorem awaitStart_noise (g : Grant) {h : Handler} {b : UInt8}
    (hb : b ≠ magicStart) (stale : List UInt8) (st : RxState) (n : Int) :
    awaitStart g (stage x h s .waitStart 0 [b] stale) st n
      = .ok (idle x h s (b :: stale)) := by
  rw [awaitStart, loadByte_stage, ok_bind, if_pos hb]
  rfl

theorem handleData_noise (g : Grant) (h : Handler) {b : UInt8}
    (hb : b ≠ magicStart) (stale : List UInt8) :
    handleData host g h (stage x h s .waitStart 0 [b] stale)
      = .ok (idle x h s (b :: stale)) := by
  cases h with
  | packets =>
      rw [handleData_packets_waitStart rfl]
      exact awaitStart_noise x g hb stale _ _
  | discoveryInit =>
      rw [handleData_init_waitStart rfl]
      exact awaitStart_noise x g hb stale _ _

theorem demand_noise {h : Handler} {b : UInt8} (hb : b ≠ magicStart)
    (stale : List UInt8) :
    demand host (stage x h s .waitStart 0 [b] stale) = none := by
  have hne : ¬ some b = some magicStart := fun hsome => hb (Option.some.inj hsome)
  cases h <;> exact if_neg hne

theorem length_drop_cons {k : Nat} {stale : List UInt8}
    (hroom : k ≤ stale.length) : k + (stale.drop k).length = stale.length := by
  rw [List.length_drop]
  omega

theorem feeds_noise_byte (h : Handler) {b : UInt8} (hb : b ≠ magicStart)
    {stale : List UInt8} (hroom : 0 < stale.length)
    (hmax : (stale.length : Int) ≤ intMax) :
    (receiver host none).Feeds (PieceFits host) (idle x h s stale) [b]
      (idle x h s (b :: stale.drop 1)) [⟨h, .waitStart, [b]⟩] := by
  apply @feeds_piece _ _ _ _ _ [] stale [b] _ [b] (stale.drop 1) Nat.one_pos
    hroom rfl rfl
  · apply pieceFits_quiet (demand_noise host x hb _)
    rw [List.length_singleton, length_drop_cons hroom]
    exact hmax
  · exact handleData_noise host x none h hb _

theorem feeds_noise (h : Handler) {gap : List UInt8} (hgap : magicStart ∉ gap)
    {stale : List UInt8} (hroom : 0 < stale.length)
    (hmax : (stale.length : Int) ≤ intMax) :
    ∃ stale' log, stale'.length = stale.length ∧
      (∀ c ∈ log, c.rxstate = .waitStart) ∧
      (receiver host none).Feeds (PieceFits host) (idle x h s stale) gap
        (idle x h s stale') log := by
  induction gap generalizing stale with
  | nil => exact ⟨stale, [], rfl, by simp, Collector.Feeds.nil _ _⟩
  | cons b gap ih =>
      have hb : b ≠ magicStart := fun hm => hgap (hm ▸ List.mem_cons_self ..)
      have hlen : (b :: stale.drop 1).length = stale.length := by
        rw [List.length_cons, List.length_drop]
        omega
      obtain ⟨stale', log, hlen', hlog, hfeeds⟩ :=
        ih (fun hm => hgap (List.mem_cons_of_mem b hm))
          (show 0 < (b :: stale.drop 1).length by omega)
          (show ((b :: stale.drop 1).length : Int) ≤ intMax by omega)
      refine ⟨stale', _, by omega, ?_,
        (feeds_noise_byte host x h hb hroom hmax).trans hfeeds⟩
      intro c hc
      rcases List.mem_append.mp hc with hc | hc
      · rw [List.mem_singleton.mp hc]
      · exact hlog c hc

/-! ## Packets -/

theorem awaitStart_start (g : Grant) {h : Handler} {stale : List UInt8}
    (st : RxState) {n : Nat} (hroom : n ≤ stale.length)
    (hmax : ((1 + stale.length : Nat) : Int) ≤ intMax) :
    awaitStart g (stage x h s .waitStart 0 [magicStart] stale) st n
      = .ok (stage x h s st n [magicStart] stale) := by
  have hexpect : auraAsyncExpectBytes g (stage x h s st 0 [magicStart] stale) n
      = .ok (0, stage x h s st n [magicStart] stale) :=
    expect_stage hroom (by rw [List.length_singleton]; exact hmax) g
  rw [awaitStart, loadByte_stage, ok_bind, if_neg (not_not.mpr rfl)]
  show auraAsyncExpectBytes g (stage x h s st 0 [magicStart] stale) n >>= _
    = _
  rw [hexpect]
  rfl

/-- The two calls in front of a packet's body. -/
def headCalls (lb : UInt8) : List Call :=
  [⟨.packets, .waitStart, [magicStart]⟩, ⟨.packets, .getLen, [magicStart, lb]⟩]

theorem numberToInt_head (host : Endian) (lb : UInt8) (rest : List UInt8) :
    numberToInt host (magicStart :: lb :: rest) 1 1 = .ok lb.toNat := by
  rw [numberToInt, if_pos rfl]
  have hread := loadWord_append host (k := 1) (List.length_singleton (a := lb)) rest
  rwa [Endian.decode_singleton] at hread

theorem cInt_byte (b : UInt8) : cInt b.toNat = b.toNat := by
  have hb := b.toNat_lt
  exact cInt_of_mem (by unfold intMax; omega) (by unfold intMax; omega)

/-- With one-byte lengths: start byte and length byte. -/
theorem feeds_head (hsz : s.szSz = 1) (lb : UInt8) {stale : List UInt8}
    (hroom : 2 + lb.toNat ≤ stale.length)
    (hmax : (stale.length : Int) ≤ intMax) :
    (receiver host none).Feeds (PieceFits host) (idle x .packets s stale)
      [magicStart, lb]
      (stage x .packets s .getBody lb.toNat [magicStart, lb] (stale.drop 2))
      (headCalls lb) := by
  have hone : 1 + (stale.drop 1).length = stale.length :=
    length_drop_cons (by omega)
  have htwo : 2 + (stale.drop 2).length = stale.length :=
    length_drop_cons (by omega)
  have hstart : (receiver host none).Feeds (PieceFits host)
      (idle x .packets s stale) [magicStart]
      (stage x .packets s .getLen 1 [magicStart] (stale.drop 1))
      [⟨.packets, .waitStart, [magicStart]⟩] := by
    apply @feeds_piece _ _ _ _ _ [] stale [magicStart] _ [magicStart]
      (stale.drop 1) Nat.one_pos (by rw [List.length_singleton]; omega) rfl rfl
    · refine @pieceFits_stage _ _ _ _ _ _ _ _ 1 ?_ (by omega)
        (by rw [List.length_singleton, hone]; exact hmax)
      show (if some magicStart = some magicStart then some s.szSz else none)
        = _
      rw [hsz]
      rfl
    · rw [handleData_packets_waitStart rfl]
      show awaitStart none _ .getLen s.szSz = _
      rw [hsz]
      exact @awaitStart_start x _ none .packets _ .getLen 1 (by omega)
        (by rw [hone]; exact hmax)
  have hlength : (receiver host none).Feeds (PieceFits host)
      (stage x .packets s .getLen 1 [magicStart] (stale.drop 1)) [lb]
      (stage x .packets s .getBody lb.toNat [magicStart, lb] (stale.drop 2))
      [⟨.packets, .getLen, [magicStart, lb]⟩] := by
    have hnum : numberToInt host
        (magicStart :: lb :: stale.drop 2) 1 s.szSz = .ok lb.toNat := by
      rw [hsz]
      exact numberToInt_head host lb _
    apply @feeds_piece _ _ _ _ _ [magicStart] (stale.drop 1) [lb] _
      [magicStart, lb] (stale.drop 2) Nat.one_pos
      (by rw [List.length_singleton]; omega) rfl List.drop_drop
    · refine @pieceFits_stage _ _ _ _ _ _ _ _ lb.toNat ?_ (by omega)
        (by
          simp only [List.length_cons, List.length_nil]
          omega)
      rw [demand_getLen rfl rfl hnum, cInt_byte]
    · rw [handleData_packets_getLen rfl]
      show numberToInt host (magicStart :: lb :: stale.drop 2) 1 s.szSz >>= _
        = _
      rw [hnum, ok_bind, cInt_byte]
      show auraAsyncExpectBytes none
        (stage x .packets s .getBody 0 [magicStart, lb] (stale.drop 2))
          lb.toNat >>= _ = _
      rw [expect_stage (by omega) (by
        simp only [List.length_cons, List.length_nil]
        omega)]
      rfl
  exact hstart.trans hlength

/-- A whole packet: what the handler makes of the body decides. -/
theorem feeds_packet (hsz : s.szSz = 1) {lb : UInt8} {body stale : List UInt8}
    {y : SerialXfer} (hlen : lb.toNat = body.length) (hpos : 0 < body.length)
    (hroom : 2 + body.length ≤ stale.length)
    (hmax : (stale.length : Int) ≤ intMax)
    (hbody : getBody host (stage x .packets s .getBody 0
      (magicStart :: lb :: body) (stale.drop (2 + body.length))) = .ok y) :
    (receiver host none).Feeds (PieceFits host) (idle x .packets s stale)
      (magicStart :: lb :: body) y
      (headCalls lb ++ [⟨.packets, .getBody, magicStart :: lb :: body⟩]) := by
  have hall : 2 + body.length + (stale.drop (2 + body.length)).length
      = stale.length := length_drop_cons hroom
  have hhead := feeds_head host x hsz lb (by omega) hmax
  have hrest : (receiver host none).Feeds (PieceFits host)
      (stage x .packets s .getBody body.length [magicStart, lb]
        (stale.drop 2)) body y
      [⟨.packets, .getBody, magicStart :: lb :: body⟩] := by
    apply feeds_piece hpos (by rw [List.length_drop]; omega) rfl
      List.drop_drop
    · apply pieceFits_quiet rfl
      simp only [List.length_append, List.length_cons, List.length_nil]
      omega
    · rw [handleData_packets_getBody rfl]
      exact hbody
  rw [hlen] at hhead
  exact hhead.trans hrest

theorem feeds_counted (hsz : s.szSz = 1) {lb : UInt8} {body stale : List UInt8}
    (hcount : s.state ≠ 0 ∨ body.length = 1) (hlen : lb.toNat = body.length)
    (hpos : 0 < body.length) (hroom : 2 + body.length ≤ stale.length)
    (hmax : (stale.length : Int) ≤ intMax) (hlo : -intMax - 1 ≤ s.state)
    (hhi : s.state + 1 ≤ intMax) :
    (receiver host none).Feeds (PieceFits host) (idle x .packets s stale)
      (magicStart :: lb :: body)
      (idle x .packets { s with state := s.state + 1 }
        (magicStart :: lb :: body ++ stale.drop (2 + body.length)))
      (headCalls lb ++ [⟨.packets, .getBody, magicStart :: lb :: body⟩]) := by
  apply feeds_packet host x hsz hlen hpos hroom hmax
  have hnext : intArith (s.state + 1) = .ok (s.state + 1) :=
    intArith_of_mem (by omega) hhi
  generalize stale.drop (2 + body.length) = rest
  have hbody : getBody host
      (stage x .packets s .getBody 0 (magicStart :: lb :: body) rest)
      = (intArith (s.state + 1)).map (counted
        (stage x .packets s .getBody 0 (magicStart :: lb :: body) rest)) := by
    by_cases hzero : s.state = 0
    · apply getBody_of_one (n := lb.toNat) hzero
      · show numberToInt host (magicStart :: lb :: (body ++ _)) 1 s.szSz = _
        rw [hsz]
        exact numberToInt_head host lb _
      · rw [cInt_byte, hlen, hcount.resolve_left (not_not.mpr hzero)]
        rfl
    · exact getBody_of_ne_zero hzero
  rw [hbody, hnext]
  rfl

end Feeds

end Aura.Proofs
