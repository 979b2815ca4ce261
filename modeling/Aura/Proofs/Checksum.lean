import Aura.Proofs.Framing

/-!
# A checksum nobody checks

The last byte of a body is the sum of the bytes behind the start byte, and one
byte changed on the way is enough to make it wrong (`Checks.exposes`). The
receive machine never computes it: it counts on the length byte alone, and a
damaged body is a packet like any other (`damage_unnoticed`).
-/

namespace Aura.Proofs

open Aura.Lib Aura.Ref

/-! ## The sum -/

/-- The last byte of the body is what `csum` makes of those in front of it. -/
def Checks (lb : UInt8) (body : List UInt8) : Prop :=
  ∃ rest c, body = rest ++ [c] ∧
    csum (lb :: rest) (rest.length + 1) = .ok c

theorem checks_append {lb c : UInt8} {rest : List UInt8} :
    Checks lb (rest ++ [c]) ↔ (lb :: rest).sum = c := by
  have hsum : csum (lb :: rest) (rest.length + 1) = .ok (lb :: rest).sum := by
    have hle : rest.length + 1 ≤ (lb :: rest).length := Nat.le_refl _
    rw [csum_eq _ _ hle, List.take_of_length_le (by simp)]
  constructor
  · rintro ⟨rest', c', happ, hc⟩
    obtain ⟨rfl, hlast⟩ := List.append_inj' happ rfl
    rw [hsum] at hc
    exact (Except.ok.inj hc).trans (List.singleton_inj.mp hlast).symm
  · intro h
    exact ⟨rest, c, rfl, h ▸ hsum⟩

theorem SealedFrame.checks (f : SealedFrame) : Checks f.lengthByte f.body := by
  rw [SealedFrame.body]
  exact checks_append.mpr rfl

/-- Two stretches of bytes that differ in one place. -/
def OneByteOff (l l' : List UInt8) : Prop :=
  ∃ front b c back, l = front ++ b :: back ∧ l' = front ++ c :: back ∧ b ≠ c

theorem sum_middle (front back : List UInt8) (b : UInt8) :
    (front ++ b :: back).sum = b + (front.sum + back.sum) := by
  rw [List.sum_append, List.sum_cons]
  exact add_left_comm ..

/-- One byte changed, and the sum is another. -/
theorem Checks.exposes {lb : UInt8} {l l' : List UInt8} (h : Checks lb l)
    (hoff : OneByteOff l l') : ¬ Checks lb l' := by
  obtain ⟨front, b, c, back, rfl, rfl, hne⟩ := hoff
  intro h'
  rcases List.eq_nil_or_concat back with rfl | ⟨mid, last, rfl⟩
  · -- the checksum itself was changed
    exact hne ((checks_append.mp h).symm.trans (checks_append.mp h'))
  · rw [List.concat_eq_append, ← List.cons_append, ← List.append_assoc] at h h'
    have hsum := (checks_append.mp h).trans (checks_append.mp h').symm
    rw [List.sum_cons, List.sum_cons, sum_middle, sum_middle] at hsum
    exact hne (add_right_cancel (add_left_cancel hsum))

/-! ## Reception -/

/-- Frames whose bodies were changed on the way, back to back. -/
def damagedLine (packets : List (SealedFrame × List UInt8)) : List UInt8 :=
  packets.flatMap fun p =>
    magicStart :: p.1.lengthByte :: p.2 ++ [magicStop]

section Damaged

variable (host : Endian) (x : SerialXfer) {s : SerialInstance}
  {stale : List UInt8}

/-- A body of the length announced, whatever is in it. -/
theorem feeds_damaged (f : SealedFrame) (hshort : f.args.length ≤ 251)
    {body : List UInt8} (hbody : body.length = f.body.length)
    (hsz : s.szSz = 1) (hroom : 256 ≤ stale.length)
    (hmax : (stale.length : Int) ≤ intMax) (hstate : 0 < s.state)
    (hhi : s.state + 1 ≤ intMax) :
    ∃ stale' log, stale'.length = stale.length ∧ bodiesOf log = [body] ∧
      (receiver host none).Feeds (PieceFits host) (idle x .packets s stale)
        (magicStart :: f.lengthByte :: body ++ [magicStop])
        (idle x .packets { s with state := s.state + 1 } stale') log := by
  have hlen := f.length_body
  have hpacket := feeds_counted host x hsz (.inl (by omega))
    ((f.lengthByte_toNat hshort).trans hbody.symm) (by omega)
    (show 2 + body.length ≤ stale.length by omega) hmax
    (by unfold intMax; omega) hhi
  generalize hstale₁ : magicStart :: f.lengthByte :: body
    ++ stale.drop (2 + body.length) = stale₁ at hpacket
  have hlen₁ : stale₁.length = stale.length := by
    rw [← hstale₁, List.length_append, List.length_drop]
    simp only [List.length_cons]
    omega
  obtain ⟨stale₂, log, hlen₂, hnoise, hfeeds⟩ :=
    @feeds_noise host x { s with state := s.state + 1 } .packets [magicStop]
      (by decide) stale₁ (by omega) (by omega)
  refine ⟨stale₂, _, by omega, ?_, hpacket.trans hfeeds⟩
  rw [bodiesOf_append, bodiesOf_noise hnoise]
  rfl

theorem feeds_damagedLine {packets : List (SealedFrame × List UInt8)}
    (hpackets : ∀ p ∈ packets, p.1.args.length ≤ 251 ∧
      p.2.length = p.1.body.length)
    (hsz : s.szSz = 1) (hroom : 256 ≤ stale.length)
    (hmax : (stale.length : Int) ≤ intMax) (hstate : 0 < s.state)
    (hhi : s.state + packets.length ≤ intMax) :
    ∃ stale' log, stale'.length = stale.length ∧
      bodiesOf log = packets.map Prod.snd ∧
      (receiver host none).Feeds (PieceFits host) (idle x .packets s stale)
        (damagedLine packets)
        (idle x .packets { s with state := s.state + packets.length } stale')
        log := by
  induction packets generalizing s stale with
  | nil =>
      refine ⟨stale, [], rfl, rfl, ?_⟩
      rw [List.length_nil, Int.natCast_zero, Int.add_zero]
      exact Collector.Feeds.nil _ _
  | cons p packets ih =>
      obtain ⟨hshort, hbody⟩ := hpackets p (.head _)
      rw [List.length_cons] at hhi
      obtain ⟨stale₁, log₁, hlen₁, hbodies₁, hfeeds₁⟩ :=
        feeds_damaged host x p.1 hshort hbody hsz hroom hmax hstate (by omega)
      obtain ⟨stale₂, log₂, hlen₂, hbodies₂, hfeeds₂⟩ :=
        @ih { s with state := s.state + 1 } stale₁
          (fun q hq => hpackets q (.tail _ hq)) hsz (by omega) (by omega)
          (show 0 < s.state + 1 by omega)
          (show s.state + 1 + packets.length ≤ intMax by omega)
      refine ⟨stale₂, log₁ ++ log₂, by omega, ?_, ?_⟩
      · rw [bodiesOf_append, hbodies₁, hbodies₂]
        rfl
      · have hsum : s.state + 1 + (packets.length : Int)
            = s.state + (p :: packets).length := by
          rw [List.length_cons]
          omega
        rw [← hsum]
        exact hfeeds₁.trans hfeeds₂

end Damaged

/-- Bodies changed on the way are recognised and counted as if nothing had
happened, and a change of one byte is one the checksum would have shown. -/
theorem damage_unnoticed {host : Endian} {x : SerialXfer}
    {packets : List (SealedFrame × List UInt8)} {rs : List SerialRead}
    (hx : AtRest x) (hsz : x.data.szSz = 1) (hstate : 0 < x.data.state)
    (hpackets : ∀ p ∈ packets, p.1.args.length ≤ 251 ∧
      p.2.length = p.1.body.length)
    (hmax : x.data.state + packets.length ≤ intMax)
    (hrs : Delivered host x rs) (hline : bytesOf rs = damagedLine packets) :
    (∃ y log, receive host x rs = .ok (y, log) ∧
      bodiesOf log = packets.map Prod.snd ∧ AtRest y ∧
      y.data = { x.data with
        rxstate := .waitStart, state := x.data.state + packets.length }) ∧
    ∀ p ∈ packets, OneByteOff p.1.body p.2 → ¬ Checks p.1.lengthByte p.2 := by
  refine ⟨?_, fun p _ hoff => p.1.checks.exposes hoff⟩
  obtain ⟨stale, log, hlen, hbodies, hfeeds⟩ := feeds_damagedLine host x
    hpackets hsz hx.room hx.alloc_le hstate hmax
  rw [← hx.eq_idle, ← hline] at hfeeds
  refine ⟨_, log, (receive_eq_feed hrs hfeeds.along).trans hfeeds.1, hbodies,
    atRest_idle x _ ?_ ?_, rfl⟩
  · rw [hlen]
    exact hx.room
  · rw [hlen]
    exact hx.alloc_le

/-- The argument 7 became an 8 on the way. -/
theorem damage_unnoticed_8 :
    (∃ y log, receive .little openedReceiver
        [(.got [magicStart], none), (.got [3], none), (.got [5, 8, 15], none),
          (.got [magicStop], none)] = .ok (y, log) ∧
      bodiesOf log = [[5, 8, 15]] ∧ y.data.state = 2) ∧
    ¬ Checks 3 [5, 8, 15] := by
  obtain ⟨⟨y, log, hrun, hbodies, _, hdata⟩, hexposed⟩ :=
    @damage_unnoticed .little openedReceiver [(frame57, [5, 8, 15])]
      [(.got [magicStart], none), (.got [3], none), (.got [5, 8, 15], none),
        (.got [magicStop], none)]
      ⟨rfl, rfl, rfl, rfl, by decide +kernel, by decide +kernel⟩ rfl
      (by decide) (by decide) (by decide) (by decide +kernel)
      (by decide +kernel)
  refine ⟨⟨y, log, hrun, hbodies, ?_⟩, hexposed _ (.head _)
    ⟨[5], 7, 8, [15], by decide, rfl, by decide⟩⟩
  rw [hdata]
  rfl

end Aura.Proofs
