import Aura.Proofs.CallFrame
import Aura.Proofs.Packets

/-!
# Sender and receiver agree

What `urpc_serial_call` seals, the receive machine takes apart again: one
packet a frame, with exactly the bytes between the length and the stop byte
(`frames_received`). The length the sender computed before it appended
checksum and stop byte counts id, payload and checksum; the receiver stops
there, so the stop byte is left over and passes for noise.
-/

namespace Aura.Proofs

open Aura.Lib Aura.Ref

/-! ## Frames -/

/-- A frame as `urpc_serial_call` builds it when sizes and ids take one byte:
a packed chunk with three bytes of header, sealed. -/
structure SealedFrame where
  id : Nat
  packed : AuraChunk
  sealed : AuraChunk
  id_lt : id < 256
  header : 3 ≤ packed.size
  inside : packed.size ≤ packed.alloc
  alloc_le : (packed.alloc : Int) ≤ intMax
  built : sealFrame id packed = .ok sealed

namespace SealedFrame

/-- The packed arguments. -/
def args (f : SealedFrame) : List UInt8 := f.packed.payload.drop 3

def lengthByte (f : SealedFrame) : UInt8 := toByte (f.packed.size - 1)

/-- Id, payload, checksum. -/
def body (f : SealedFrame) : List UInt8 :=
  toByte f.id :: f.args ++ [(frameBody f.id f.packed.size f.args).sum]

/-- What the frame puts on the line. -/
def bytes (f : SealedFrame) : List UInt8 := f.sealed.payload

variable (f : SealedFrame)

theorem room : f.packed.size + 2 ≤ f.packed.alloc := by
  by_contra hshort
  have hover := sealFrame_overruns f.id f.header f.inside (by omega) f.alloc_le
  cases f.built.symm.trans hover

theorem bytes_eq :
    f.bytes = magicStart :: f.lengthByte :: f.body ++ [magicStop] := by
  obtain ⟨d, hd, _, _, hpay⟩ := sealFrame_eq f.id f.header f.room f.alloc_le
  cases f.built.symm.trans hd
  rw [bytes, hpay, frameBytes]
  simp only [body, args, lengthByte, frameBody, List.cons_append,
    List.append_assoc, List.nil_append]

theorem length_args : f.args.length + 3 = f.packed.size := by
  have hheader := f.header
  rw [args, List.length_drop, payload_length f.inside]
  omega

theorem length_body : f.body.length = f.args.length + 2 := by
  simp only [body, List.cons_append, List.length_cons, List.length_append,
    List.length_nil]

/-- The length byte counts the body, as long as it is a byte. -/
theorem lengthByte_toNat (hshort : f.args.length ≤ 251) :
    f.lengthByte.toNat = f.body.length := by
  have hargs := f.length_args
  rw [lengthByte, toNat_toByte (by omega), f.length_body]
  omega

end SealedFrame

theorem callFrame_sealed {host : Endian} {mem : Grant} {grants : Nat → Grant}
    {fuel : Nat} {L : LuaState} {s : SerialInstance} {id : Nat}
    {o : UrpcObject} {len : Int} {fmt : UInt8} {c : AuraChunk}
    (ho : s.inst.objects[id]? = some o)
    (hcache : urpcArgcache len fmt o.args true = .ok o.acache)
    (hsz : s.szSz = 1) (hidSz : s.idSz = 1) (hid : id < 256)
    (h : callFrame host mem grants fuel L s id = .ok (some c)) :
    ∃ f : SealedFrame, f.id = id ∧ f.sealed = c := by
  cases mem with
  | none =>
      rw [callFrame_unallocated host L grants ho] at h
      cases h
  | some junk =>
      obtain ⟨c₀, hlay, hrun⟩ :=
        callFrame_eq host L grants ho hcache (.inl hsz) (.inl hidSz) junk
      have hhead : headerSize s = 3 := by
        rw [headerSize, hsz, hidSz]
        rfl
      have halloc : c₀.alloc = 256 := congrArg Layout.alloc hlay
      have hsize : c₀.size = headerSize s := congrArg Layout.size hlay
      rw [hrun] at h
      rcases packLoop_lands (L := L) host false fuel (callTokens o)
          stackStart grants c₀ (by omega) (by rw [halloc]; decide) with
        ⟨d, l, hd, hreach, _, hla, hls, hle, hmax⟩ | hnull | hfuel |
          ⟨e, _, herr, _⟩
      · have hgrown : c₀.size ≤ l.size := hreach.size_le
        rw [hd, ok_bind] at h
        cases hseal : sealFrame id d with
        | error e =>
            rw [hseal] at h
            cases h
        | ok c' =>
            rw [hseal] at h
            cases h
            exact ⟨⟨id, d, c, hid, by omega, hle, hmax, hseal⟩, rfl, rfl⟩
      · rw [hnull] at h
        cases h
      · rw [hfuel] at h
        cases h
      · rw [herr] at h
        cases h

/-! ## A line of frames -/

/-- Frames in order, each with the noise in front of it. -/
def lineOf (frames : List (List UInt8 × SealedFrame)) : List UInt8 :=
  frames.flatMap fun p => p.1 ++ p.2.bytes

/-- The bodies of the packets a receiver recognised. -/
def bodiesOf (log : List Call) : List (List UInt8) :=
  (log.filter (·.rxstate = .getBody)).map (·.contents.drop 2)

@[simp] theorem bodiesOf_append (log log' : List Call) :
    bodiesOf (log ++ log') = bodiesOf log ++ bodiesOf log' := by
  simp only [bodiesOf, List.filter_append, List.map_append]

theorem bodiesOf_noise {log : List Call}
    (h : ∀ c ∈ log, c.rxstate = .waitStart) : bodiesOf log = [] := by
  rw [bodiesOf, List.filter_eq_nil_iff.mpr, List.map_nil]
  intro c hc
  rw [h c hc]
  decide

section Line

variable (host : Endian) (x : SerialXfer) {s : SerialInstance}
  {stale : List UInt8}

/-- One frame, with noise in front. -/
theorem feeds_frame (f : SealedFrame) (hshort : f.args.length ≤ 251)
    {gap : List UInt8} (hgap : magicStart ∉ gap) (hsz : s.szSz = 1)
    (hroom : 256 ≤ stale.length) (hmax : (stale.length : Int) ≤ intMax)
    (hstate : s.state ≠ 0) (hlo : -intMax - 1 ≤ s.state)
    (hhi : s.state + 1 ≤ intMax) :
    ∃ stale' log, stale'.length = stale.length ∧ bodiesOf log = [f.body] ∧
      (receiver host none).Feeds (PieceFits host) (idle x .packets s stale)
        (gap ++ f.bytes)
        (idle x .packets { s with state := s.state + 1 } stale') log := by
  have hbody := f.length_body
  obtain ⟨stale₁, log₁, hlen₁, hnoise₁, hfeeds₁⟩ :=
    @feeds_noise host x s .packets gap hgap stale (by omega) hmax
  have hpacket := feeds_counted host x hsz (.inl hstate)
    (f.lengthByte_toNat hshort) (by omega)
    (show 2 + f.body.length ≤ stale₁.length by omega) (by omega) hlo hhi
  generalize hstale₂ : magicStart :: f.lengthByte :: f.body
    ++ stale₁.drop (2 + f.body.length) = stale₂ at hpacket
  have hlen₂ : stale₂.length = stale.length := by
    rw [← hstale₂, List.length_append, List.length_drop]
    simp only [List.length_cons]
    omega
  obtain ⟨stale₃, log₃, hlen₃, hnoise₃, hfeeds₃⟩ :=
    @feeds_noise host x { s with state := s.state + 1 } .packets [magicStop]
      (by decide) stale₂ (by omega) (by omega)
  have hall := hfeeds₁.trans (hpacket.trans hfeeds₃)
  rw [← f.bytes_eq] at hall
  refine ⟨stale₃, _, by omega, ?_, hall⟩
  rw [bodiesOf_append, bodiesOf_append, bodiesOf_noise hnoise₁,
    bodiesOf_noise hnoise₃]
  rfl

theorem feeds_line {frames : List (List UInt8 × SealedFrame)}
    (hframes : ∀ p ∈ frames, magicStart ∉ p.1 ∧ p.2.args.length ≤ 251)
    (hsz : s.szSz = 1) (hroom : 256 ≤ stale.length)
    (hmax : (stale.length : Int) ≤ intMax)
    (hstate : ∀ k < frames.length, s.state + k ≠ 0)
    (hlo : -intMax - 1 ≤ s.state) (hhi : s.state + frames.length ≤ intMax) :
    ∃ stale' log, stale'.length = stale.length ∧
      bodiesOf log = frames.map (·.2.body) ∧
      (receiver host none).Feeds (PieceFits host) (idle x .packets s stale)
        (lineOf frames)
        (idle x .packets { s with state := s.state + frames.length } stale')
        log := by
  induction frames generalizing s stale with
  | nil =>
      refine ⟨stale, [], rfl, rfl, ?_⟩
      rw [List.length_nil, Int.natCast_zero, Int.add_zero]
      exact Collector.Feeds.nil _ _
  | cons p frames ih =>
      obtain ⟨gap, f⟩ := p
      obtain ⟨hgap, hshort⟩ := hframes _ (List.mem_cons_self ..)
      rw [List.length_cons] at hstate hhi
      have hzero := hstate 0 (Nat.succ_pos _)
      obtain ⟨stale₁, log₁, hlen₁, hbodies₁, hfeeds₁⟩ :=
        feeds_frame host x f hshort hgap hsz hroom hmax (by omega) hlo
          (by omega)
      obtain ⟨stale₂, log₂, hlen₂, hbodies₂, hfeeds₂⟩ :=
        @ih { s with state := s.state + 1 } stale₁
          (fun q hq => hframes q (List.mem_cons_of_mem _ hq)) hsz
          (by omega) (by omega)
          (fun k hk => by
            have hnext := hstate (k + 1) (Nat.succ_lt_succ hk)
            show s.state + 1 + k ≠ 0
            omega)
          (show -intMax - 1 ≤ s.state + 1 by omega)
          (show s.state + 1 + frames.length ≤ intMax by omega)
      refine ⟨stale₂, log₁ ++ log₂, by omega, ?_, ?_⟩
      · rw [bodiesOf_append, hbodies₁, hbodies₂]
        rfl
      · have hsum : s.state + 1 + (frames.length : Int)
            = s.state + ((gap, f) :: frames).length := by
          rw [List.length_cons]
          omega
        rw [← hsum]
        exact hfeeds₁.trans hfeeds₂

end Line

/-! ## Reception -/

/-- A receiver waiting for a packet, with no less buffer than
`urpc_serial_open` gave it. -/
structure AtRest (x : SerialXfer) : Prop where
  handler : x.handleData = .packets
  rxstate : x.data.rxstate = .waitStart
  expect : x.expectBytes = 1
  empty : x.recv.size = 0
  room : 256 ≤ x.recv.alloc
  alloc_le : (x.recv.alloc : Int) ≤ intMax

theorem AtRest.eq_idle {x : SerialXfer} (h : AtRest x) :
    x = idle x .packets x.data x.recv.data := by
  have hidle := Proofs.eq_idle h.rxstate h.expect h.empty
  rwa [h.handler] at hidle

theorem atRest_idle (x : SerialXfer) (s : SerialInstance)
    {stale : List UInt8} (hroom : 256 ≤ stale.length)
    (hmax : (stale.length : Int) ≤ intMax) :
    AtRest (idle x .packets s stale) :=
  ⟨rfl, rfl, rfl, rfl, hroom, hmax⟩

/-- Frames back to back, with anything but a start byte between them: one
packet a frame, in order, holding what the sender put between length and stop
byte; and the receiver is at rest again. -/
theorem frames_received {host : Endian} {x : SerialXfer}
    {frames : List (List UInt8 × SealedFrame)} {tail : List UInt8}
    {rs : List SerialRead} (hx : AtRest x) (hsz : x.data.szSz = 1)
    (hframes : ∀ p ∈ frames, magicStart ∉ p.1 ∧ p.2.args.length ≤ 251)
    (htail : magicStart ∉ tail)
    (hstate : ∀ k < frames.length, x.data.state + k ≠ 0)
    (hlo : -intMax - 1 ≤ x.data.state)
    (hhi : x.data.state + frames.length ≤ intMax)
    (hrs : Delivered host x rs) (hline : bytesOf rs = lineOf frames ++ tail) :
    ∃ y log, receive host x rs = .ok (y, log) ∧
      bodiesOf log = frames.map (·.2.body) ∧ AtRest y ∧
      y.data.state = x.data.state + frames.length := by
  obtain ⟨stale₁, log₁, hlen₁, hbodies, hfeeds₁⟩ :=
    feeds_line host x hframes hsz hx.room hx.alloc_le hstate hlo hhi
  have hroom : 256 ≤ stale₁.length := by
    rw [hlen₁]
    exact hx.room
  have hmax : (stale₁.length : Int) ≤ intMax := by
    rw [hlen₁]
    exact hx.alloc_le
  obtain ⟨stale₂, log₂, hlen₂, hnoise, hfeeds₂⟩ :=
    @feeds_noise host x _ .packets tail htail stale₁ (by omega) hmax
  have hall := hfeeds₁.trans hfeeds₂
  rw [← hx.eq_idle, ← hline] at hall
  refine ⟨_, _, (receive_eq_feed hrs hall.along).trans hall.1, ?_,
    atRest_idle x _ (by omega) (by omega), rfl⟩
  rw [bodiesOf_append, hbodies, bodiesOf_noise hnoise, List.append_nil]

/-- Id 5 with the one argument byte 7. -/
def frame57 : SealedFrame :=
  { id := 5
    packed := ⟨[0, 0, 0, 7, 0, 0], 4⟩
    sealed := ⟨[magicStart, 3, 5, 7, 15, magicStop], 6⟩
    id_lt := by decide
    header := by decide
    inside := by decide
    alloc_le := by decide
    built := by decide }

/-- A receiver in normal mode, with the buffer it was opened with. -/
def openedReceiver : SerialXfer :=
  { idleReceiver with recv := ⟨List.replicate 256 0, 0⟩ }

/-- Two frames with noise between them, the second in other pieces than the
first. -/
theorem frames_received_57 :
    ∃ y log, receive .little openedReceiver
        [(.got [0], none), (.got [magicStart], none), (.got [3], none),
          (.got [5, 7], none), (.failed, none), (.got [15], none),
          (.got [magicStop], none), (.got [9], none), (.got [8], none),
          (.got [magicStart], none), (.got [3], none), (.got [5], none),
          (.got [7, 15], none), (.got [magicStop], none)] = .ok (y, log) ∧
      bodiesOf log = [[5, 7, 15], [5, 7, 15]] ∧ AtRest y ∧
      y.data.state = 3 :=
  @frames_received .little openedReceiver [([0], frame57), ([9, 8], frame57)]
    [] _ ⟨rfl, rfl, rfl, rfl, by decide +kernel, by decide +kernel⟩ rfl
    (by decide +kernel) (by decide) (by decide) (by decide) (by decide)
    (by decide +kernel) (by decide +kernel)

end Aura.Proofs
