import Aura.Proofs.Delivery

/-!
# What is on its way can arrive

In no state of the two ends is a frame stuck. A receiver that is in the middle
of a line of frames always waits for at least one byte (`hungry`): the lengths
it reads are those of the frames, and no frame is empty. So a queue can be
written out and the cable read empty, whatever happened before, and then
everything that was called has arrived (`calls_deliverable`).
-/

namespace Aura.Proofs

open Aura.Lib Aura.Ref

/-! ## The receiving end waits for something -/

section Hungry

variable {host : Endian} {x y : SerialXfer} {a b : Peer}

/-- One symbol fed to a collector that owes no more than that. -/
theorem feed_one {σ β ε τ : Type} (m : Collector σ β ε τ) {s u : σ} {c : β}
    {log : List τ} (h : m.feed s [c] = .ok (u, log)) (hneed : m.need s ≤ 1) :
    ∃ t, m.absorb s [c] = .ok t ∧ log = [m.call t] := by
  rw [Collector.feed] at h
  obtain ⟨⟨v, log₁⟩, hread, h⟩ := bind_eq_ok.mp h
  obtain ⟨t, ht, hread⟩ := bind_eq_ok.mp hread
  have hzero : m.need t = 0 := by
    rw [m.need_absorb ht, List.length_singleton]
    omega
  rw [if_pos hzero] at hread
  obtain ⟨w, _, hread⟩ := bind_eq_ok.mp hread
  cases hread
  cases h
  exact ⟨t, ht, rfl⟩

/-- With lengths of one byte a receiver waits for up to 255 bytes, and for none
only when the announced length is zero. -/
theorem Staged.waits (hx : Staged host x) (hh : x.handleData = .packets)
    (hsz : x.data.szSz = 1) :
    0 ≤ x.expectBytes ∧ x.expectBytes ≤ 255 ∧
      (x.expectBytes = 0 → x.data.rxstate = .getBody ∧
        ∃ lb, x.recv.payload = [magicStart, lb]) := by
  cases hx.stage with
  | announce hh' | features hh' => cases hh.symm.trans hh'
  | lost _ hk => exact absurd (.inl hsz) hk
  | start _ _ _ _ _ he => omega
  | length _ _ _ hk _ hsum hpos => omega
  | @body k w n _ hs _ hk hw hn hlen hsum hpos hnone =>
      obtain rfl : k = 1 := by omega
      have hsmall := @lengthOf_one_lt host w
      have hcount : n = lengthOf host 1 w := by
        rw [hn]
        exact cInt_of_mem (by unfold intMax; omega) (by unfold intMax; omega)
      refine ⟨hpos (by omega), by omega, fun he => ⟨hs, ?_⟩⟩
      obtain ⟨lb, rfl⟩ := List.length_eq_one_iff.mp (hnone he)
      exact ⟨lb, hw⟩

/-- What such a receiver takes the next byte for: a packet with that byte for a
body. -/
theorem feed_idle_body (hh : x.handleData = .packets)
    (hs : x.data.rxstate = .getBody) (he : x.expectBytes = 0) {lb c : UInt8}
    (hpay : x.recv.payload = [magicStart, lb]) {log : List Call}
    (h : (receiver host none).feed x [c] = .ok (y, log)) :
    bodiesOf log = [[c]] := by
  obtain ⟨t, ht, rfl⟩ := feed_one (receiver host none) h (by
    show x.expectBytes.toNat ≤ 1
    omega)
  have habs := absorbed_of_eq_ok ht
  have hcall : callOf t = ⟨.packets, .getBody, [magicStart, lb, c]⟩ := by
    rw [callOf, habs.payload, habs.data, habs.handleData, hh, hs, hpay]
    rfl
  show bodiesOf [callOf t] = [[c]]
  rw [hcall]
  rfl

end Hungry

section Steps

variable {host : Side → Endian} {w₀ w w' : Cable} {s r : Side}

theorem CableInv.hungry (hinv : CableInv host w₀ s r w)
    (hr : Connected (w₀ r)) (hstaged : Staged (host r) (w r).port.xfer)
    (hmax : (w₀ r).port.xfer.data.state + (w s).calls.length ≤ intMax)
    (hinbox : (w r).inbox ≠ []) : 0 < (w r).port.xfer.expectBytes := by
  by_contra hnone
  obtain ⟨hh, hsz, _, _⟩ := hinv.ready r
  obtain ⟨hge, _, hidle⟩ := hstaged.waits hh hsz
  have he : (w r).port.xfer.expectBytes = 0 := by omega
  obtain ⟨hs, lb, hpay⟩ := hidle he
  obtain ⟨frames, gone, arrived, hframes, hshort, htx, hheard⟩ := hinv.conveys
  have hlen : (w₀ r).port.xfer.data.state + frames.length ≤ intMax := by
    rw [← hframes, List.length_map] at hmax
    exact hmax
  obtain ⟨z, log, hline, hbodies, _⟩ := feeds_frames (host r)
    hr.rest hr.szSz hr.state hshort hlen
  obtain ⟨c, rest, hcons⟩ := List.exists_cons_of_ne_nil hinbox
  have hfeed := hline.1
  rw [← line_eq hframes htx, hcons, List.append_assoc] at hfeed
  obtain ⟨later, hfeed, hlog⟩ := Collector.feed_rest _ hfeed (hheard hmax)
  rw [List.cons_append, ← List.singleton_append] at hfeed
  obtain ⟨t, part, hpart⟩ := Collector.feed_part _ hfeed
  obtain ⟨last, _, hlater⟩ := Collector.feed_rest _ hfeed hpart
  have hone : bodiesOf part = [[c]] := @feed_idle_body (host r)
    (facing (w r).port.xfer (w₀ r).port.xfer) _ hh hs he lb c hpay _ hpart
  -- a packet of one byte among the frames
  have hmem : [c] ∈ frames.map SealedFrame.body := by
    rw [← hbodies, hlog, hlater, bodiesOf_append, bodiesOf_append, hone]
    simp
  obtain ⟨f, _, hf⟩ := List.mem_map.mp hmem
  have hbody := f.length_body
  rw [hf, List.length_singleton] at hbody
  omega

/-! ## Reading the cable empty -/

/-- What is kept on the way: the direction, and where the receiver is in its
packet. -/
structure OnTheWay (host : Side → Endian) (w₀ : Cable) (s r : Side)
    (w : Cable) : Prop where
  inv : CableInv host w₀ s r w
  staged : Staged (host r) (w r).port.xfer

theorem OnTheWay.step (hstart : ∀ side, Connected (w₀ side)) (hne : s ≠ r)
    (hmute : ∀ o ∈ (w₀ r).port.xfer.data.inst.objects, o.reply = none)
    {i : Side × SerialEvent} (h : OnTheWay host w₀ s r w)
    (hguard : Cabled host w i) (hstep : cableStep host w i = .ok w') :
    OnTheWay host w₀ s r w' := by
  obtain ⟨hinv, hstaged⟩ := h
  refine ⟨hinv.step hstart hne hmute hguard hstep, ?_⟩
  obtain ⟨port, hport, hhere, hthere⟩ := cableStep_eq_ok hstep
  by_cases hside : r = i.1
  · subst hside
    rw [hhere]
    refine staged_step hstaged ?_ hport
    obtain ⟨side, e⟩ := i
    cases e with
    | epollout | call | discovery => trivial
    | epollin res g =>
        cases res with
        | failed => trivial
        | got bytes =>
            obtain ⟨hh, hsz, _, _⟩ := hinv.ready side
            obtain ⟨hge, hle, _⟩ := hstaged.waits hh hsz
            show bytes.length ≤ sizeT (w side).port.xfer.expectBytes
            have hread := hguard.2.1
            unfold sizeT
            dsimp only at hge hle hread ⊢
            omega
  · rw [hthere r hside]
    exact hstaged

theorem OnTheWay.start (hstart : ∀ side, Connected (w₀ side)) :
    OnTheWay host w₀ s r w₀ := by
  have hr := (hstart r).rest
  refine ⟨CableInv.start hstart, le_of_eq_of_le rfl hr.room, hr.alloc_le, ?_,
    .start hr.handler hr.rxstate (.inl rfl) (hstart r).szSz hr.empty hr.expect⟩
  rw [hr.empty]
  exact Nat.zero_le _

/-- One byte off the cable. -/
theorem OnTheWay.read_one (hstart : ∀ side, Connected (w₀ side)) (hne : s ≠ r)
    (hmute : ∀ o ∈ (w₀ r).port.xfer.data.inst.objects, o.reply = none)
    (h : OnTheWay host w₀ s r w)
    (hmax : (w₀ r).port.xfer.data.state + (w s).calls.length ≤ intMax)
    {c : UInt8} {rest : List UInt8} (hinbox : (w r).inbox = c :: rest) :
    ∃ w', Runs (cableStep host) (Cabled host) w w' ∧
      OnTheWay host w₀ s r w' ∧ (w' s).calls = (w s).calls ∧
      (w' s).port = (w s).port ∧ (w' r).inbox = rest := by
  have hpos := h.inv.hungry (hstart r) h.staged hmax (by simp [hinbox])
  have hguard : Cabled host w (r, .epollin (.got [c]) none) := by
    refine ⟨Nat.one_pos, ?_, ?_⟩
    · rw [List.length_singleton]
      omega
    · rw [hinbox]
      exact ⟨rest, rfl⟩
  obtain ⟨w', hw'⟩ := h.inv.reads (hstart r) hmax hguard
  obtain ⟨port, hport, hhere, hthere⟩ := cableStep_eq_ok hw'
  refine ⟨w', (Runs.refl w).tail hguard hw',
    h.step hstart hne hmute hguard hw', ?_, ?_, ?_⟩
  · rw [hthere s hne]
  · rw [hthere s hne]
  · rw [hhere]
    show (w r).inbox.drop 1 = rest
    rw [hinbox]
    rfl

theorem OnTheWay.read_all (hstart : ∀ side, Connected (w₀ side)) (hne : s ≠ r)
    (hmute : ∀ o ∈ (w₀ r).port.xfer.data.inst.objects, o.reply = none)
    (h : OnTheWay host w₀ s r w)
    (hmax : (w₀ r).port.xfer.data.state + (w s).calls.length ≤ intMax)
    {inbox : List UInt8} (hinbox : (w r).inbox = inbox) :
    ∃ w', Runs (cableStep host) (Cabled host) w w' ∧
      OnTheWay host w₀ s r w' ∧ (w' s).calls = (w s).calls ∧
      (w' s).port = (w s).port ∧ (w' r).inbox = [] := by
  induction inbox generalizing w with
  | nil => exact ⟨w, .refl w, h, rfl, rfl, hinbox⟩
  | cons c rest ih =>
      obtain ⟨u, hrun, hu, hcalls, hport, hrest⟩ :=
        h.read_one hstart hne hmute hmax hinbox
      obtain ⟨w', hrun', hw', hcalls', hport', hnil⟩ :=
        ih hu (hcalls ▸ hmax) hrest
      exact ⟨w', Relation.ReflTransGen.trans hrun hrun', hw',
        hcalls'.trans hcalls, hport'.trans hport, hnil⟩

/-! ## Writing the queue out -/

/-- A write that takes all of the chunk at the head. -/
theorem writeLoop_head {η σ : Type} (ctl : Bool) {chunk : AuraChunk}
    (hwf : WfChunk chunk) (rest : List AuraChunk) (efd : EpollSet)
    {x : AuraAsyncXfer η σ} (hpos : x.pos ≤ chunk.size) :
    ∃ sent x' efd', writeLoop ctl [] (chunk :: rest) [.wrote chunk.size] efd x
        = .ok (sent, x', efd') ∧ x'.transferlist = rest := by
  have hn : min chunk.size (chunk.size - x.pos) = chunk.size - x.pos := by
    omega
  have hroom : ¬ (0 < chunk.size - x.pos ∧
      chunk.alloc < x.pos + (chunk.size - x.pos)) := by
    have hinside := hwf.1
    omega
  have hdone : chunk.size = x.pos + (chunk.size - x.pos) := by omega
  rw [writeLoop]
  simp only [List.headD_cons, hwf.offered hpos, hn, if_neg hroom,
    if_pos hdone, List.tail_cons, List.nil_append]
  cases rest with
  | nil => exact ⟨_, _, _, rfl, rfl⟩
  | cons c rest => exact ⟨_, _, _, rfl, rfl⟩

theorem orderly_head (pos : Nat) (chunk : AuraChunk) (rest : List AuraChunk) :
    orderly pos (chunk :: rest) [.wrote chunk.size] = true := by
  rw [orderly]
  simp only [List.headD_cons, if_pos (Nat.le_add_left chunk.size pos),
    List.tail_cons]
  cases rest <;> rfl

/-- One frame off the queue. -/
theorem OnTheWay.write_one (hstart : ∀ side, Connected (w₀ side)) (hne : s ≠ r)
    (hmute : ∀ o ∈ (w₀ r).port.xfer.data.inst.objects, o.reply = none)
    (h : OnTheWay host w₀ s r w) {chunk : AuraChunk} {rest : List AuraChunk}
    (hqueue : (w s).port.xfer.transferlist = chunk :: rest) :
    ∃ w', Runs (cableStep host) (Cabled host) w w' ∧
      OnTheWay host w₀ s r w' ∧ (w' s).calls = (w s).calls ∧
      (w' s).port.xfer.transferlist = rest := by
  obtain ⟨frames, gone, arrived, _, _, htx, _⟩ := h.inv.conveys
  have hwf := htx.wf
  have hhead := htx.head
  simp only [hqueue] at hwf hhead
  obtain ⟨sent, x, efd, hrun, hrest⟩ := writeLoop_head true
    (hwf chunk (.head _)) rest (w s).port.efd hhead
  rw [← hqueue] at hrun
  have hguard : Cabled host w (s, .epollout [.wrote chunk.size] true) := by
    show orderly _ (w s).port.xfer.transferlist _ = true
    rw [hqueue]
    exact orderly_head ..
  have hport : serialStep (host s) (w s).port
      (.epollout [.wrote chunk.size] true) = .ok ⟨x, efd⟩ :=
    bind_eq_ok.mpr ⟨_, hrun, rfl⟩
  have hstep : cableStep host w (s, .epollout [.wrote chunk.size] true)
      = .ok _ := bind_eq_ok.mpr ⟨_, hport, rfl⟩
  refine ⟨_, (Runs.refl w).tail hguard hstep,
    h.step hstart hne hmute hguard hstep, ?_, ?_⟩
  · rw [if_pos rfl]
    exact List.append_nil _
  · rw [if_pos rfl]
    exact hrest

theorem OnTheWay.write_all (hstart : ∀ side, Connected (w₀ side)) (hne : s ≠ r)
    (hmute : ∀ o ∈ (w₀ r).port.xfer.data.inst.objects, o.reply = none)
    (h : OnTheWay host w₀ s r w) {queue : List AuraChunk}
    (hqueue : (w s).port.xfer.transferlist = queue) :
    ∃ w', Runs (cableStep host) (Cabled host) w w' ∧
      OnTheWay host w₀ s r w' ∧ (w' s).calls = (w s).calls ∧
      (w' s).port.xfer.transferlist = [] := by
  induction queue generalizing w with
  | nil => exact ⟨w, .refl w, h, rfl, hqueue⟩
  | cons chunk rest ih =>
      obtain ⟨u, hrun, hu, hcalls, hrest⟩ :=
        h.write_one hstart hne hmute hqueue
      obtain ⟨w', hrun', hw', hcalls', hnil⟩ := ih hu hrest
      exact ⟨w', Relation.ReflTransGen.trans hrun hrun', hw',
        hcalls'.trans hcalls, hnil⟩

/-- Whatever happened before: the run can be continued, without another call,
to a state in which all that was called has arrived. -/
theorem calls_deliverable (hstart : ∀ side, Connected (w₀ side))
    (hrun : Runs (cableStep host) (Cabled host) w₀ w) (hne : s ≠ r)
    (hmute : ∀ o ∈ (w₀ r).port.xfer.data.inst.objects, o.reply = none)
    (hmax : (w₀ r).port.xfer.data.state + (w s).calls.length ≤ intMax) :
    ∃ (w' : Cable) (frames : List SealedFrame),
      Runs (cableStep host) (Cabled host) w w' ∧
      (w' s).calls = (w s).calls ∧
      frames.map (fun f => (f.id, f.sealed)) = (w s).calls ∧
      bodiesOf (w' r).log = frames.map SealedFrame.body ∧
      AtRest (w' r).port.xfer := by
  have hw : OnTheWay host w₀ s r w := hrun.invariant
    (I := OnTheWay host w₀ s r)
    (fun _ _ _ h hguard hstep => h.step hstart hne hmute hguard hstep)
    (OnTheWay.start hstart)
  obtain ⟨u, hrun₁, hu, hcalls₁, hqueue⟩ := hw.write_all hstart hne hmute rfl
  obtain ⟨w', hrun₂, hw', hcalls₂, hport, hinbox⟩ :=
    hu.read_all hstart hne hmute (hcalls₁ ▸ hmax) rfl
  have hcalls := hcalls₂.trans hcalls₁
  obtain ⟨frames, hframes, _, hall⟩ :=
    hw'.inv.delivered (hstart r) (hcalls ▸ hmax)
  obtain ⟨hbodies, hrest⟩ := hall (by rw [hport]; exact hqueue) hinbox
  exact ⟨w', frames, Relation.ReflTransGen.trans hrun₁ hrun₂, hcalls,
    hframes.trans hcalls, hbodies, hrest⟩

end Steps

/-- Both ends have called, and the right one is in the middle of a packet. -/
theorem calls_deliverable_crossing :
    ∃ (w' : Cable) (frames : List SealedFrame),
      Runs (cableStep fun _ => .little) (Cabled fun _ => .little)
        (afterwards (cableStep fun _ => .little) (fun _ => connectedPeer)
          (crossing.take 6)) w' ∧
      frames.map (fun f => (f.id, f.sealed)) = (w' .left).calls ∧
      bodiesOf (w' .right).log = frames.map SealedFrame.body := by
  obtain ⟨w', frames, hrun, hcalls, hframes, hbodies, _⟩ :=
    @calls_deliverable (fun _ => .little) _ _ .left .right
      (fun _ => connectedPeer_connected)
      (Runs.afterwards (l := crossing.take 6) (by decide +kernel)) (by decide)
      (by decide) (by decide +kernel)
  exact ⟨w', frames, hrun, hframes.trans hcalls.symm, hbodies⟩

end Aura.Proofs
