import Aura.Proofs.Duplex
import Aura.Proofs.Framing
import Aura.Proofs.TxStream

/-!
# Calls arrive

Two instances on one cable, each calling the other's objects. Calls are
queued, the descriptor takes bytes and brings bytes, at both ends and in any
order. What an end recognises are the frames of the other, in the order they
were queued, and it has recognised all of them once the queue of the other end
and the cable are empty (`calls_delivered`).

The two directions share one transfer object at either end, and do not meet
there (`Proofs.Duplex`).
-/

namespace Aura.Proofs

open Aura.Lib Aura.Ref Aura.Spec

/-! ## Sending -/

namespace SealedFrame

variable (f : SealedFrame)

theorem size_sealed : f.sealed.size = f.packed.size + 2 := by
  obtain ⟨d, hd, hsize, _⟩ := sealFrame_eq f.id f.header f.room f.alloc_le
  cases f.built.symm.trans hd
  exact hsize

theorem wf_sealed : WfChunk f.sealed := by
  obtain ⟨d, hd, hsize, halloc, _⟩ :=
    sealFrame_eq f.id f.header f.room f.alloc_le
  cases f.built.symm.trans hd
  constructor
  · rw [hsize, halloc]
    exact f.room
  · rw [halloc]
    exact f.alloc_le

/-- A frame of no more than 256 bytes is one its length byte can count. -/
theorem length_args_le (h : f.sealed.size ≤ 256) : f.args.length ≤ 251 := by
  have hsize := f.size_sealed
  have hargs := f.length_args
  omega

end SealedFrame

/-- The invariant of the queue looks at the queue alone. -/
theorem TxInv.of_queue {η σ : Type} {t : TxState η σ} (h : TxInv t)
    {x : AuraAsyncXfer η σ} (hqueue : x.transferlist = t.xfer.transferlist)
    (hpos : x.pos = t.xfer.pos) (efd : EpollSet) :
    TxInv { t with xfer := x, efd } := by
  obtain ⟨hwf, hhead, hparts, htotal⟩ := h
  rw [← hqueue] at hwf hhead hparts
  rw [← hpos] at hhead
  refine ⟨hwf, hhead, hparts, ?_⟩
  rw [← htotal]
  simp only [Pipe.total, TxState.pipe, hqueue, hpos]

/-! ## Two ends -/

inductive Side
  | left
  | right
  deriving DecidableEq

/-- One end: its instance, the frames it queued and the objects they are for,
the bytes on their way to it, and what its handler was called with. -/
structure Peer where
  port : Port
  calls : List (Nat × AuraChunk)
  inbox : List UInt8
  log : List Call

abbrev Cable := Side → Peer

def bytesRead : SerialEvent → Nat
  | .epollin (.got bytes) _ => bytes.length
  | _ => 0

/-- An event at one end. What it writes is on its way to the other. -/
def cableStep (host : Side → Endian) (w : Cable) (i : Side × SerialEvent) :
    Res Cable := do
  let here := w i.1
  let port ← serialStep (host i.1) here.port i.2
  pure fun side =>
    if side = i.1 then
      { port
        calls := here.calls ++ framesQueued here.port port i.2
        inbox := here.inbox.drop (bytesRead i.2)
        log := here.log ++ callsHeard here.port i.2 }
    else { w side with inbox := (w side).inbox ++ written here.port i.2 }

/-- The cable loses nothing and keeps the order, `read` brings what is there, a
write that falls short ends its walk, and a frame is no longer than its length
byte can say. -/
def Cabled (host : Side → Endian) (w : Cable) : Side × SerialEvent → Prop
  | (s, .epollin (.got bytes) _) =>
      0 < bytes.length ∧
        (bytes.length : Int) ≤ (w s).port.xfer.expectBytes ∧
        bytes <+: (w s).inbox
  | (_, .epollin .failed _) => True
  | (s, .epollout ws _) =>
      orderly (w s).port.xfer.pos (w s).port.xfer.transferlist ws = true
  | (s, .call env id) =>
      ∀ c, callFrame (host s) env.mem env.grants env.fuel env.L
        (w s).port.xfer.data id = .ok (some c) → c.size ≤ 256
  | (_, .discovery _) => False

/-- An end that was opened and has found its objects, with sizes and ids of one
byte, before anything is called. -/
structure Connected (p : Peer) : Prop where
  rest : AtRest p.port.xfer
  szSz : p.port.xfer.data.szSz = 1
  idSz : p.port.xfer.data.idSz = 1
  state : 0 < p.port.xfer.data.state
  cached : ∀ o ∈ p.port.xfer.data.inst.objects, ∃ len fmt,
    urpcArgcache len fmt o.args true = .ok o.acache
  ids : p.port.xfer.data.inst.objects.length ≤ 256
  queue : p.port.xfer.transferlist = []
  pos : p.port.xfer.pos = 0
  calls : p.calls = []
  inbox : p.inbox = []
  log : p.log = []

/-- One direction: what `a` called is partly in its queue, partly on the cable,
and what has arrived is what led `b` from `x` to where it is. -/
def Conveys (host : Endian) (x : SerialXfer) (a b : Peer) : Prop :=
  ∃ (frames : List SealedFrame) (gone : List AuraChunk) (arrived : List UInt8),
    frames.map (fun f => (f.id, f.sealed)) = a.calls ∧
    (∀ f ∈ frames, f.args.length ≤ 251) ∧
    TxInv ⟨a.port.xfer, a.port.efd, a.calls.map Prod.snd,
      arrived ++ b.inbox, gone⟩ ∧
    (x.data.state + a.calls.length ≤ intMax →
      (receiver host none).feed x arrived
        = .ok (facing b.port.xfer x, b.log))

section Sender

variable {host : Endian} {x : SerialXfer} {a b : Peer}

/-- An event of the sender that writes nothing and queues nothing. -/
theorem Conveys.sender_reads (h : Conveys host x a b) {a' b' : Peer}
    (hqueue : a'.port.xfer.transferlist = a.port.xfer.transferlist)
    (hpos : a'.port.xfer.pos = a.port.xfer.pos) (hcalls : a'.calls = a.calls)
    (hport : b'.port = b.port) (hinbox : b'.inbox = b.inbox)
    (hlog : b'.log = b.log) : Conveys host x a' b' := by
  obtain ⟨frames, gone, arrived, hframes, hshort, htx, hheard⟩ := h
  refine ⟨frames, gone, arrived, hframes.trans hcalls.symm, hshort, ?_, ?_⟩
  · rw [hcalls, hinbox]
    exact htx.of_queue hqueue hpos a'.port.efd
  · rw [hcalls, hport, hlog]
    exact hheard

theorem Conveys.sender_writes (h : Conveys host x a b)
    {ws : List WriteResult} {ctl : Bool} {sent : Sent} {y : SerialXfer}
    {efd : EpollSet}
    (horderly : orderly a.port.xfer.pos a.port.xfer.transferlist ws = true)
    (hrun : auraAsyncXferHandlerOut ctl ws a.port.efd a.port.xfer
      = .ok (sent, y, efd)) :
    Conveys host x { a with port := ⟨y, efd⟩ }
      { b with inbox := b.inbox ++ sent.bytes } := by
  obtain ⟨frames, gone, arrived, hframes, hshort, htx, hheard⟩ := h
  refine ⟨frames, gone ++ sent.chunks, arrived, hframes, hshort, ?_, hheard⟩
  obtain ⟨u, hu, hinv, _⟩ :=
    txStep_simulates (e := .epollout ws ctl) htx horderly
  simp only [txStep, hrun] at hu
  cases hu
  rw [← List.append_assoc]
  exact hinv

/-- A frame the enqueue took is among the calls, and one it refused is not. -/
theorem framesQueued_call (env : CallEnv) (o : UrpcObject) (p : Port)
    (c : AuraChunk) (id : Nat) :
    framesQueued p (called env o p c) (.call env id) =
      if (auraAsyncEnqueueChunk env.ctl env.node p.efd p.xfer c).1 = 0
        then [(id, c)] else [] := by
  rw [framesQueued, called_transferlist]
  generalize henq : auraAsyncEnqueueChunk env.ctl env.node p.efd p.xfer c = r
  obtain ⟨ret, y, efd⟩ := r
  rcases (auraAsyncEnqueueChunk_enqueued henq).queue with
    ⟨hret, hq⟩ | ⟨hret, hq⟩
  · rw [if_pos hret, hq, List.drop_left]
    rfl
  · rw [if_neg hret, hq, List.drop_length]
    rfl

theorem called_pos (env : CallEnv) (o : UrpcObject) (p : Port)
    (c : AuraChunk) : (called env o p c).xfer.pos = p.xfer.pos := by
  obtain ⟨_, _, _, _, hframe⟩ := called_frame env o p c
  rw [hframe]

theorem Conveys.sender_calls (h : Conveys host x a b) (env : CallEnv)
    (o : UrpcObject) (f : SealedFrame) (hsize : f.sealed.size ≤ 256) :
    Conveys host x
      { a with
        port := called env o a.port f.sealed
        calls := a.calls ++ framesQueued a.port
          (called env o a.port f.sealed) (.call env f.id) } b := by
  obtain ⟨frames, gone, arrived, hframes, hshort, htx, hheard⟩ := h
  obtain ⟨u, hu, hinv, _⟩ := txStep_simulates
    (e := .enqueue f.sealed env.ctl env.node) htx f.wf_sealed
  obtain ⟨_, _, hmoved⟩ := auraAsyncEnqueueChunk_frame env.ctl env.node
    a.port.efd a.port.xfer f.sealed
  rw [framesQueued_call]
  have hqueue := called_transferlist env o a.port f.sealed
  have hpos := called_pos env o a.port f.sealed
  simp only [txStep, pure_eq_ok] at hu
  by_cases hret : (auraAsyncEnqueueChunk env.ctl env.node a.port.efd
    a.port.xfer f.sealed).1 = 0
  · rw [if_pos hret] at hu ⊢
    cases hu
    refine ⟨frames ++ [f], gone, arrived, ?_, ?_, ?_, fun hmax => hheard ?_⟩
    · rw [List.map_append, hframes]
      rfl
    · intro g hg
      rcases List.mem_append.mp hg with hg | hg
      · exact hshort g hg
      · rw [List.mem_singleton.mp hg]
        exact f.length_args_le hsize
    · rw [List.map_append]
      exact hinv.of_queue hqueue (by rw [hpos, hmoved]) _
    · rw [List.length_append] at hmax
      push_cast at hmax
      omega
  · rw [if_neg hret] at hu ⊢
    cases hu
    rw [List.append_nil]
    exact ⟨frames, gone, arrived, hframes, hshort,
      hinv.of_queue hqueue (by rw [hpos, hmoved]) _, hheard⟩

end Sender

/-! ## The receiving end -/

section Receiver

variable {host : Endian} {x : SerialXfer} {a b : Peer}

/-- An event of the receiver that reads nothing. -/
theorem Conveys.receiver_sends (h : Conveys host x a b) {a' b' : Peer}
    (hport : a'.port = a.port) (hcalls : a'.calls = a.calls)
    (hfacing : facing b'.port.xfer x = facing b.port.xfer x)
    (hinbox : b'.inbox = b.inbox) (hlog : b'.log = b.log) :
    Conveys host x a' b' := by
  obtain ⟨frames, gone, arrived, hframes, hshort, htx, hheard⟩ := h
  refine ⟨frames, gone, arrived, hframes.trans hcalls.symm, hshort, ?_, ?_⟩
  · rw [hport, hcalls, hinbox]
    exact htx
  · rw [hcalls, hfacing, hlog]
    exact hheard

variable (host) in
/-- Frames back to back, fed to a receiver at rest. -/
theorem feeds_frames (hx : AtRest x) (hsz : x.data.szSz = 1)
    (hstate : 0 < x.data.state) {frames : List SealedFrame}
    (hshort : ∀ f ∈ frames, f.args.length ≤ 251)
    (hmax : x.data.state + frames.length ≤ intMax) :
    ∃ y log, (receiver host none).Feeds (PieceFits host) x
        (frames.flatMap SealedFrame.bytes) y log ∧
      bodiesOf log = frames.map SealedFrame.body ∧ AtRest y := by
  have hline : lineOf (frames.map fun f => ([], f))
      = frames.flatMap SealedFrame.bytes := by
    rw [lineOf, List.flatMap_map]
    rfl
  obtain ⟨stale, log, hlen, hbodies, hfeeds⟩ :=
    @feeds_line host x _ _ (frames.map fun f => ([], f))
      (by
        intro p hp
        obtain ⟨f, hf, rfl⟩ := List.mem_map.mp hp
        exact ⟨List.not_mem_nil, hshort f hf⟩)
      hsz hx.room hx.alloc_le (fun k _ => by omega)
      (by unfold intMax; omega) (by rw [List.length_map]; exact hmax)
  rw [← hx.eq_idle, hline] at hfeeds
  refine ⟨_, log, hfeeds, ?_, atRest_idle x _ ?_ ?_⟩
  · rw [hbodies, List.map_map]
    rfl
  · rw [hlen]
    exact hx.room
  · rw [hlen]
    exact hx.alloc_le

/-- The history of a direction, from what has arrived to what is still
queued. -/
theorem line_eq {frames : List SealedFrame} {gone : List AuraChunk}
    {arrived : List UInt8}
    (hframes : frames.map (fun f => (f.id, f.sealed)) = a.calls)
    (htx : TxInv ⟨a.port.xfer, a.port.efd, a.calls.map Prod.snd,
      arrived ++ b.inbox, gone⟩) :
    arrived ++ b.inbox ++ unsent a.port.xfer.pos a.port.xfer.transferlist
      = frames.flatMap SealedFrame.bytes := by
  have htotal := htx.total
  rw [← hframes, List.map_map, List.flatMap_map] at htotal
  exact htotal

/-- One read, as the collector sees it: what arrived before and what comes
after are out of its sight. -/
theorem readStep_on_line {arrived bytes rest : List UInt8} {y : SerialXfer}
    {log : List Call}
    (halong : (receiver host none).Along (PieceFits host) x
      (arrived ++ bytes ++ rest))
    (hfeed : (receiver host none).feed x arrived = .ok (y, log))
    (hsome : 0 < bytes.length) (hle : (bytes.length : Int) ≤ y.expectBytes)
    (g : Grant) :
    (readStep host y (.got bytes, g)).map
        (fun z => (z, callsDuring (.got bytes) y))
      = (receiver host none).feed y bytes := by
  have hfits : FramesFit host y bytes :=
    Collector.Along.rest _ (Collector.Along.of_append _ halong) hfeed
  have hreceive := @receive_eq_feed host y [(.got bytes, g)]
    ⟨hsome, hle, fun _ _ => trivial⟩ (by simpa [bytesOf] using hfits)
  rw [show bytesOf [(.got bytes, g)] = bytes by simp [bytesOf]] at hreceive
  rw [← hreceive]
  simp only [receive, readStep]
  cases auraAsyncXferHandlerIn (handleData host g) (.got bytes) y with
  | error e => rfl
  | ok z =>
      show Except.ok _ = Except.ok (z, callsDuring (.got bytes) y ++ [])
      rw [List.append_nil]

theorem Conveys.receiver_reads (hx : AtRest x) (hsz : x.data.szSz = 1)
    (hstate : 0 < x.data.state) (h : Conveys host x a b)
    {bytes : List UInt8} {g : Grant} {y : SerialXfer}
    (hsome : 0 < bytes.length)
    (hle : (bytes.length : Int) ≤ b.port.xfer.expectBytes)
    (hinbox : bytes <+: b.inbox)
    (hread : readStep host b.port.xfer (.got bytes, g) = .ok y) :
    Conveys host x a
      { b with
        port := { b.port with xfer := y }
        inbox := b.inbox.drop bytes.length
        log := b.log ++ callsDuring (.got bytes) b.port.xfer } := by
  obtain ⟨frames, gone, arrived, hframes, hshort, htx, hheard⟩ := h
  obtain ⟨rest, hrest⟩ := hinbox
  have hdrop : b.inbox.drop bytes.length = rest := by
    rw [← hrest, List.drop_left]
  refine ⟨frames, gone, arrived ++ bytes, hframes, hshort, ?_, fun hmax => ?_⟩
  · rw [hdrop, List.append_assoc, hrest]
    exact htx
  · have hlen : x.data.state + frames.length ≤ intMax := by
      rw [← hframes, List.length_map] at hmax
      exact hmax
    obtain ⟨z, log, hline, _⟩ :=
      feeds_frames host hx hsz hstate hshort hlen
    have halong := hline.along
    rw [← line_eq hframes htx, ← hrest, ← List.append_assoc,
      List.append_assoc] at halong
    have hfed := readStep_on_line halong (hheard hmax) hsome hle g
    rw [readStep_facing, hread, callsDuring_facing] at hfed
    rw [Collector.feed_append_of _ (hheard hmax), ← hfed]
    rfl

/-- Whatever is on the cable can be read. -/
theorem Conveys.readable (hx : AtRest x) (hsz : x.data.szSz = 1)
    (hstate : 0 < x.data.state) (h : Conveys host x a b)
    (hmax : x.data.state + a.calls.length ≤ intMax) {bytes : List UInt8}
    (hsome : 0 < bytes.length)
    (hle : (bytes.length : Int) ≤ b.port.xfer.expectBytes)
    (hinbox : bytes <+: b.inbox) (g : Grant) :
    ∃ y, readStep host b.port.xfer (.got bytes, g) = .ok y := by
  obtain ⟨frames, gone, arrived, hframes, hshort, htx, hheard⟩ := h
  obtain ⟨rest, hrest⟩ := hinbox
  have hlen : x.data.state + frames.length ≤ intMax := by
    rw [← hframes, List.length_map] at hmax
    exact hmax
  obtain ⟨z, log, hline, _⟩ :=
    feeds_frames host hx hsz hstate hshort hlen
  have hfeed := hline.1
  have halong := hline.along
  rw [← line_eq hframes htx, ← hrest, List.append_assoc] at halong hfeed
  obtain ⟨later, hfeed, _⟩ := Collector.feed_rest _ hfeed (hheard hmax)
  rw [List.append_assoc] at hfeed
  obtain ⟨_, _, hbytes⟩ := Collector.feed_part _ hfeed
  rw [← List.append_assoc, ← List.append_assoc, List.append_assoc] at halong
  rw [← readStep_on_line halong (hheard hmax) hsome hle g, readStep_facing]
    at hbytes
  cases hread : readStep host b.port.xfer (.got bytes, g) with
  | ok y => exact ⟨y, rfl⟩
  | error e =>
      rw [hread] at hbytes
      cases hbytes

end Receiver

/-! ## Runs -/

/-- The invariant of one direction. -/
structure CableInv (host : Side → Endian) (w₀ : Cable) (s r : Side)
    (w : Cable) : Prop where
  ready : ∀ side, Ready (w₀ side).port.xfer.data.inst.objects
    (w side).port.xfer
  conveys : Conveys (host r) (w₀ r).port.xfer (w s) (w r)

section Steps

variable {host : Side → Endian} {w₀ w w' : Cable} {s r : Side}

theorem Cabled.noDiscovery {i : Side × SerialEvent} (h : Cabled host w i) :
    NoDiscovery (w i.1).port i.2 := by
  obtain ⟨side, e⟩ := i
  cases e with
  | discovery env => exact h
  | epollin | epollout | call => trivial

theorem cableStep_eq_ok {i : Side × SerialEvent}
    (h : cableStep host w i = .ok w') :
    ∃ port, serialStep (host i.1) (w i.1).port i.2 = .ok port ∧
      w' i.1 =
        { port
          calls := (w i.1).calls ++ framesQueued (w i.1).port port i.2
          inbox := (w i.1).inbox.drop (bytesRead i.2)
          log := (w i.1).log ++ callsHeard (w i.1).port i.2 } ∧
      ∀ side, side ≠ i.1 → w' side = { w side with
        inbox := (w side).inbox ++ written (w i.1).port i.2 } := by
  obtain ⟨port, hport, h⟩ := bind_eq_ok.mp h
  cases h
  exact ⟨port, hport, if_pos rfl, fun side hside => if_neg hside⟩

theorem cableStep_ready {objects : Side → List UrpcObject}
    (hready : ∀ side, Ready (objects side) (w side).port.xfer)
    {i : Side × SerialEvent} (hguard : Cabled host w i)
    (h : cableStep host w i = .ok w') (side : Side) :
    Ready (objects side) (w' side).port.xfer := by
  obtain ⟨port, hport, hhere, hthere⟩ := cableStep_eq_ok h
  by_cases hside : side = i.1
  · subst hside
    rw [hhere]
    exact ready_step (hready _) hguard.noDiscovery hport
  · rw [hthere side hside]
    exact hready side

/-- An event at the sending end. -/
theorem conveys_sender {x : SerialXfer} {e : SerialEvent}
    {objects : List UrpcObject} {h : Endian}
    (hcached : ∀ o ∈ objects, ∃ len fmt,
      urpcArgcache len fmt o.args true = .ok o.acache)
    (hids : objects.length ≤ 256)
    (hready : Ready objects (w s).port.xfer) (hne : r ≠ s)
    (hguard : Cabled host w (s, e)) (hstep : cableStep host w (s, e) = .ok w')
    (hconveys : Conveys h x (w s) (w r)) : Conveys h x (w' s) (w' r) := by
  obtain ⟨port, hport, hhere, hthere⟩ := cableStep_eq_ok hstep
  rw [hhere, hthere r hne]
  dsimp only at hport ⊢
  cases e with
  | discovery env => exact hguard.elim
  | epollin res g =>
      have hfacing := (serialStep_stepped (e := .epollin res g)
        (by simp) hport).facing
      exact hconveys.sender_reads
        (congrArg AuraAsyncXfer.transferlist hfacing).symm
        (congrArg AuraAsyncXfer.pos hfacing).symm (List.append_nil _) rfl
        (List.append_nil _) rfl
  | epollout ws ctl =>
      obtain ⟨⟨sent, y, efd⟩, hrun, hport⟩ := bind_eq_ok.mp hport
      cases hport
      have hwritten : written (w s).port (.epollout ws ctl) = sent.bytes := by
        simp only [written, hrun]
      rw [hwritten]
      exact (hconveys.sender_writes hguard hrun).sender_reads rfl rfl
        (List.append_nil _) rfl rfl rfl
  | call env id =>
      rcases urpcSerialCall_object hport with rfl | ⟨o, c, ho, hframe, rfl⟩
      · exact hconveys.sender_reads rfl rfl
          (by rw [framesQueued, List.drop_length]; exact List.append_nil _)
          rfl (List.append_nil _) rfl
      · rw [hready.objects] at ho
        obtain ⟨len, fmt, hcache⟩ := hcached o (List.mem_of_getElem? ho)
        have hid : id < 256 := Nat.lt_of_lt_of_le
          (List.getElem?_eq_some_iff.mp ho).1 hids
        obtain ⟨f, rfl, rfl⟩ := callFrame_sealed (hready.objects ▸ ho) hcache
          hready.szSz hready.idSz hid hframe
        exact (hconveys.sender_calls env o f (hguard _ hframe)).sender_reads
          rfl rfl rfl rfl (List.append_nil _) rfl

/-- An event at the receiving end. -/
theorem conveys_receiver {x : SerialXfer} {e : SerialEvent}
    {objects : List UrpcObject} (hx : AtRest x) (hsz : x.data.szSz = 1)
    (hstate : 0 < x.data.state) (hmute : ∀ o ∈ objects, o.reply = none)
    (hready : Ready objects (w r).port.xfer) (hne : s ≠ r)
    (hguard : Cabled host w (r, e)) (hstep : cableStep host w (r, e) = .ok w')
    (hconveys : Conveys (host r) x (w s) (w r)) :
    Conveys (host r) x (w' s) (w' r) := by
  obtain ⟨port, hport, hhere, hthere⟩ := cableStep_eq_ok hstep
  rw [hhere, hthere s hne]
  dsimp only at hport ⊢
  cases e with
  | discovery env => exact hguard.elim
  | epollin res g =>
      cases res with
      | failed =>
          cases hport
          exact hconveys.receiver_sends rfl rfl rfl rfl (List.append_nil _)
      | got bytes =>
          obtain ⟨y, hread, hport⟩ := bind_eq_ok.mp hport
          cases hport
          obtain ⟨hsome, hle, hinbox⟩ := hguard
          exact (hconveys.receiver_reads hx hsz hstate hsome hle hinbox
            hread).receiver_sends rfl rfl rfl rfl rfl
  | epollout ws ctl =>
      obtain ⟨⟨sent, y, efd⟩, hrun, hport⟩ := bind_eq_ok.mp hport
      cases hport
      obtain ⟨_, _, _, rfl⟩ := writeLoop_frame _ _ _ _ _ _ hrun
      exact hconveys.receiver_sends rfl rfl rfl rfl (List.append_nil _)
  | call env id =>
      rcases urpcSerialCall_object hport with rfl | ⟨o, c, ho, _, rfl⟩
      · exact hconveys.receiver_sends rfl rfl rfl rfl (List.append_nil _)
      · rw [hready.objects] at ho
        exact hconveys.receiver_sends rfl rfl
          (called_mute (hmute o (List.mem_of_getElem? ho)) x _ _) rfl
          (List.append_nil _)

theorem CableInv.step (hstart : ∀ side, Connected (w₀ side)) (hne : s ≠ r)
    (hmute : ∀ o ∈ (w₀ r).port.xfer.data.inst.objects, o.reply = none)
    {i : Side × SerialEvent} (hinv : CableInv host w₀ s r w)
    (hguard : Cabled host w i) (hstep : cableStep host w i = .ok w') :
    CableInv host w₀ s r w' := by
  obtain ⟨hready, hconveys⟩ := hinv
  refine ⟨cableStep_ready hready hguard hstep, ?_⟩
  have hr := hstart r
  have hs := hstart s
  obtain ⟨side, e⟩ := i
  by_cases hside : side = s
  · subst hside
    exact conveys_sender hs.cached hs.ids (hready _) hne.symm hguard hstep
      hconveys
  · obtain rfl : side = r := by
      cases side <;> cases s <;> cases r <;> first | rfl | contradiction
    exact conveys_receiver hr.rest hr.szSz hr.state hmute (hready _) hne
      hguard hstep hconveys

theorem CableInv.start (hstart : ∀ side, Connected (w₀ side)) :
    CableInv host w₀ s r w₀ := by
  refine ⟨fun side => ?_, [], [], [], ?_, ?_, ?_, fun _ => ?_⟩
  · have hside := hstart side
    exact ⟨hside.rest.handler, hside.szSz, hside.idSz, rfl⟩
  · rw [(hstart s).calls]
    rfl
  · exact fun f hf => absurd hf List.not_mem_nil
  · refine TxState.Fresh.inv ⟨(hstart s).queue, (hstart s).pos, ?_, ?_, rfl⟩
    · rw [(hstart s).calls]
      rfl
    · exact (hstart r).inbox
  · rw [(hstart r).log]
    rfl

theorem CableInv.reached (hstart : ∀ side, Connected (w₀ side))
    (hrun : Runs (cableStep host) (Cabled host) w₀ w) (hne : s ≠ r)
    (hmute : ∀ o ∈ (w₀ r).port.xfer.data.inst.objects, o.reply = none) :
    CableInv host w₀ s r w :=
  hrun.invariant (I := CableInv host w₀ s r)
    (fun _ _ _ hinv hguard hstep => hinv.step hstart hne hmute hguard hstep)
    (CableInv.start hstart)

/-- What the receiving end of a direction has recognised. -/
theorem CableInv.delivered (hinv : CableInv host w₀ s r w)
    (hr : Connected (w₀ r))
    (hmax : (w₀ r).port.xfer.data.state + (w s).calls.length ≤ intMax) :
    ∃ frames : List SealedFrame,
      frames.map (fun f => (f.id, f.sealed)) = (w s).calls ∧
      bodiesOf (w r).log <+: frames.map SealedFrame.body ∧
      ((w s).port.xfer.transferlist = [] → (w r).inbox = [] →
        bodiesOf (w r).log = frames.map SealedFrame.body ∧
          AtRest (w r).port.xfer) := by
  obtain ⟨frames, gone, arrived, hframes, hshort, htx, hheard⟩ := hinv.conveys
  have hlen : (w₀ r).port.xfer.data.state + frames.length ≤ intMax := by
    rw [← hframes, List.length_map] at hmax
    exact hmax
  obtain ⟨z, log, hline, hbodies, hz⟩ := feeds_frames (host r)
    hr.rest hr.szSz hr.state hshort hlen
  have hfeed := hline.1
  rw [← line_eq hframes htx] at hfeed
  refine ⟨frames, hframes, ?_, fun hqueue hinbox => ?_⟩
  · rw [List.append_assoc] at hfeed
    obtain ⟨rest, _, hlog⟩ := Collector.feed_rest _ hfeed (hheard hmax)
    rw [← hbodies, hlog, bodiesOf_append]
    exact List.prefix_append _ _
  · rw [hqueue, hinbox, unsent, List.flatMap_nil, List.drop_nil,
      List.append_nil, List.append_nil, hheard hmax] at hfeed
    cases hfeed
    exact ⟨hbodies, hz.handler, hz.rxstate, hz.expect, hz.empty, hz.room,
      hz.alloc_le⟩

/-- A read the cable admits goes through. -/
theorem CableInv.reads (hinv : CableInv host w₀ s r w)
    (hr : Connected (w₀ r))
    (hmax : (w₀ r).port.xfer.data.state + (w s).calls.length ≤ intMax)
    {bytes : List UInt8} {g : Grant}
    (hguard : Cabled host w (r, .epollin (.got bytes) g)) :
    ∃ w', cableStep host w (r, .epollin (.got bytes) g) = .ok w' := by
  obtain ⟨hsome, hle, hinbox⟩ := hguard
  obtain ⟨y, hy⟩ := hinv.conveys.readable hr.rest hr.szSz hr.state hmax hsome
    hle hinbox g
  exact ⟨_, bind_eq_ok.mpr ⟨_, bind_eq_ok.mpr ⟨y, hy, rfl⟩, rfl⟩⟩

/-- Frames arrive once, in order and unmixed, whatever else is going on at the
two ends; once the queue and the cable are empty all of them have arrived, and
the receiver waits for the next. -/
theorem calls_delivered (hstart : ∀ side, Connected (w₀ side))
    (hrun : Runs (cableStep host) (Cabled host) w₀ w) (hne : s ≠ r)
    (hmute : ∀ o ∈ (w₀ r).port.xfer.data.inst.objects, o.reply = none)
    (hmax : (w₀ r).port.xfer.data.state + (w s).calls.length ≤ intMax) :
    ∃ frames : List SealedFrame,
      frames.map (fun f => (f.id, f.sealed)) = (w s).calls ∧
      bodiesOf (w r).log <+: frames.map SealedFrame.body ∧
      ((w s).port.xfer.transferlist = [] → (w r).inbox = [] →
        bodiesOf (w r).log = frames.map SealedFrame.body ∧
          AtRest (w r).port.xfer) :=
  (CableInv.reached hstart hrun hne hmute).delivered (hstart r) hmax

end Steps

/-! ## Two calls that cross -/

instance decidableCabled (host : Side → Endian) (w : Cable) :
    DecidablePred (Cabled host w)
  | (_, .epollin (.got _) _) => inferInstanceAs (Decidable (_ ∧ _ ∧ _))
  | (_, .epollin .failed _) => isTrue trivial
  | (_, .epollout _ _) => inferInstanceAs (Decidable (_ = true))
  | (s, .call env id) =>
      match hframe : callFrame (host s) env.mem env.grants env.fuel env.L
        (w s).port.xfer.data id with
      | .ok (some c) =>
          decidable_of_iff (c.size ≤ 256) (by simp [Cabled, hframe])
      | .ok none | .error _ => isTrue (by simp [Cabled, hframe])
  | (_, .discovery _) => isFalse id

/-- An end with one method, of one byte and without a reply. -/
def connectedPeer : Peer where
  port :=
    ⟨{ openedReceiver with data := { openedReceiver.data with
        inst := ⟨[], [methodOf [.u8]]⟩ } }, fun _ => none⟩
  calls := []
  inbox := []
  log := []

theorem connectedPeer_connected : Connected connectedPeer where
  rest := ⟨rfl, rfl, rfl, rfl, by decide +kernel, by decide +kernel⟩
  szSz := rfl
  idSz := rfl
  state := by decide
  cached o ho := by
    rw [List.mem_singleton.mp ho]
    exact ⟨0, 0, by decide⟩
  ids := by decide
  queue := rfl
  pos := rfl
  calls := rfl
  inbox := rfl
  log := rfl

/-- Both ends call before either has read, and the right one reads. -/
def crossing : List (Side × SerialEvent) :=
  [(.left, callWith 7), (.right, callWith 9),
    (.left, .epollout [.wrote 4] true),
    (.right, .epollin (.got [magicStart]) none),
    (.right, .epollin (.got [3]) none), (.right, .epollout [.wrote 9] true),
    (.right, .epollin (.got [0, 7]) none),
    (.left, .epollin (.got [magicStart]) none),
    (.left, .epollout [.wrote 9] true),
    (.right, .epollin (.got [10]) none),
    (.right, .epollin (.got [magicStop]) none)]

/-- Where that leads. -/
def crossed : Cable :=
  afterwards (cableStep fun _ => .little) (fun _ => connectedPeer) crossing

theorem calls_delivered_crossing :
    ∃ frames : List SealedFrame,
      frames.map (fun f => (f.id, f.sealed)) = (crossed .left).calls ∧
      bodiesOf (crossed .right).log = frames.map SealedFrame.body ∧
      bodiesOf (crossed .right).log = [[0, 7, 10]] := by
  obtain ⟨frames, hframes, -, hall⟩ :=
    @calls_delivered (fun _ => .little) _ _ .left .right
      (fun _ => connectedPeer_connected)
      (Runs.afterwards (l := crossing) (by decide +kernel)) (by decide)
      (by decide) (by decide +kernel)
  exact ⟨frames, hframes,
    (hall (by decide +kernel) (by decide +kernel)).1, by decide +kernel⟩

end Aura.Proofs
