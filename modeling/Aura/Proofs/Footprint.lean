import Aura.Proofs.Duplex
import Aura.Proofs.Ownership
import Aura.Ref.SerialHeap

/-!
# What a serial instance leaves in memory

Between its opening and the end of the program an instance has its receive
buffer, the frames in its queue, and every frame it could not queue: nobody
drops those. Nothing else of what it allocated is still there, nothing is
there twice, and the pointers never make a step fail that the values of
`Ref.Serial` do not (`footprint`). Queue nodes are never freed at all.
-/

namespace Aura.Proofs

open Aura.Lib Aura.Ref

/-! ## What a walk keeps -/

/-- What every turn that goes through keeps, the loop keeps. -/
theorem safeLoop_keeps {α σ : Type} [DecidableEq α] {links : σ → Links α}
    {body : α → σ → Res (σ × Bool)} {head : α} {P : σ → Prop}
    (hbody : ∀ pos s s' stop, P s → body pos s = .ok (s', stop) → P s')
    {fuel : Nat} {pos : α} {n : Option α} {s s' : σ}
    (h : safeLoop links body head fuel pos n s = .ok s') (hs : P s) :
    P s' := by
  induction fuel generalizing pos n s with
  | zero => cases h
  | succ fuel ih =>
      rw [safeLoop] at h
      by_cases hpos : pos = head
      · rw [if_pos hpos] at h
        cases h
        exact hs
      · rw [if_neg hpos, bind_eq_ok] at h
        obtain ⟨⟨t, stop⟩, ht, h⟩ := h
        have hkept := hbody _ _ _ _ hs ht
        cases stop with
        | true =>
            cases h
            exact hkept
        | false =>
            cases n with
            | none => cases h
            | some pos => exact ih h hkept

/-! ## Nothing is shared -/

/-- The receiver stays, no chunk has more than one reference, and no chunk is
allocated. -/
structure SoleRefs (rx : Option ChunkPtr) (fresh : Nat) (s : XferHeap) :
    Prop where
  recv : s.recv = rx
  single : ∀ p cell, s.chunks p = some cell → cell.refcnt ≤ 1
  fresh : s.fresh = fresh

section SoleRefs

variable {rx : Option ChunkPtr} {fresh : Nat} {s s' : XferHeap}

theorem SoleRefs.setChunk (h : SoleRefs rx fresh s) (p : ChunkPtr)
    (cell : Option ChunkCell) (hcell : ∀ c ∈ cell, c.refcnt ≤ 1) :
    SoleRefs rx fresh (s.setChunk p cell) := by
  refine ⟨h.recv, fun q c hq => ?_, h.fresh⟩
  by_cases hqp : q = p
  · exact hcell c ((if_pos hqp).symm.trans hq)
  · exact h.single q c ((if_neg hqp).symm.trans hq)

theorem chunkAt_eq_ok {p : ChunkPtr} {cell : ChunkCell}
    (h : s.chunkAt p = .ok cell) : s.chunks p = some cell := by
  unfold XferHeap.chunkAt at h
  split at h
  · cases h
  · cases h
    assumption

theorem SoleRefs.put (h : SoleRefs rx fresh s) {p : ChunkPtr}
    (hput : s.auraChunkPut p = .ok s') : SoleRefs rx fresh s' := by
  obtain ⟨cell, hcell, hput⟩ := bind_eq_ok.mp hput
  obtain ⟨refcnt, hdec, hput⟩ := bind_eq_ok.mp hput
  have hone := h.single p cell (chunkAt_eq_ok hcell)
  have hrefcnt : refcnt = cell.refcnt - 1 := by
    unfold intArith at hdec
    split at hdec
    · cases hdec
      rfl
    · cases hdec
  have hset := h.setChunk p (some { cell with refcnt }) (by
    intro c hc
    cases hc
    show refcnt ≤ 1
    omega)
  by_cases hzero : 0 = refcnt
  · rw [if_pos hzero] at hput
    obtain ⟨_, _, hput⟩ := bind_eq_ok.mp hput
    cases hput
    exact hset.setChunk _ _ (by simp)
  · rw [if_neg hzero] at hput
    cases hput
    exact hset

theorem SoleRefs.disables (h : SoleRefs rx fresh s) (ctl : Bool)
    (efd : EpollSet) :
    SoleRefs rx fresh
      (if listEmpty .transferlist s.links then
        (s.auraEpollout ctl false efd).2 else (s, efd)).1 := by
  split
  · exact ⟨h.recv, h.single, h.fresh⟩
  · exact h

/-- One turn of the walk: of all chunks only the one that is through is
touched. -/
theorem SoleRefs.writeTurn {t t' : WriteWalk} {ctl stop : Bool}
    {i : QueueAddr} (h : SoleRefs rx fresh t.heap)
    (hturn : Ref.writeTurn ctl i t = .ok (t', stop)) :
    SoleRefs rx fresh t'.heap := by
  cases i with
  | transferlist => cases hturn
  | node k =>
      obtain ⟨cell, _, hturn⟩ := bind_eq_ok.mp hturn
      dsimp only at hturn
      split at hturn
      · cases hturn
        exact h
      · cases hturn
        exact h
      · split at hturn
        · cases hturn
        · have hmoved : ∀ pos, SoleRefs rx fresh { t.heap with pos } :=
            fun _ => ⟨h.recv, h.single, h.fresh⟩
          split at hturn
          · obtain ⟨v, hv, hturn⟩ := bind_eq_ok.mp hturn
            obtain ⟨links, _, hturn⟩ := bind_eq_ok.mp hturn
            have hput := (hmoved _).put hv
            cases hturn
            exact SoleRefs.disables (s := { v with links, pos := 0 })
              ⟨hput.recv, hput.single, hput.fresh⟩ ctl t.efd
          · cases hturn
            exact (hmoved _).disables ctl t.efd

theorem SoleRefs.walk {ctl : Bool} {ws : List WriteResult} {efd : EpollSet}
    {t : WriteWalk} (h : SoleRefs rx fresh s)
    (hwalk : s.auraAsyncXferHandlerOut ctl ws efd = .ok t) :
    SoleRefs rx fresh t.heap := by
  unfold XferHeap.auraAsyncXferHandlerOut listForEachSafe at hwalk
  split at hwalk
  · cases hwalk
  · exact safeLoop_keeps (P := fun t => SoleRefs rx fresh t.heap)
      (fun _ _ _ _ hs hbody => hs.writeTurn hbody) hwalk h

/-- Queueing a chunk touches no chunk. -/
theorem enqueue_frame {ctl mem : Bool} {p : ChunkPtr} {efd efd' : EpollSet}
    {ret : Int}
    (h : s.auraAsyncEnqueueChunk ctl mem p efd = .ok (ret, s', efd')) :
    EnqueueFrame s s' := by
  have hwanted : ∃ hook,
      (if listEmpty .transferlist s.links then s.auraEpollout ctl true efd
        else (0, s, efd)).2.1 = { s with hook } := by
    split
    · exact ⟨_, rfl⟩
    · exact ⟨s.hook, rfl⟩
  unfold XferHeap.auraAsyncEnqueueChunk at h
  revert hwanted h
  generalize (if listEmpty .transferlist s.links then
    s.auraEpollout ctl true efd else (0, s, efd)) = r
  obtain ⟨code, u, efd₁⟩ := r
  rintro h ⟨hook, rfl⟩
  simp only [ne_eq, ite_not] at h
  by_cases hcode : code = 0
  · rw [if_pos hcode] at h
    cases mem with
    | false =>
        cases h
        exact ⟨_, _, _, _, rfl⟩
    | true =>
        rw [if_pos rfl] at h
        obtain ⟨links, _, h⟩ := bind_eq_ok.mp h
        obtain ⟨_, _, h⟩ := bind_eq_ok.mp h
        cases h
        exact ⟨_, _, _, _, rfl⟩
  · rw [if_neg hcode] at h
    cases h
    exact ⟨_, _, _, _, rfl⟩

theorem SoleRefs.enqueue {w w' : XferWorld} {p : ChunkPtr} {ctl mem : Bool}
    (h : SoleRefs rx fresh w.heap)
    (hstep : heapStep w (.enqueue p ctl mem) = .ok w') :
    SoleRefs rx fresh w'.heap ∧
      ((w'.held = w.lose p ∧ w'.enqueued.length = w.enqueued.length + 1) ∨
        (w'.held = w.held ∧ w'.enqueued = w.enqueued)) := by
  obtain ⟨⟨ret, heap, efd⟩, hrun, hstep⟩ := bind_eq_ok.mp hstep
  obtain ⟨links, nodes, chunkOf, hook, rfl⟩ := enqueue_frame hrun
  dsimp only at hstep
  by_cases hret : ret = 0
  · rw [if_pos hret] at hstep
    obtain ⟨cell, _, hstep⟩ := bind_eq_ok.mp hstep
    cases hstep
    exact ⟨⟨h.recv, h.single, h.fresh⟩, .inl ⟨rfl, List.length_append⟩⟩
  · rw [if_neg hret] at hstep
    cases hstep
    exact ⟨⟨h.recv, h.single, h.fresh⟩, .inr ⟨rfl, rfl⟩⟩

theorem SoleRefs.allocate (h : SoleRefs rx fresh s) (chunk : AuraChunk) :
    SoleRefs rx (fresh + 1) (s.auraChunkAllocate chunk) := by
  have hset := h.setChunk s.fresh (some ⟨chunk, 1⟩) (by
    intro c hc
    cases hc
    exact Int.le_refl 1)
  exact ⟨hset.recv, hset.single, congrArg (· + 1) h.fresh⟩

end SoleRefs

/-! ## The books of an instance -/

/-- The queue as the instance sees it, with the history memory has of it. -/
def serialTx (m : SerialMemory) : TxState Handler SerialInstance where
  xfer := m.port.xfer
  efd := m.port.efd
  enqueued := m.world.enqueued
  wire := m.world.wire
  gone := m.world.gone

/-- Memory is a picture of the instance, and what is held is what was lost. -/
structure Accounted (rx : ChunkPtr) (m : SerialMemory) : Prop where
  mirrors : Mirrors m.world (serialTx m)
  held : ∀ p, m.world.held p = m.lost.count p
  sole : SoleRefs (some rx) (1 + m.world.enqueued.length + m.lost.length)
    m.world.heap

/-- Memory looks at the queue alone. -/
theorem Mirrors.of_queue {η σ η' σ' : Type} {w : XferWorld} {t : TxState η σ}
    (h : Mirrors w t) {x : AuraAsyncXfer η' σ'}
    (hqueue : x.transferlist = t.xfer.transferlist)
    (hpos : x.pos = t.xfer.pos) (hhook : x.hook = t.xfer.hook) :
    Mirrors w ⟨x, t.efd, w.enqueued, w.wire, w.gone⟩ := by
  obtain ⟨ks, hst⟩ := h.stands
  refine ⟨⟨ks, ?_, ?_, ?_⟩, h.efd, rfl, rfl, rfl, h.nodes⟩
  · rw [hqueue]
    exact hst.holds
  · exact hpos.trans hst.pos
  · exact hhook.trans hst.hook

section Books

variable {host : Endian} {m m' : SerialMemory} {rx : ChunkPtr}

/-- A chunk the owner had a reference to, after the queue took the reference
or did not: what is held is what was lost. -/
theorem books_balance {w₁ w₂ : XferWorld} {lost : List ChunkPtr} {p : ChunkPtr}
    (hlost : lost.count p = 0)
    (hheld₁ : ∀ q, w₁.held q = lost.count q + if q = p then 1 else 0)
    (h : (w₂.held = w₁.lose p ∧
        w₂.enqueued.length = w₁.enqueued.length + 1) ∨
      (w₂.held = w₁.held ∧ w₂.enqueued = w₁.enqueued)) :
    (∀ q, w₂.held q
      = (if w₂.held p = 0 then lost else lost ++ [p]).count q) ∧
    w₁.enqueued.length + lost.length + 1 = w₂.enqueued.length
      + (if w₂.held p = 0 then lost else lost ++ [p]).length := by
  have hone : w₁.held p = 1 := by rw [hheld₁, if_pos rfl, hlost]
  rcases h with ⟨hlose, hlen⟩ | ⟨hsame, hlen⟩
  · have hzero : w₂.held p = 0 := by
      rw [hlose, XferWorld.lose, if_pos rfl, hone]
    rw [if_pos hzero]
    refine ⟨fun q => ?_, by omega⟩
    by_cases hq : q = p
    · rw [hq, hzero, hlost]
    · rw [hlose, XferWorld.lose, if_neg hq, hheld₁, if_neg hq, Nat.add_zero]
  · rw [if_neg (by rw [hsame, hone]; exact Nat.one_ne_zero), hlen,
      List.length_append, List.length_singleton]
    refine ⟨fun q => ?_, by omega⟩
    rw [hsame, hheld₁, List.count_append, List.count_singleton]
    simp only [beq_iff_eq, eq_comm (a := q)]

/-- The owner of a new chunk is its only one, and queue and books are as before. -/
theorem Accounted.allocate (h : Accounted rx m) (chunk : AuraChunk)
    {p : ChunkPtr} (hp : m.world.heap.fresh = p) :
    ∃ w₁, heapStep m.world (.allocate chunk) = .ok w₁ ∧
      content w₁.heap p = some chunk ∧ m.lost.count p = 0 ∧
      (∀ q, w₁.held q = m.lost.count q + if q = p then 1 else 0) ∧
      SoleRefs (some rx)
        (1 + m.world.enqueued.length + m.lost.length + 1) w₁.heap ∧
      Mirrors w₁ (serialTx m) := by
  obtain ⟨ks, hst⟩ := h.mirrors.stands
  have hcounted := hst.holds.counted
  have hnobody := hcounted.dead (hcounted.unborn (Nat.le_refl _))
  have hnone : m.world.held m.world.heap.fresh = 0 := by
    unfold otherRefs at hnobody
    omega
  subst hp
  refine ⟨_, rfl, congrArg (Option.map ChunkCell.chunk) (if_pos rfl),
    (h.held _).symm.trans hnone, fun q => ?_, h.sole.allocate chunk,
    h.mirrors.allocate chunk⟩
  show (if q = m.world.heap.fresh then _ else _) = _
  by_cases hq : q = m.world.heap.fresh
  · rw [if_pos hq, if_pos hq, h.held, hq]
  · rw [if_neg hq, if_neg hq, h.held q, Nat.add_zero]

/-- A chunk is handed over: to the queue or to nobody. The instance may have
changed its own data before (`x`) and after (`z`) the queue was asked. -/
theorem Accounted.handOver (h : Accounted rx m) (env : CallEnv)
    (chunk : AuraChunk) {x y z : SerialXfer} {ret : Int} {efd : EpollSet}
    (henq : auraAsyncEnqueueChunk env.ctl env.node m.port.efd x chunk
      = (ret, y, efd))
    (hqueue : x.transferlist = m.port.xfer.transferlist)
    (hpos : x.pos = m.port.xfer.pos) (hhook : x.hook = m.port.xfer.hook)
    (hz : z.transferlist = y.transferlist) (hzpos : z.pos = y.pos)
    (hzhook : z.hook = y.hook) :
    ∃ m', SerialMemory.handOver env chunk { m with port := ⟨z, efd⟩ }
        = .ok m' ∧ m'.port = ⟨z, efd⟩ ∧ Accounted rx m' := by
  generalize hp : m.world.heap.fresh = p
  obtain ⟨w₁, hallocated, hcontent, hlost, hheld₁, hun₁, hm⟩ :=
    h.allocate chunk hp
  have henq₁ : w₁.enqueued = m.world.enqueued := hm.enqueued.symm
  have hm₁ := hm.of_queue hqueue hpos hhook
  have hown : Owns w₁ (.enqueue p env.ctl env.node) := by
    show 0 < w₁.held p
    rw [hheld₁, if_pos rfl]
    exact Nat.succ_pos _
  have halike := hm₁.enqueue hown
  have hqueued : (txEvents w₁ (.enqueue p env.ctl env.node)).foldlM txStep
      (⟨x, m.port.efd, w₁.enqueued, w₁.wire, w₁.gone⟩ :
        TxState Handler SerialInstance) = .ok ⟨y, efd,
      if ret = 0 then w₁.enqueued ++ [chunk] else w₁.enqueued,
      w₁.wire, w₁.gone⟩ := by
    simp only [txEvents, hcontent, Option.toList_some, List.map_cons,
      List.map_nil, List.foldlM_cons, List.foldlM_nil, txStep, henq,
      pure_eq_ok]
    rfl
  rw [show (serialTx m).efd = m.port.efd from rfl, hqueued] at halike
  cases hstep : heapStep w₁ (.enqueue p env.ctl env.node) with
  | error e =>
      rw [hstep] at halike
      exact halike.elim
  | ok w₂ =>
      rw [hstep] at halike
      obtain ⟨hun₂, hheld₂⟩ := hun₁.enqueue hstep
      obtain ⟨hheld₂, hcount⟩ := books_balance hlost hheld₁ hheld₂
      generalize hlost₂ : (if w₂.held p = 0 then m.lost else m.lost ++ [p])
        = lost₂ at hheld₂ hcount
      rw [henq₁] at hcount
      refine ⟨⟨⟨z, efd⟩, w₂, lost₂⟩, ?_, rfl,
        halike.of_queue hz hzpos hzhook, hheld₂, ?_⟩
      · rw [SerialMemory.handOver]
        dsimp only
        rw [hp, hallocated, ok_bind, hstep, ok_bind, hlost₂]
        rfl
      · rw [Nat.add_assoc, ← hcount, ← Nat.add_assoc, ← Nat.add_assoc]
        exact hun₂

theorem auraAsyncExpectBytes_queue {η σ : Type} {g : Grant}
    {x y : AuraAsyncXfer η σ} {n ret : Int}
    (h : auraAsyncExpectBytes g x n = .ok (ret, y)) :
    y.transferlist = x.transferlist ∧ y.pos = x.pos ∧ y.hook = x.hook := by
  rw [auraAsyncExpectBytes] at h
  by_cases hshort : cInt (x.recv.alloc - n) < 0
  · simp only [if_pos hshort] at h
    obtain ⟨_, _, h⟩ := bind_eq_ok.mp h
    obtain ⟨_, _, h⟩ := bind_eq_ok.mp h
    obtain ⟨_, _, h⟩ := bind_eq_ok.mp h
    cases h
    exact ⟨rfl, rfl, rfl⟩
  · simp only [if_neg hshort] at h
    cases h
    exact ⟨rfl, rfl, rfl⟩

/-- A discovery hands its request over before it waits. -/
theorem urpcSerialDiscovery_hands {env : CallEnv} {p q : Port}
    (h : urpcSerialDiscovery env p = .ok q) :
    ∃ chunk ret y, discoveryChunk env = .ok chunk ∧
      auraAsyncEnqueueChunk env.ctl env.node p.efd
        { p.xfer with data := { p.xfer.data with objcount := 0 } } chunk
        = (ret, y, q.efd) ∧
      q.xfer.transferlist = y.transferlist ∧ q.xfer.pos = y.pos ∧
      q.xfer.hook = y.hook := by
  rw [urpcSerialDiscovery] at h
  split at h
  · cases h
  · next c hc =>
      obtain ⟨c', hc', h⟩ := bind_eq_ok.mp h
      obtain ⟨⟨_, y⟩, hy, h⟩ := bind_eq_ok.mp h
      obtain ⟨hqueue, hpos, hhook⟩ := auraAsyncExpectBytes_queue hy
      cases h
      refine ⟨{ c' with size := discoveryRequest.length }, _, _, ?_, rfl,
        hqueue, hpos, hhook⟩
      rw [discoveryChunk, hc]
      simp only [hc', ok_bind, pure_eq_ok]

/-- The walk over the queue, in memory. -/
theorem Accounted.epollout (h : Accounted rx m) {ws : List WriteResult}
    {ctl : Bool} {q : Port}
    (hport : serialStep host m.port (.epollout ws ctl) = .ok q) :
    ∃ world, heapStep m.world (.epollout ws ctl) = .ok world ∧
      Accounted rx { m with port := q, world } := by
  obtain ⟨⟨sent, y, efd⟩, hrun, hport⟩ := bind_eq_ok.mp hport
  cases hport
  have halike := h.mirrors.epollout ws ctl
  have hwalked : (txEvents m.world (.epollout ws ctl)).foldlM txStep
      (serialTx m) = .ok ⟨y, efd, m.world.enqueued,
        m.world.wire ++ sent.bytes, m.world.gone ++ sent.chunks⟩ := by
    simp only [txEvents, List.foldlM_cons, List.foldlM_nil, txStep, serialTx,
      hrun, ok_bind, pure_eq_ok]
  rw [hwalked] at halike
  cases hstep : heapStep m.world (.epollout ws ctl) with
  | error e =>
      rw [hstep] at halike
      exact halike.elim
  | ok world =>
      rw [hstep] at halike
      have hm := halike.of_queue rfl rfl rfl
      obtain ⟨t, ht, hstep⟩ := bind_eq_ok.mp hstep
      cases hstep
      exact ⟨_, rfl, hm, h.held, h.sole.walk ht⟩

theorem called_hands (env : CallEnv) (o : UrpcObject) (p : Port)
    (c : AuraChunk) : ∃ ret y z efd,
      auraAsyncEnqueueChunk env.ctl env.node p.efd p.xfer c = (ret, y, efd) ∧
      called env o p c = ⟨z, efd⟩ ∧ z.transferlist = y.transferlist ∧
      z.pos = y.pos ∧ z.hook = y.hook := by
  unfold called
  cases o.reply.isSome <;> exact ⟨_, _, _, _, rfl, rfl, rfl, rfl, rfl⟩

theorem Accounted.call (h : Accounted rx m) {env : CallEnv} {id : Nat}
    {q : Port} (hport : serialStep host m.port (.call env id) = .ok q) :
    ∃ m', memoryStep host m (.call env id) = .ok m' ∧ m'.port = q ∧
      Accounted rx m' := by
  rw [memoryStep, hport, ok_bind]
  cases ho : m.port.xfer.data.inst.objects[id]? with
  | none =>
      rw [serialStep, urpcSerialCall, objectAt, ho] at hport
      cases hport
  | some o =>
      rw [serialStep, urpcSerialCall_of_object ho] at hport
      cases hframe : callFrame host env.mem env.grants env.fuel env.L
        m.port.xfer.data id with
      | error e =>
          rw [hframe] at hport
          cases hport
      | ok frame =>
          rw [hframe] at hport
          cases hport
          cases frame with
          | none => exact ⟨_, by simp only [hframe]; rfl, rfl, h⟩
          | some c =>
              obtain ⟨ret, y, z, efd, henq, hcalled, hz, hzpos, hzhook⟩ :=
                called_hands env o m.port c
              obtain ⟨m', hm', hq, hacc⟩ :=
                h.handOver env c henq rfl rfl rfl hz hzpos hzhook
              refine ⟨m', ?_, ?_, hacc⟩
              · simp only [hframe, ok_bind, Option.elim_some, hcalled]
                exact hm'
              · exact hq.trans hcalled.symm

theorem Accounted.discovery (h : Accounted rx m) {env : CallEnv} {q : Port}
    (hport : serialStep host m.port (.discovery env) = .ok q) :
    ∃ m', memoryStep host m (.discovery env) = .ok m' ∧ m'.port = q ∧
      Accounted rx m' := by
  rw [memoryStep, hport, ok_bind]
  obtain ⟨chunk, ret, y, hchunk, henq, hz, hzpos, hzhook⟩ :=
    urpcSerialDiscovery_hands hport
  obtain ⟨m', hm', hq, hacc⟩ :=
    h.handOver env chunk henq rfl rfl rfl hz hzpos hzhook
  refine ⟨m', ?_, hq, hacc⟩
  simp only [hchunk, ok_bind]
  exact hm'

/-- Every step of the instance goes through in memory, as it goes, and fails as
it fails. -/
theorem Accounted.step (h : Accounted rx m) (e : SerialEvent) :
    Alike (fun m' q => m'.port = q ∧ Accounted rx m')
      (memoryStep host m e) (serialStep host m.port e) := by
  cases hport : serialStep host m.port e with
  | error err =>
      rw [memoryStep, hport]
      exact rfl
  | ok q =>
      have hstep : ∃ m', memoryStep host m e = .ok m' ∧ m'.port = q ∧
          Accounted rx m' := by
        cases e with
        | epollin r g =>
            have hfacing := (serialStep_stepped (e := .epollin r g)
              (by simp) hport).facing
            obtain ⟨y, _, hq⟩ := bind_eq_ok.mp hport
            rw [memoryStep, hport, ok_bind]
            cases hq
            refine ⟨_, rfl, rfl, ?_, h.held, h.sole⟩
            exact h.mirrors.of_queue
              (congrArg AuraAsyncXfer.transferlist hfacing).symm
              (congrArg AuraAsyncXfer.pos hfacing).symm
              (congrArg AuraAsyncXfer.hook hfacing).symm
        | epollout ws ctl =>
            obtain ⟨world, hworld, hacc⟩ := h.epollout hport
            refine ⟨_, ?_, rfl, hacc⟩
            rw [memoryStep, hport, ok_bind]
            simp only [hworld, ok_bind, pure_eq_ok]
        | call env id => exact h.call hport
        | discovery env => exact h.discovery hport
      obtain ⟨m', hm', hacc⟩ := hstep
      rw [hm']
      exact hacc

/-! ## Over a life -/

/-- An instance whose transfer object was just created, with the receive
buffer in it. -/
structure NewlyOpened (m : SerialMemory) : Prop where
  world : ∃ w, FreshWorld w ∧ receiveBuffer m.port.xfer.recv w = .ok m.world
  lost : m.lost = []
  queue : m.port.xfer.transferlist = []
  pos : m.port.xfer.pos = 0
  hook : m.port.xfer.hook = m.world.heap.hook
  efd : m.port.efd = m.world.efd

/-- The receive buffer changes hands at once. -/
theorem receiveBuffer_eq_ok {rxb : AuraChunk} {w w' : XferWorld}
    (hnone : w.heap.recv = none) (h : receiveBuffer rxb w = .ok w') :
    w' = { w with
      heap := { w.heap.auraChunkAllocate rxb with
        recv := some w.heap.fresh, expectBytes := 0 } } := by
  have hset : (w.heap.auraChunkAllocate rxb).auraAsyncXferSetReceiver
      (some w.heap.fresh) = .ok { w.heap.auraChunkAllocate rxb with
        recv := some w.heap.fresh, expectBytes := 0 } := by
    rw [XferHeap.auraAsyncXferSetReceiver]
    simp only [show (w.heap.auraChunkAllocate rxb).recv = none from hnone]
    rfl
  simp only [receiveBuffer, heapStep, pure_eq_ok, ok_bind, hset] at h
  cases h
  congr 1
  funext q
  simp only [XferWorld.hand, XferWorld.lose, XferWorld.gain]
  by_cases hq : q = w.heap.fresh <;> simp [hq]

theorem NewlyOpened.accounted (h : NewlyOpened m) : Accounted 0 m := by
  obtain ⟨w, hfresh, hbuffer⟩ := h.world
  have hm₁ := (hfresh.mirrors m.port.xfer).allocate m.port.xfer.recv
  obtain ⟨⟨links, hook, hheap⟩, hheld, henq, _, _⟩ := hfresh
  have hnone : w.heap.recv = none := by
    rw [hheap]
    rfl
  have hzero : w.heap.fresh = 0 := by
    rw [hheap]
    rfl
  obtain ⟨heap, hrun, hm₂⟩ := hm₁.setReceiver (c := some w.heap.fresh) (by
    rintro p ⟨⟩
    show 0 < w.gain w.heap.fresh w.heap.fresh
    rw [XferWorld.gain, if_pos rfl]
    exact Nat.succ_pos _)
  have hworld : heapStep w (.allocate m.port.xfer.recv) >>= (fun w₁ =>
      heapStep w₁ (.setReceiver (some w.heap.fresh))) = .ok m.world := hbuffer
  simp only [heapStep, pure_eq_ok, ok_bind, hrun] at hworld
  have hstart := receiveBuffer_eq_ok hnone hbuffer
  refine ⟨?_, fun p => ?_, ?_⟩
  · have hshown := hm₂.of_queue (x := m.port.xfer) h.queue h.pos (by
      rw [h.hook, hstart]
      rfl)
    rw [Except.ok.inj hworld] at hshown
    rw [serialTx, h.efd, hstart]
    rw [hstart] at hshown
    exact hshown
  · rw [hstart, h.lost, List.count_nil]
    exact hheld p
  · rw [h.lost]
    have hempty : SoleRefs none 0 w.heap :=
      ⟨hnone, fun p cell hp => (by rw [hheap] at hp; cases hp), hzero⟩
    have halloc := hempty.allocate m.port.xfer.recv
    rw [hstart]
    refine ⟨?_, halloc.single, ?_⟩
    · show some w.heap.fresh = some 0
      rw [hzero]
    · show w.heap.fresh + 1 = 1 + w.enqueued.length + 0
      rw [hzero, henq]
      rfl

/-- The chunks an instance has: the one it receives into, those in its queue
and those it lost. -/
def inUse (m : SerialMemory) : List ChunkPtr :=
  m.world.heap.recv.toList ++ queueChunks m.world.heap ++ m.lost

theorem Accounted.count_inUse (h : Accounted rx m) (p : ChunkPtr) :
    (inUse m).count p = references m.world p := by
  have hrecv : m.world.heap.recv.toList.count p =
      if m.world.heap.recv = some p then 1 else 0 := by
    rw [h.sole.recv]
    simp only [Option.toList_some, List.count_singleton, beq_iff_eq,
      Option.some.injEq]
  rw [inUse, List.count_append, List.count_append, hrecv, references, h.held]
  omega

/-- In every state of its life: the chunks in memory are the receive buffer, the
queue's and the lost ones, each with one reference; every chunk it ever
allocated is the receive buffer, was queued, or is lost; and the next step does
in memory what it does without. -/
theorem footprint (hopen : NewlyOpened m)
    (hrun : Runs (memoryStep host) (fun _ _ => True) m m') :
    (inUse m').Nodup ∧ m'.world.heap.recv = some 0 ∧
      (∀ p, (m'.world.heap.chunks p ≠ none ↔ p ∈ inUse m') ∧
        ∀ cell, m'.world.heap.chunks p = some cell → cell.refcnt = 1) ∧
      (queueChunks m'.world.heap).filterMap (content m'.world.heap)
        = m'.port.xfer.transferlist ∧
      m'.world.heap.fresh = 1 + m'.world.enqueued.length + m'.lost.length ∧
      m'.world.heap.nodes = m'.world.enqueued.length ∧
      ∀ e, Alike (fun m q => m.port = q) (memoryStep host m' e)
        (serialStep host m'.port e) := by
  have hacc : Accounted 0 m' := by
    refine hrun.invariant (I := Accounted 0) (fun m e m' h _ hstep => ?_)
      hopen.accounted
    have halike := @Accounted.step host m 0 h e
    rw [hstep] at halike
    obtain ⟨_, _, _, hacc⟩ := halike.of_ok
    exact hacc
  have hreferences := hacc.mirrors.references
  have hone : ∀ p cell, m'.world.heap.chunks p = some cell →
      references m'.world p = 1 := by
    intro p cell hcell
    have hcount := (hreferences p).2 cell hcell
    have hle := hacc.sole.single p cell hcell
    have hpos : references m'.world p ≠ 0 := fun hzero => by
      have hnone := (hreferences p).1.mpr hzero
      rw [hcell] at hnone
      cases hnone
    omega
  refine ⟨?_, hacc.sole.recv, fun p => ⟨?_, fun cell hcell => ?_⟩, ?_,
    hacc.sole.fresh, hacc.mirrors.nodes, fun e => ?_⟩
  · refine List.nodup_iff_count_le_one.mpr fun p => ?_
    rw [hacc.count_inUse]
    cases hcell : m'.world.heap.chunks p with
    | none =>
        rw [(hreferences p).1.mp hcell]
        exact Nat.zero_le 1
    | some cell => exact Nat.le_of_eq (hone p cell hcell)
  · rw [Ne, (hreferences p).1, ← hacc.count_inUse, List.count_eq_zero,
      not_not]
  · rw [(hreferences p).2 cell hcell, hone p cell hcell]
    rfl
  · obtain ⟨ks, hst⟩ := hacc.mirrors.stands
    exact hst.holds.contents_eq
  · exact (hacc.step e).mono fun _ _ h => h.1

end Books

/-- An instance with one method, as `urpc_serial_open` leaves it. -/
def openedMemory : SerialMemory where
  port := { callablePort with
    xfer := { callablePort.xfer with hook := idleWorld.heap.hook } }
  world := afterwards heapStep idleWorld
    [.allocate callablePort.xfer.recv, .setReceiver (some 0)]
  lost := []

/-- A call whose frame finds no place in the queue, and one that is sent. -/
def refusedCall : List SerialEvent :=
  [.call { generousEnv with
      fuel := 4, ctl := false, L := callStack [.number 7] } 0,
    callWith 7, .epollout [.wrote 9] true]

theorem footprint_refused :
    (∀ p, (afterwards (memoryStep .little) openedMemory
      refusedCall).world.heap.chunks p ≠ none ↔ p ∈ [0, 1]) ∧
    (afterwards (memoryStep .little) openedMemory
      refusedCall).world.heap.nodes = 1 := by
  have hopen : NewlyOpened openedMemory :=
    ⟨⟨idleWorld, idleWorld_fresh, rfl⟩, rfl, rfl, rfl, rfl, rfl⟩
  have hrun : Runs (memoryStep .little) (fun _ _ => True) openedMemory
      (afterwards (memoryStep .little) openedMemory refusedCall) :=
    Runs.afterwards (by decide +kernel)
  obtain ⟨_, _, hchunks, _, _, hnodes, _⟩ := footprint hopen hrun
  have huse : inUse (afterwards (memoryStep .little) openedMemory
      refusedCall) = [0, 1] := by decide +kernel
  refine ⟨fun p => ?_, ?_⟩
  · rw [(hchunks p).1, huse]
  · rw [hnodes]
    decide +kernel

end Aura.Proofs
