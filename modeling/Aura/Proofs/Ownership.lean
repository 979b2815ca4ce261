import Aura.Lib.Simulation
import Aura.Proofs.References
import Aura.Proofs.TxStream

/-!
# Whose chunks they are

Chunks are shared by counting: the owner has references to them, the queue
takes one over with every chunk it is given and gives it back when the chunk
has been sent, and the receiver has one. As long as the owner hands out no
reference it does not have, memory is a picture of the queue of `Ref.Asyncio`,
at every step and fault for fault (`heap_refines`), and the books balance
(`chunks_counted`). What was proved of the queue is then true of memory: with
well-formed chunks and orderly walks no pointer leads to what is not there, and
the stream is intact (`careful_runs`).
-/

namespace Aura.Proofs

open Aura.Lib Aura.Ref

variable {η σ : Type}

/-! ## Runs -/

/-- Who refers to a chunk besides the queue: the owner and the receiver. -/
def otherRefs (w : XferWorld) (p : ChunkPtr) : Nat :=
  w.held p + if w.heap.recv = some p then 1 else 0

/-- Memory is what the write side of `Ref.Asyncio` says, with its history, and
there is a node for every chunk that was ever enqueued. -/
structure Mirrors (w : XferWorld) (t : TxState η σ) : Prop where
  stands : ∃ ks, Stands (otherRefs w) w.heap ks t.xfer.transferlist t.xfer
  efd : t.efd = w.efd
  enqueued : t.enqueued = w.enqueued
  wire : t.wire = w.wire
  gone : t.gone = w.gone
  nodes : w.heap.nodes = w.enqueued.length

/-- The owner uses only references it has, and a count has room for one more. -/
def Owns (w : XferWorld) : HeapEvent → Prop
  | .allocate _ | .epollout _ _ => True
  | .get p => 0 < w.held p ∧ ∀ cell ∈ w.heap.chunks p, cell.refcnt < intMax
  | .put p | .enqueue p _ _ => 0 < w.held p
  | .setReceiver c => ∀ p ∈ c, 0 < w.held p

instance decidableOwns (w : XferWorld) : ∀ e, Decidable (Owns w e)
  | .allocate _ | .epollout _ _ => isTrue trivial
  | .get p => inferInstanceAs (Decidable (0 < w.held p ∧
      ∀ cell ∈ w.heap.chunks p, cell.refcnt < intMax))
  | .put p | .enqueue p _ _ => inferInstanceAs (Decidable (0 < w.held p))
  | .setReceiver c => inferInstanceAs (Decidable (∀ p ∈ c, 0 < w.held p))

/-- What the queue sees of an event. -/
def txEvents (w : XferWorld) : HeapEvent → List TxEvent
  | .enqueue p ctl mem =>
      (content w.heap p).toList.map fun chunk => .enqueue chunk ctl mem
  | .epollout ws ctl => [.epollout ws ctl]
  | .allocate _ | .get _ | .put _ | .setReceiver _ => []

section Mirrors

variable {w : XferWorld} {t : TxState η σ}

/-- An event the queue does not see: chunks and references other than its own
change. -/
theorem Mirrors.aside (hm : Mirrors w t) {ks : List Nat}
    (hst : Stands (otherRefs w) w.heap ks t.xfer.transferlist t.xfer)
    {heap : XferHeap} {held : ChunkPtr → Nat}
    (hframe : ∃ chunks fresh recv expectBytes,
      heap = { w.heap with chunks, fresh, recv, expectBytes })
    (hcontent : ∀ p, 0 < queueRefs w.heap ks p →
      content heap p = content w.heap p)
    (hcounted : Counted heap (fun p =>
      otherRefs { w with heap, held } p + queueRefs w.heap ks p)) :
    Mirrors { w with heap, held } t := by
  obtain ⟨chunks, fresh, recv, expectBytes, rfl⟩ := hframe
  refine ⟨⟨ks, ?_, hst.pos, hst.hook⟩, hm.efd, hm.enqueued, hm.wire, hm.gone,
    hm.nodes⟩
  exact hst.holds.rechunk rfl rfl rfl hcontent hcounted

theorem Mirrors.allocate (hm : Mirrors w t) (chunk : AuraChunk) :
    Mirrors { w with
      heap := w.heap.auraChunkAllocate chunk
      held := w.gain w.heap.fresh } t := by
  obtain ⟨ks, hst⟩ := hm.stands
  have hcounted := hst.holds.counted
  refine hm.aside hst ⟨_, _, _, _, rfl⟩ ?_ ?_
  · intro p hp
    have hne : p ≠ w.heap.fresh := fun he => by
      have hlt := hcounted.lt_fresh (Nat.add_pos_right _ hp)
      exact Nat.lt_irrefl _ (he ▸ hlt)
    exact congrArg (Option.map ChunkCell.chunk) (if_neg hne)
  · refine (hcounted.allocate chunk).congr rfl rfl fun q => ?_
    have hdead := hcounted.dead (hcounted.unborn (Nat.le_refl _))
    have hrecv : (w.heap.auraChunkAllocate chunk).recv = w.heap.recv := rfl
    simp only [otherRefs, XferWorld.gain, hrecv] at hdead ⊢
    by_cases hq : q = w.heap.fresh
    · subst hq
      rw [if_pos rfl, if_pos rfl]
      omega
    · rw [if_neg hq, if_neg hq]

theorem Mirrors.get (hm : Mirrors w t) {p : ChunkPtr}
    (hp : Owns w (.get p)) :
    ∃ heap, w.heap.auraChunkGet p = .ok heap ∧
      Mirrors { w with heap, held := w.gain p } t := by
  obtain ⟨ks, hst⟩ := hm.stands
  obtain ⟨hpos, hroom⟩ := hp
  have hcounted := hst.holds.counted
  have hrefs : 0 < otherRefs w p + queueRefs w.heap ks p := by
    unfold otherRefs
    omega
  have hroom : ((otherRefs w p + queueRefs w.heap ks p : Nat) : Int) <
      intMax := by
    cases hcell : w.heap.chunks p with
    | none => exact absurd (hcounted.dead hcell) (Nat.ne_of_gt hrefs)
    | some cell =>
        have hcount := (hcounted.live hcell).1
        rw [← hcount]
        exact hroom cell hcell
  obtain ⟨chunks, hget, hcounted', hsame⟩ := hcounted.get hrefs hroom
  refine ⟨_, hget, hm.aside hst ⟨_, _, _, _, rfl⟩ (fun q _ => hsame q) ?_⟩
  refine hcounted'.congr rfl rfl fun q => ?_
  simp only [otherRefs, XferWorld.gain]
  by_cases hq : q = p
  · subst hq
    rw [if_pos rfl, if_pos rfl]
    omega
  · rw [if_neg hq, if_neg hq]

/-- A reference is dropped that is not the queue's. -/
theorem Mirrors.release (hm : Mirrors w t) {p : ChunkPtr}
    (held : ChunkPtr → Nat) (recv : Option ChunkPtr) (expectBytes : Int)
    (hpos : 0 < otherRefs w p)
    (hrefs : ∀ q, otherRefs { w with heap := { w.heap with recv }, held } q =
      if q = p then otherRefs w p - 1 else otherRefs w q) :
    ∃ chunks, w.heap.auraChunkPut p = .ok { w.heap with chunks } ∧
      Mirrors { w with
        heap := { w.heap with chunks, recv, expectBytes }, held } t := by
  obtain ⟨ks, hst⟩ := hm.stands
  have hcounted := hst.holds.counted
  obtain ⟨chunks, hput, hcounted', hsame⟩ :=
    hcounted.put (Nat.add_pos_left hpos (queueRefs w.heap ks p))
  refine ⟨chunks, hput, hm.aside hst ⟨_, _, _, _, rfl⟩ ?_ ?_⟩
  · intro q hq
    refine hsame q ?_
    by_cases hqp : q = p
    · subst hqp
      rw [if_pos rfl]
      omega
    · rw [if_neg hqp]
      exact Nat.add_pos_right _ hq
  · refine hcounted'.congr rfl rfl fun q => ?_
    have hq : otherRefs { w with
        heap := { w.heap with chunks, recv, expectBytes }, held } q = _ :=
      hrefs q
    rw [hq]
    by_cases hqp : q = p
    · subst hqp
      rw [if_pos rfl, if_pos rfl]
      omega
    · rw [if_neg hqp, if_neg hqp]

theorem Mirrors.put (hm : Mirrors w t) {p : ChunkPtr}
    (hp : Owns w (.put p)) :
    ∃ heap, w.heap.auraChunkPut p = .ok heap ∧
      Mirrors { w with heap, held := w.lose p } t := by
  have hpos : 0 < w.held p := hp
  obtain ⟨chunks, hput, hm'⟩ := hm.release (w.lose p) w.heap.recv
    w.heap.expectBytes (Nat.add_pos_left hpos _) fun q => by
      simp only [otherRefs, XferWorld.lose]
      by_cases hq : q = p
      · subst hq
        rw [if_pos rfl, if_pos rfl]
        omega
      · rw [if_neg hq, if_neg hq]
  exact ⟨_, hput, hm'⟩

/-- The new receiver takes its reference over, the old one gives its own
back. -/
theorem Mirrors.setReceiver (hm : Mirrors w t) {c : Option ChunkPtr}
    (hc : Owns w (.setReceiver c)) :
    ∃ heap, w.heap.auraAsyncXferSetReceiver c = .ok heap ∧
      Mirrors { w with heap, held := w.hand c } t := by
  -- with the reference it takes over, the receiver makes up for the owner's
  have hnew : ∀ (heap : XferHeap) q,
      otherRefs { w with heap := { heap with recv := c }, held := w.hand c }
        q = w.held q := by
    intro heap q
    cases c with
    | none => simp [otherRefs, XferWorld.hand]
    | some p =>
        have hpos : 0 < w.held p := hc p rfl
        simp only [otherRefs, XferWorld.hand, XferWorld.lose,
          Option.some.injEq, eq_comm (b := q)]
        by_cases hq : q = p
        · subst hq
          rw [if_pos rfl, if_pos rfl]
          omega
        · rw [if_neg hq, if_neg hq, Nat.add_zero]
  unfold XferHeap.auraAsyncXferSetReceiver
  cases hrecv : w.heap.recv with
  | none =>
      obtain ⟨ks, hst⟩ := hm.stands
      refine ⟨_, rfl, hm.aside hst ⟨_, _, _, _, rfl⟩ (fun _ _ => rfl) ?_⟩
      refine hst.holds.counted.congr rfl rfl fun q => ?_
      have hq := hnew { w.heap with expectBytes := 0 } q
      rw [hq, otherRefs, hrecv]
      simp
  | some old =>
      have hold : 0 < otherRefs w old := by
        rw [otherRefs, hrecv, if_pos rfl]
        exact Nat.succ_pos _
      obtain ⟨chunks, hput, hm'⟩ := hm.release (w.hand c) c 0 hold fun q => by
        rw [hnew, otherRefs, otherRefs, hrecv]
        by_cases hq : q = old
        · subst hq
          rw [if_pos rfl, if_pos rfl]
          rfl
        · rw [if_neg hq, if_neg fun he => hq (Option.some.inj he).symm]
          rfl
      refine ⟨_, ?_, hm'⟩
      simp only [hput, ok_bind]
      rfl

theorem Mirrors.enqueue (hm : Mirrors w t) {p : ChunkPtr} {ctl mem : Bool}
    (hp : Owns w (.enqueue p ctl mem)) :
    Alike Mirrors (heapStep w (.enqueue p ctl mem))
      ((txEvents w (.enqueue p ctl mem)).foldlM txStep t) := by
  obtain ⟨ks, hst⟩ := hm.stands
  have hpos : 0 < w.held p := hp
  obtain ⟨chunk, -, hcontent⟩ := hst.holds.counted.chunkAt
    (Nat.add_pos_left (Nat.add_pos_left hpos _) (queueRefs w.heap ks p))
  have hbase : ∀ q, otherRefs w q =
      otherRefs { w with held := w.lose p } q + if q = p then 1 else 0 := by
    intro q
    simp only [otherRefs, XferWorld.lose]
    by_cases hq : q = p
    · subst hq
      rw [if_pos rfl, if_pos rfl]
      omega
    · rw [if_neg hq, if_neg hq, Nat.add_zero]
  obtain ⟨ret, s', efd', hrun, hret, hefd, hframe, hkeep, hst'⟩ :=
    enqueue_agrees ctl mem w.efd hst hcontent hbase
  simp only [txEvents, hcontent, Option.toList_some, List.map_cons,
    List.map_nil, List.foldlM_cons, List.foldlM_nil, txStep, hm.efd]
  simp only [heapStep, hrun, ok_bind, pure_eq_ok]
  obtain ⟨links, nodes, chunkOf, hook, rfl⟩ := hframe
  by_cases hzero : ret = 0
  · rw [if_pos hzero] at hst' ⊢
    obtain ⟨hnodes, hst'⟩ := hst'
    obtain ⟨cell, hcell, hchunk⟩ := Option.map_eq_some_iff.mp hkeep
    have hat : XferHeap.chunkAt { w.heap with links, nodes, chunkOf, hook } p =
        .ok cell := by
      rw [XferHeap.chunkAt, hcell]
    rw [hat, ok_bind, if_pos (hret.trans hzero)]
    refine ⟨⟨_, hst'⟩, hefd, ?_, hm.wire, hm.gone, ?_⟩
    · rw [hm.enqueued, hchunk]
    · rw [List.length_append, ← hm.nodes]
      exact hnodes
  · rw [if_neg hzero] at hst' ⊢
    rw [if_neg fun he => hzero (hret.symm.trans he)]
    exact ⟨⟨_, hst'.2⟩, hefd, hm.enqueued, hm.wire, hm.gone,
      hst'.1.trans hm.nodes⟩

theorem Mirrors.epollout (hm : Mirrors w t) (ws : List WriteResult)
    (ctl : Bool) :
    Alike Mirrors (heapStep w (.epollout ws ctl))
      ((txEvents w (.epollout ws ctl)).foldlM txStep t) := by
  obtain ⟨ks, hst⟩ := hm.stands
  have hagrees := handlerOut_agrees ctl ws w.efd hst
  simp only [txEvents, List.foldlM_cons, List.foldlM_nil, txStep, hm.efd,
    heapStep, bind_pure]
  cases hlist : auraAsyncXferHandlerOut ctl ws w.efd t.xfer with
  | error e =>
      rw [hlist] at hagrees
      rw [show w.heap.auraAsyncXferHandlerOut ctl ws w.efd = .error e
        from hagrees]
      exact rfl
  | ok r =>
      obtain ⟨sent, x', efd'⟩ := r
      rw [hlist] at hagrees
      obtain ⟨t', ks', hrun, hsent, hefd, hst', hframe⟩ := hagrees
      obtain ⟨heap, efd₁, ws₁, sent₁⟩ := t'
      obtain ⟨links, chunks, pos, hook, rfl⟩ := hframe
      rw [hrun]
      have hsent : sent₁ = sent := hsent
      refine ⟨⟨ks', hst'⟩, hefd.symm, hm.enqueued, ?_, ?_, hm.nodes⟩
      · rw [hm.wire, hsent]
      · rw [hm.gone, hsent]

/-- Every step the owner is entitled to is what the queue sees of it, fault for
fault. -/
theorem heapStep_inStep :
    InStep heapStep Owns (txStep (η := η) (σ := σ)) txEvents Mirrors := by
  intro w t e hm he
  cases e with
  | allocate chunk => exact hm.allocate chunk
  | get p =>
      obtain ⟨heap, hrun, hm'⟩ := hm.get he
      rw [heapStep, hrun]
      exact hm'
  | put p =>
      obtain ⟨heap, hrun, hm'⟩ := hm.put he
      rw [heapStep, hrun]
      exact hm'
  | setReceiver c =>
      obtain ⟨heap, hrun, hm'⟩ := hm.setReceiver he
      rw [heapStep, hrun]
      exact hm'
  | enqueue p ctl mem => exact hm.enqueue he
  | epollout ws ctl => exact hm.epollout ws ctl

end Mirrors

/-! ## From the creation on -/

/-- A transfer object as `aura_create_async_xfer` leaves it, with an owner that
has nothing. -/
structure FreshWorld (w : XferWorld) : Prop where
  heap : ∃ links hook, w.heap = .start links hook
  held : ∀ p, w.held p = 0
  enqueued : w.enqueued = []
  wire : w.wire = []
  gone : w.gone = []

/-- The list a fresh object stands for. -/
def freshTx (w : XferWorld) (x : AuraAsyncXfer η σ) : TxState η σ where
  xfer := { x with transferlist := [], pos := 0, hook := w.heap.hook }
  efd := w.efd
  enqueued := []
  wire := []
  gone := []

theorem FreshWorld.mirrors {w : XferWorld} (h : FreshWorld w)
    (x : AuraAsyncXfer η σ) : Mirrors w (freshTx w x) := by
  obtain ⟨⟨links, hook, hheap⟩, hheld, henq, hwire, hgone⟩ := h
  obtain ⟨heap, efd, held, enqueued, wire, gone⟩ := w
  subst hheap
  have hrefs : ∀ p, otherRefs ⟨.start links hook, efd, held, enqueued, wire,
      gone⟩ p + queueRefs (.start links hook) [] p = 0 := by
    intro p
    have hp : held p = 0 := hheld p
    simp [otherRefs, queueRefs, XferHeap.start, hp]
  refine ⟨⟨[], ⟨?_, ?_, rfl, ?_⟩, rfl, rfl⟩, rfl, henq.symm, hwire.symm,
    hgone.symm, ?_⟩
  · exact ring_init links .transferlist
  · exact fun k hk => absurd hk (List.not_mem_nil)
  · constructor
    · intro p cell hp
      cases hp
    · exact fun _ => hrefs _
    · intro p
      simp only [hrefs]
      decide
    · exact fun _ => rfl
  · rw [henq]
    rfl

/-- Memory refines the list: an owner that uses only its own references sees
the queue of `Ref.Asyncio`, in every state and at every step, faults
included. -/
theorem heap_refines {w w' : XferWorld} (hfresh : FreshWorld w)
    (hrun : Runs heapStep Owns w w') (x : AuraAsyncXfer η σ) :
    ∃ t : TxState η σ, Runs txStep (fun _ _ => True) (freshTx w x) t ∧
      Mirrors w' t ∧ ∀ e, Owns w' e →
        Alike Mirrors (heapStep w' e) ((txEvents w' e).foldlM txStep t) := by
  obtain ⟨t, htx, hm⟩ := hrun.simulated heapStep_inStep (hfresh.mirrors x)
  exact ⟨t, htx, hm, fun e he => heapStep_inStep w' t e hm he⟩

/-- A transfer object for runs on fixed input. -/
def idleWorld : XferWorld where
  heap := .start noLinks ⟨3, ⟨true, false⟩⟩
  efd := fun _ => none
  held := fun _ => 0
  enqueued := []
  wire := []
  gone := []

theorem idleWorld_fresh : FreshWorld idleWorld :=
  ⟨⟨noLinks, ⟨3, ⟨true, false⟩⟩, rfl⟩, fun _ => rfl, rfl, rfl, rfl⟩

/-- Two chunks are sent, one of them in two halves; the owner keeps a reference
to the other, and makes it the receiver. -/
def sharing : List HeapEvent :=
  [.allocate ⟨[1, 2, 3, 4], 4⟩, .allocate ⟨[5, 6], 2⟩, .get 1,
    .enqueue 0 true true, .enqueue 1 true true, .epollout [.wrote 2] true,
    .epollout [.wrote 2, .wrote 2] true, .setReceiver (some 1)]

theorem heap_refines_sharing :
    ∃ t : TxState Unit Unit,
      Runs txStep (fun _ _ => True) (freshTx idleWorld idleTx.xfer) t ∧
      t.wire = [1, 2, 3, 4, 5, 6] := by
  obtain ⟨t, hrun, hm, -⟩ := heap_refines idleWorld_fresh
    (Runs.afterwards (l := sharing) (by decide +kernel)) idleTx.xfer
  refine ⟨t, hrun, hm.wire.trans ?_⟩
  decide +kernel

/-! ## What is in memory -/

/-- The nodes of the queue, as the walk over it finds them. -/
def queueNodes (s : XferHeap) : List QueueAddr :=
  match listForEach .transferlist (s.nodes + 1) s.links with
  | .ok nodes => nodes
  | .error _ => []

def nodeChunk (s : XferHeap) : QueueAddr → Option ChunkPtr
  | .transferlist => none
  | .node k => some (s.chunkOf k)

/-- The chunks in the queue. -/
def queueChunks (s : XferHeap) : List ChunkPtr :=
  (queueNodes s).filterMap (nodeChunk s)

/-- Who refers to a chunk. -/
def references (w : XferWorld) (p : ChunkPtr) : Nat :=
  w.held p + (queueChunks w.heap).count p +
    if w.heap.recv = some p then 1 else 0

theorem Holds.queueNodes_eq {base : ChunkPtr → Nat} {s : XferHeap}
    {ks : List Nat} {cs : List AuraChunk} (h : Holds base s ks cs) :
    queueNodes s = ks.map .node := by
  unfold queueNodes
  rw [listForEach_ring h.ring (by
    rw [List.length_map]
    exact Nat.lt_succ_of_le h.nodes_le)]

theorem Holds.queueChunks_eq {base : ChunkPtr → Nat} {s : XferHeap}
    {ks : List Nat} {cs : List AuraChunk} (h : Holds base s ks cs) :
    queueChunks s = ks.map s.chunkOf := by
  rw [queueChunks, h.queueNodes_eq, List.filterMap_map]
  exact congrFun List.filterMap_eq_map' ks

/-- The books balance: a chunk is there while somebody refers to it, and counts
them. -/
theorem Mirrors.references {w : XferWorld} {t : TxState η σ}
    (hm : Mirrors w t) (p : ChunkPtr) :
    (w.heap.chunks p = none ↔ references w p = 0) ∧
      ∀ cell, w.heap.chunks p = some cell →
        cell.refcnt = Proofs.references w p := by
  obtain ⟨ks, hst⟩ := hm.stands
  have hcounted := hst.holds.counted
  have hrefs : Proofs.references w p =
      otherRefs w p + queueRefs w.heap ks p := by
    rw [Proofs.references, hst.holds.queueChunks_eq, otherRefs, queueRefs]
    omega
  rw [hrefs]
  refine ⟨⟨fun hnone => hcounted.dead hnone, fun hzero => ?_⟩,
    fun cell hcell => (hcounted.live hcell).1⟩
  cases hcell : w.heap.chunks p with
  | none => rfl
  | some cell => exact absurd hzero (Nat.ne_of_gt (hcounted.live hcell).2)

/-- The books balance in every state an entitled owner can bring about: a chunk
is in memory exactly while somebody refers to it, and its count is the number
of references. Queue nodes stay for good, one for each chunk ever enqueued. -/
theorem chunks_counted {w w' : XferWorld} (hfresh : FreshWorld w)
    (hrun : Runs heapStep Owns w w') :
    (∀ p, (w'.heap.chunks p = none ↔ references w' p = 0) ∧
      ∀ cell, w'.heap.chunks p = some cell →
        cell.refcnt = references w' p) ∧
      w'.heap.nodes = w'.enqueued.length := by
  obtain ⟨t, -, hm⟩ := hrun.simulated heapStep_inStep (hfresh.mirrors
    (⟨[], 0, 0, ⟨[], 0⟩, ⟨0, ⟨false, false⟩⟩, (), ()⟩ : AuraAsyncXfer Unit Unit))
  exact ⟨hm.references, hm.nodes⟩

theorem chunks_counted_sharing :
    (afterwards heapStep idleWorld sharing).heap.chunks 0 = none ∧
      references (afterwards heapStep idleWorld sharing) 1 = 1 := by
  have hcounted := chunks_counted idleWorld_fresh
    (Runs.afterwards (l := sharing) (by decide +kernel))
  exact ⟨(hcounted.1 0).1.mpr (by decide +kernel), by decide +kernel⟩

/-! ## What reaches the descriptor -/

/-- An entitled owner that enqueues only chunks that are well formed, and a
kernel that accepts nothing more in a walk once a write fell short. -/
def Careful (w : XferWorld) : HeapEvent → Prop
  | .enqueue p ctl mem =>
      Owns w (.enqueue p ctl mem) ∧ ∀ c ∈ content w.heap p, WfChunk c
  | .epollout ws _ =>
      orderly w.heap.pos ((queueChunks w.heap).filterMap (content w.heap)) ws
        = true
  | .allocate chunk => Owns w (.allocate chunk)
  | .get p => Owns w (.get p)
  | .put p => Owns w (.put p)
  | .setReceiver c => Owns w (.setReceiver c)

instance decidableWfChunk (c : AuraChunk) : Decidable (WfChunk c) :=
  inferInstanceAs (Decidable (c.size ≤ c.alloc ∧ (c.alloc : Int) ≤ intMax))

instance decidableCareful (w : XferWorld) : ∀ e, Decidable (Careful w e)
  | .enqueue p ctl mem => inferInstanceAs (Decidable
      (Owns w (.enqueue p ctl mem) ∧ ∀ c ∈ content w.heap p, WfChunk c))
  | .epollout ws _ => inferInstanceAs (Decidable (orderly w.heap.pos
      ((queueChunks w.heap).filterMap (content w.heap)) ws = true))
  | .allocate chunk => inferInstanceAs (Decidable (Owns w (.allocate chunk)))
  | .get p => inferInstanceAs (Decidable (Owns w (.get p)))
  | .put p => inferInstanceAs (Decidable (Owns w (.put p)))
  | .setReceiver c => inferInstanceAs (Decidable (Owns w (.setReceiver c)))

theorem Careful.owns {w : XferWorld} {e : HeapEvent} (h : Careful w e) :
    Owns w e := by
  cases e with
  | enqueue => exact h.1
  | epollout => trivial
  | allocate | get | put | setReceiver => exact h

theorem filterMap_of_map_eq {α β : Type} {f : α → Option β} {l : List α}
    {cs : List β} (h : l.map f = cs.map some) : l.filterMap f = cs := by
  induction l generalizing cs with
  | nil => exact (List.map_eq_nil_iff.mp h.symm).symm
  | cons a l ih =>
      cases cs with
      | nil => cases h
      | cons c cs =>
          obtain ⟨ha, hrest⟩ := List.cons.inj h
          rw [List.filterMap_cons_some ha, ih hrest]

theorem Holds.contents_eq {base : ChunkPtr → Nat} {s : XferHeap}
    {ks : List Nat} {cs : List AuraChunk} (h : Holds base s ks cs) :
    (queueChunks s).filterMap (content s) = cs := by
  refine filterMap_of_map_eq ?_
  rw [h.queueChunks_eq, List.map_map]
  exact h.chunks

/-- A careful step goes through, and the queue it is a picture of stays
intact. -/
theorem Careful.step {w : XferWorld} {t : TxState η σ} {e : HeapEvent}
    (hm : Mirrors w t) (hinv : TxInv t) (he : Careful w e) :
    ∃ w', ∃ t' : TxState η σ, heapStep w e = .ok w' ∧ Mirrors w' t' ∧
      TxInv t' := by
  have halike := heapStep_inStep w t e hm he.owns
  obtain ⟨ks, hst⟩ := hm.stands
  have hok : ∃ t', (txEvents w e).foldlM txStep t = .ok t' ∧ TxInv t' := by
    cases e with
    | allocate | get | put | setReceiver => exact ⟨t, rfl, hinv⟩
    | enqueue p ctl mem =>
        obtain ⟨hp, hwf⟩ := he
        cases hcontent : content w.heap p with
        | none => exact ⟨t, by rw [txEvents, hcontent]; rfl, hinv⟩
        | some chunk =>
            obtain ⟨t', hrun, hinv', -⟩ := txStep_simulates hinv
              (e := .enqueue chunk ctl mem) (hwf chunk hcontent)
            refine ⟨t', ?_, hinv'⟩
            simp only [txEvents, hcontent, Option.toList_some, List.map_cons,
              List.map_nil, List.foldlM_cons, List.foldlM_nil, bind_pure, hrun]
    | epollout ws ctl =>
        have horderly : txOrderly t (.epollout ws ctl) := by
          have hws : orderly w.heap.pos
            ((queueChunks w.heap).filterMap (content w.heap)) ws = true := he
          rw [hst.holds.contents_eq, ← hst.pos] at hws
          exact hws
        obtain ⟨t', hrun, hinv', -⟩ := txStep_simulates hinv horderly
        refine ⟨t', ?_, hinv'⟩
        simp only [txEvents, List.foldlM_cons, List.foldlM_nil, bind_pure, hrun]
  obtain ⟨t', hrun, hinv'⟩ := hok
  rw [hrun] at halike
  cases hstep : heapStep w e with
  | error err =>
      rw [hstep] at halike
      exact halike.elim
  | ok w' =>
      rw [hstep] at halike
      exact ⟨w', t', rfl, halike, hinv'⟩

/-- A careful run never follows a pointer to what is not there, frees nothing
twice and writes nothing past a chunk; and the bytes that reach the descriptor
are the beginning of what was enqueued, in order. -/
theorem careful_runs {w w' : XferWorld} (hfresh : FreshWorld w)
    (hrun : Runs heapStep Careful w w') :
    w'.wire <+: w'.enqueued.flatMap AuraChunk.payload ∧
      w'.enqueued = w'.gone ++
        (queueChunks w'.heap).filterMap (content w'.heap) ∧
      ∀ e, Careful w' e → ∃ w'', heapStep w' e = .ok w'' := by
  have hstart : ∃ t : TxState Unit Unit, Mirrors w t ∧ TxInv t := by
    let x : AuraAsyncXfer Unit Unit :=
      ⟨[], 0, 0, ⟨[], 0⟩, ⟨0, ⟨false, false⟩⟩, (), ()⟩
    exact ⟨freshTx w x, hfresh.mirrors x,
      TxState.Fresh.inv ⟨rfl, rfl, rfl, rfl, rfl⟩⟩
  have hinv : ∃ t : TxState Unit Unit, Mirrors w' t ∧ TxInv t := by
    refine hrun.invariant
      (I := fun w => ∃ t : TxState Unit Unit, Mirrors w t ∧ TxInv t) ?_ hstart
    rintro w e w' ⟨t, hm, hinv⟩ he hstep
    obtain ⟨w₁, t', hw₁, hm', hinv'⟩ := he.step hm hinv
    cases hw₁.symm.trans hstep
    exact ⟨t', hm', hinv'⟩
  obtain ⟨t, hm, hinv⟩ := hinv
  obtain ⟨ks, hst⟩ := hm.stands
  have hintact := hinv.intact
  refine ⟨?_, ?_, fun e he => ?_⟩
  · rw [← hm.wire, ← hm.enqueued]
    exact hintact.ordered
  · rw [← hm.enqueued, ← hm.gone, hst.holds.contents_eq]
    exact hintact.queue
  · obtain ⟨w'', -, hw'', -⟩ := he.step hm hinv
    exact ⟨w'', hw''⟩

theorem careful_runs_sharing :
    (afterwards heapStep idleWorld sharing).wire <+: [1, 2, 3, 4, 5, 6] ∧
      ∃ w, heapStep (afterwards heapStep idleWorld sharing)
        (.setReceiver none) = .ok w := by
  obtain ⟨hwire, -, hsteps⟩ := careful_runs idleWorld_fresh
    (Runs.afterwards (l := sharing) (by decide +kernel))
  refine ⟨?_, hsteps (.setReceiver none) ?_⟩
  · decide +kernel
  · decide +kernel

end Aura.Proofs
