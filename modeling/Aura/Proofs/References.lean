import Aura.Proofs.Lists
import Aura.Proofs.Queue
import Aura.Ref.XferHeap

/-!
# The queue in memory is the queue

`Ref.XferHeap` has the pointers of the write side, `Ref.Asyncio` the list they
stand for. Here is what the two have to do with each other at one moment
(`Stands`): the nodes of the queue lead to the chunks of the list, and the
chunks that are in memory count who refers to them. Enqueueing keeps it
(`enqueue_agrees`), and the walk of `aura_async_xfer_handler` keeps it, with the
node it deletes under its own feet and the reference that goes with it
(`handlerOut_agrees`).
-/

namespace Aura.Proofs

open Aura.Lib Aura.Ref

variable {η σ : Type}

/-! ## Counting -/

/-- What the chunk at an address holds. -/
def content (s : XferHeap) (p : ChunkPtr) : Option AuraChunk :=
  (s.chunks p).map ChunkCell.chunk

/-- Chunks are there while they are referred to, and count their references. -/
structure Counted (s : XferHeap) (refs : ChunkPtr → Nat) : Prop where
  live : ∀ {p cell}, s.chunks p = some cell →
    cell.refcnt = refs p ∧ 0 < refs p
  dead : ∀ {p}, s.chunks p = none → refs p = 0
  fits : ∀ p, (refs p : Int) ≤ intMax
  unborn : ∀ {p}, s.fresh ≤ p → s.chunks p = none

section Counted

variable {s : XferHeap} {refs : ChunkPtr → Nat}

theorem Counted.congr (h : Counted s refs) {s' : XferHeap}
    {refs' : ChunkPtr → Nat} (hchunks : s'.chunks = s.chunks)
    (hfresh : s'.fresh = s.fresh) (hrefs : ∀ p, refs' p = refs p) :
    Counted s' refs' := by
  obtain rfl : refs' = refs := funext hrefs
  constructor
  · intro p cell hp
    rw [hchunks] at hp
    exact h.live hp
  · intro p hp
    rw [hchunks] at hp
    exact h.dead hp
  · exact h.fits
  · intro p hp
    rw [hchunks]
    rw [hfresh] at hp
    exact h.unborn hp

theorem Counted.chunkAt (h : Counted s refs) {p : ChunkPtr}
    (hp : 0 < refs p) : ∃ chunk, s.chunkAt p = .ok ⟨chunk, refs p⟩ ∧
      content s p = some chunk := by
  unfold XferHeap.chunkAt content
  cases hcell : s.chunks p with
  | none => exact absurd (h.dead hcell) (Nat.ne_of_gt hp)
  | some cell =>
      obtain ⟨chunk, refcnt⟩ := cell
      obtain rfl : refcnt = refs p := (h.live hcell).1
      exact ⟨chunk, rfl, rfl⟩

/-- The reference counts after one address has changed. -/
theorem Counted.setChunk (h : Counted s refs) {p : ChunkPtr} {n : Nat}
    (cell : Option ChunkCell) (hfits : (n : Int) ≤ intMax)
    (hfresh : p < s.fresh)
    (hcell : ∀ c, cell = some c → c.refcnt = n ∧ 0 < n)
    (hnone : cell = none → n = 0) :
    Counted (s.setChunk p cell) (fun q => if q = p then n else refs q) := by
  constructor
  · intro q c hq
    by_cases hqp : q = p
    · rw [if_pos hqp]
      exact hcell c ((if_pos hqp).symm.trans hq)
    · rw [if_neg hqp]
      exact h.live ((if_neg hqp).symm.trans hq)
  · intro q hq
    by_cases hqp : q = p
    · rw [if_pos hqp]
      exact hnone ((if_pos hqp).symm.trans hq)
    · rw [if_neg hqp]
      exact h.dead ((if_neg hqp).symm.trans hq)
  · intro q
    by_cases hqp : q = p
    · rw [if_pos hqp]
      exact hfits
    · rw [if_neg hqp]
      exact h.fits q
  · intro q hq
    have hqp : q ≠ p := fun he => Nat.not_le_of_lt hfresh (he ▸ hq)
    exact (if_neg hqp).trans (h.unborn hq)

theorem Counted.lt_fresh (h : Counted s refs) {p : ChunkPtr}
    (hp : 0 < refs p) : p < s.fresh := by
  by_contra hge
  exact Nat.ne_of_gt hp (h.dead (h.unborn (Nat.le_of_not_lt hge)))

/-- A reference is dropped: nobody else notices. -/
theorem Counted.put (h : Counted s refs) {p : ChunkPtr} (hp : 0 < refs p) :
    ∃ chunks, s.auraChunkPut p = .ok { s with chunks } ∧
      Counted { s with chunks }
        (fun q => if q = p then refs p - 1 else refs q) ∧
      ∀ q, 0 < (if q = p then refs p - 1 else refs q) →
        content { s with chunks } q = content s q := by
  obtain ⟨chunk, hat, hcontent⟩ := h.chunkAt hp
  have hfits := h.fits p
  have hfresh := h.lt_fresh hp
  have hdec : intArith ((refs p : Int) - 1) = .ok ((refs p : Int) - 1) :=
    intArith_of_mem (by unfold intMax; omega) (by omega)
  have hcast : ((refs p - 1 : Nat) : Int) = (refs p : Int) - 1 := by omega
  unfold XferHeap.auraChunkPut
  rw [hat, ok_bind, hdec, ok_bind]
  by_cases hlast : refs p = 1
  · have hzero : (0 : Int) = (refs p : Int) - 1 := by omega
    rw [if_pos hzero]
    have hfree : (s.setChunk p (some ⟨chunk, (refs p : Int) - 1⟩)).chunkAt p =
        .ok ⟨chunk, (refs p : Int) - 1⟩ := by
      rw [XferHeap.chunkAt, XferHeap.setChunk]
      simp
    refine ⟨fun q => if q = p then none else s.chunks q, ?_, ?_, ?_⟩
    · rw [XferHeap.auraChunkFree, hfree, ok_bind]
      simp only [XferHeap.setChunk, pure_eq_ok]
      congr 2
      funext q
      split_ifs <;> rfl
    · exact h.setChunk none (by omega) hfresh
        (fun c hc => absurd hc.symm (Option.some_ne_none c))
        (fun _ => by omega)
    · intro q hq
      by_cases hqp : q = p
      · rw [if_pos hqp] at hq
        omega
      · unfold content
        simp only [if_neg hqp]
  · rw [if_neg (by omega)]
    refine ⟨_, rfl, ?_, fun q _ => ?_⟩
    · refine h.setChunk _ (by omega) hfresh ?_ ?_
      · intro c hc
        cases hc
        exact ⟨hcast.symm, by omega⟩
      · intro hc
        cases hc
    · by_cases hqp : q = p
      · subst hqp
        rw [hcontent]
        simp [content]
      · simp only [content, if_neg hqp]

end Counted

section Counted

variable {s : XferHeap} {refs : ChunkPtr → Nat}

/-- One reference more. -/
theorem Counted.get (h : Counted s refs) {p : ChunkPtr} (hp : 0 < refs p)
    (hroom : (refs p : Int) < intMax) :
    ∃ chunks, s.auraChunkGet p = .ok { s with chunks } ∧
      Counted { s with chunks }
        (fun q => if q = p then refs p + 1 else refs q) ∧
      ∀ q, content { s with chunks } q = content s q := by
  obtain ⟨chunk, hat, hcontent⟩ := h.chunkAt hp
  have hinc : intArith ((refs p : Int) + 1) = .ok ((refs p : Int) + 1) :=
    intArith_of_mem (by unfold intMax; omega) (by omega)
  unfold XferHeap.auraChunkGet
  rw [hat, ok_bind, hinc, ok_bind]
  refine ⟨_, rfl, ?_, ?_⟩
  · refine h.setChunk _ (by omega) (h.lt_fresh hp) ?_ ?_
    · intro c hc
      cases hc
      exact ⟨(Int.natCast_succ _).symm, Nat.succ_pos _⟩
    · intro hc
      cases hc
  · intro q
    by_cases hqp : q = p
    · subst hqp
      rw [hcontent]
      simp [content]
    · unfold content
      simp only [if_neg hqp]

/-- A chunk nobody has seen before, with its first reference. -/
theorem Counted.allocate (h : Counted s refs) (chunk : AuraChunk) :
    Counted (s.auraChunkAllocate chunk)
      (fun q => if q = s.fresh then 1 else refs q) := by
  constructor
  · intro q cell hq
    by_cases hqf : q = s.fresh
    · rw [if_pos hqf]
      cases (if_pos hqf).symm.trans hq
      exact ⟨rfl, Nat.one_pos⟩
    · rw [if_neg hqf]
      exact h.live ((if_neg hqf).symm.trans hq)
  · intro q hq
    by_cases hqf : q = s.fresh
    · cases (if_pos hqf).symm.trans hq
    · rw [if_neg hqf]
      exact h.dead ((if_neg hqf).symm.trans hq)
  · intro q
    by_cases hqf : q = s.fresh
    · rw [if_pos hqf]
      decide
    · rw [if_neg hqf]
      exact h.fits q
  · intro q hq
    have hle : s.fresh + 1 ≤ q := hq
    have hne : q ≠ s.fresh := Nat.ne_of_gt hle
    exact (if_neg hne).trans (h.unborn (Nat.le_of_succ_le hle))

end Counted

/-! ## The queue -/

/-- The references a queue of nodes has. -/
def queueRefs (s : XferHeap) (ks : List Nat) (p : ChunkPtr) : Nat :=
  (ks.map s.chunkOf).count p

/-- A queue in memory: the nodes `ks`, with the chunks `cs`, where `base`
counts who else refers to chunks. -/
structure Holds (base : ChunkPtr → Nat) (s : XferHeap) (ks : List Nat)
    (cs : List AuraChunk) : Prop where
  ring : Ring s.links .transferlist (ks.map .node)
  below : ∀ k ∈ ks, k < s.nodes
  chunks : ks.map (fun k => content s (s.chunkOf k)) = cs.map some
  counted : Counted s (fun p => base p + queueRefs s ks p)

theorem Holds.length_eq {base : ChunkPtr → Nat} {s : XferHeap}
    {ks : List Nat} {cs : List AuraChunk} (h : Holds base s ks cs) :
    ks.length = cs.length := by
  have hlen := congrArg List.length h.chunks
  rwa [List.length_map, List.length_map] at hlen

/-- No node is on the queue twice, so the queue is no longer than the nodes are
many. -/
theorem Holds.nodes_le {base : ChunkPtr → Nat} {s : XferHeap} {ks : List Nat}
    {cs : List AuraChunk} (h : Holds base s ks cs) : ks.length ≤ s.nodes := by
  have hnd : ks.Nodup := List.Nodup.of_map _ (List.nodup_cons.mp h.ring.1).2
  have hsub : ks ⊆ List.range s.nodes := fun k hk =>
    List.mem_range.mpr (h.below k hk)
  have hle := (List.subperm_of_subset hnd hsub).length_le
  rwa [List.length_range] at hle

theorem queueRefs_middle (s : XferHeap) (kept rest : List Nat) (k : Nat)
    (p : ChunkPtr) :
    queueRefs s (kept ++ k :: rest) p =
      queueRefs s (kept ++ rest) p + if p = s.chunkOf k then 1 else 0 := by
  unfold queueRefs
  simp only [List.map_append, List.map_cons, List.count_append,
    List.count_cons, beq_iff_eq, eq_comm (a := p)]
  omega

theorem queueRefs_pos {s : XferHeap} {ks : List Nat} {k : Nat} (hk : k ∈ ks) :
    0 < queueRefs s ks (s.chunkOf k) :=
  List.count_pos_iff.mpr (List.mem_map_of_mem hk)

section Holds

variable {base : ChunkPtr → Nat} {s : XferHeap} {kept rest : List Nat}
  {k : Nat} {cs₁ cs₂ : List AuraChunk} {c : AuraChunk}

/-- What a node in the middle of the queue leads to. -/
theorem Holds.node (h : Holds base s (kept ++ k :: rest) (cs₁ ++ c :: cs₂))
    (hlen : kept.length = cs₁.length) :
    kept.map (fun k => content s (s.chunkOf k)) = cs₁.map some ∧
      (∃ n, s.chunkAt (s.chunkOf k) = .ok ⟨c, n⟩) ∧
      rest.map (fun k => content s (s.chunkOf k)) = cs₂.map some := by
  have hchunks := h.chunks
  rw [List.map_append, List.map_append, List.map_cons, List.map_cons] at hchunks
  obtain ⟨h₁, h₂⟩ := List.append_inj hchunks (by
    rw [List.length_map, List.length_map, hlen])
  obtain ⟨hk, h₂⟩ := List.cons.inj h₂
  refine ⟨h₁, ?_, h₂⟩
  have hpos : 0 < base (s.chunkOf k) +
      queueRefs s (kept ++ k :: rest) (s.chunkOf k) :=
    Nat.add_pos_right _
      (queueRefs_pos (List.mem_append_right _ (.head _)))
  obtain ⟨chunk, hat, hcontent⟩ := h.counted.chunkAt hpos
  rw [hcontent] at hk
  cases hk
  exact ⟨_, hat⟩

/-- A queue whose own chunks stay as they are. -/
theorem Holds.rechunk {ks : List Nat} {cs : List AuraChunk}
    (h : Holds base s ks cs) {base' : ChunkPtr → Nat} {s' : XferHeap}
    (hlinks : s'.links = s.links) (hnodes : s'.nodes = s.nodes)
    (hchunkOf : s'.chunkOf = s.chunkOf)
    (hcontent : ∀ p, 0 < queueRefs s ks p → content s' p = content s p)
    (hcounted : Counted s' (fun p => base' p + queueRefs s ks p)) :
    Holds base' s' ks cs := by
  refine ⟨?_, ?_, ?_, ?_⟩
  · rw [hlinks]
    exact h.ring
  · rw [hnodes]
    exact h.below
  · rw [hchunkOf, ← h.chunks]
    exact List.map_congr_left fun k hk => hcontent _ (queueRefs_pos hk)
  · unfold queueRefs at hcounted ⊢
    rw [hchunkOf]
    exact hcounted

/-- Nothing of a queue depends on the offset and the hook. -/
theorem Holds.frame {ks : List Nat} {cs : List AuraChunk}
    (h : Holds base s ks cs) (pos : Nat) (hook : AuraEpollHook) :
    Holds base { s with pos, hook } ks cs :=
  ⟨h.ring, h.below, h.chunks, h.counted.congr rfl rfl fun _ => rfl⟩

/-- A node that is through: its reference goes, then the node. -/
theorem Holds.remove (h : Holds base s (kept ++ k :: rest) (cs₁ ++ c :: cs₂))
    (hlen : kept.length = cs₁.length) :
    ∃ chunks links, s.auraChunkPut (s.chunkOf k) = .ok { s with chunks } ∧
      listDel (.node k) s.links = .ok links ∧
      Holds base { s with chunks, links } (kept ++ rest) (cs₁ ++ cs₂) := by
  obtain ⟨h₁, -, h₂⟩ := h.node hlen
  have hpos : 0 < base (s.chunkOf k) +
      queueRefs s (kept ++ k :: rest) (s.chunkOf k) :=
    Nat.add_pos_right _
      (queueRefs_pos (List.mem_append_right _ (.head _)))
  obtain ⟨chunks, hput, hcounted, hkeep⟩ := h.counted.put hpos
  have hring := h.ring
  rw [List.map_append, List.map_cons] at hring
  obtain ⟨links, hdel, hring⟩ := listDel_ring hring
  have hrefs : ∀ p, base p + queueRefs s (kept ++ rest) p =
      if p = s.chunkOf k then
        base (s.chunkOf k) + queueRefs s (kept ++ k :: rest) (s.chunkOf k) - 1
      else base p + queueRefs s (kept ++ k :: rest) p := by
    intro p
    by_cases hp : p = s.chunkOf k
    · subst hp
      rw [if_pos rfl, queueRefs_middle, if_pos rfl]
      omega
    · rw [if_neg hp, queueRefs_middle, if_neg hp, Nat.add_zero]
  refine ⟨chunks, links, hput, hdel, ?_, ?_, ?_, ?_⟩
  · rw [List.map_append]
    exact hring
  · intro j hj
    refine h.below j ?_
    rcases List.mem_append.mp hj with hj | hj
    · exact List.mem_append_left _ hj
    · exact List.mem_append_right _ (.tail _ hj)
  · have hsame : ∀ j ∈ kept ++ rest,
        content { s with chunks } (s.chunkOf j) = content s (s.chunkOf j) := by
      intro j hj
      refine hkeep _ ?_
      rw [← hrefs]
      exact Nat.add_pos_right _ (queueRefs_pos hj)
    calc (kept ++ rest).map (fun k => content { s with chunks } (s.chunkOf k))
        = (kept ++ rest).map (fun k => content s (s.chunkOf k)) :=
          List.map_congr_left hsame
      _ = (cs₁ ++ cs₂).map some := by
          rw [List.map_append, List.map_append, h₁, h₂]
  · exact hcounted.congr rfl rfl hrefs

end Holds

/-- The list is empty in memory when it is empty. -/
theorem Holds.listEmpty_eq {ks : List Nat} {cs : List AuraChunk}
    (h : Holds base s ks cs) : listEmpty .transferlist s.links = cs.isEmpty := by
  rw [Bool.eq_iff_iff, listEmpty_ring h.ring, List.map_eq_nil_iff,
    ← List.length_eq_zero_iff, h.length_eq, List.length_eq_zero_iff,
    List.isEmpty_iff]

/-! ## The walk -/

theorem sent_append_assoc (a b c : Sent) :
    (a.append b).append c = a.append (b.append c) := by
  simp only [Sent.append, List.append_assoc]

theorem sent_append_nothing (a : Sent) : a.append .nothing = a := by
  simp only [Sent.append, Sent.nothing, List.append_nil]

/-- What a walk leaves alone. -/
def WalkFrame (s s' : XferHeap) : Prop :=
  ∃ links chunks pos hook, s' = { s with links, chunks, pos, hook }

theorem WalkFrame.trans {s s' s'' : XferHeap} (h : WalkFrame s s')
    (h' : WalkFrame s' s'') : WalkFrame s s'' := by
  obtain ⟨_, _, _, _, rfl⟩ := h
  obtain ⟨links, chunks, pos, hook, rfl⟩ := h'
  exact ⟨links, chunks, pos, hook, rfl⟩

/-- Memory `s` with the queue `ks` is the transfer object `x`, whose queue holds
`cs`. -/
structure Stands (base : ChunkPtr → Nat) (s : XferHeap) (ks : List Nat)
    (cs : List AuraChunk) (x : AuraAsyncXfer η σ) : Prop where
  holds : Holds base s ks cs
  pos : x.pos = s.pos
  hook : x.hook = s.hook

/-- A chunk that is through is taken off the queue, and what becomes of the hook
is left to the walk. -/
theorem Stands.through {base : ChunkPtr → Nat} {s : XferHeap}
    {kept rest : List Nat} {k : Nat} {cs₁ cs₂ : List AuraChunk} {c : AuraChunk}
    {x : AuraAsyncXfer η σ}
    (hst : Stands base s (kept ++ k :: rest) (cs₁ ++ c :: cs₂) x)
    (hlen : kept.length = cs₁.length) (pos : Nat) :
    ∃ chunks links,
      { s with pos }.auraChunkPut (s.chunkOf k) = .ok { s with pos, chunks } ∧
      listDel (.node k) s.links = .ok links ∧
      listEmpty .transferlist links = (cs₁ ++ cs₂).isEmpty ∧
      ∀ hook hook', hook' = hook →
        Stands base { s with chunks, links, hook, pos := 0 }
          (kept ++ rest) (cs₁ ++ cs₂) { x with pos := 0, hook := hook' } := by
  obtain ⟨chunks, links, hput, hdel, hholds⟩ :=
    (hst.holds.frame pos s.hook).remove hlen
  exact ⟨chunks, links, hput, hdel, hholds.listEmpty_eq,
    fun hook _ hsame => ⟨hholds.frame 0 hook, rfl, hsame⟩⟩

/-- A walk in memory, from `t`, that does what a walk of the list has done. -/
def WalkAgrees (base : ChunkPtr → Nat) (t : WriteWalk) (r : Res WriteWalk) :
    Res (Sent × AuraAsyncXfer η σ × EpollSet) → Prop
  | .error e => r = .error e
  | .ok (sent, x, efd) =>
      ∃ t' ks, r = .ok t' ∧ t'.sent = t.sent.append sent ∧ t'.efd = efd ∧
        Stands base t'.heap ks x.transferlist x ∧ WalkFrame t.heap t'.heap

/-- A turn that has sent something, and what the rest of the walk adds. -/
theorem WalkAgrees.after {base : ChunkPtr → Nat} {t t₁ : WriteWalk}
    {r : Res WriteWalk} {l : Res (Sent × AuraAsyncXfer η σ × EpollSet)}
    {sent : Sent} (h : WalkAgrees base t₁ r l)
    (hsent : t₁.sent = t.sent.append sent)
    (hframe : WalkFrame t.heap t₁.heap) :
    WalkAgrees base t r
      (l >>= fun p => pure (sent.append p.1, p.2.1, p.2.2)) := by
  cases l with
  | error e => exact h
  | ok p =>
      obtain ⟨t', ks, hr, hs, hefd, hstands, hf⟩ := h
      refine ⟨t', ks, hr, ?_, hefd, hstands, hframe.trans hf⟩
      rw [hs, hsent, sent_append_assoc]

/-- The walk over the nodes is the walk over the chunks. -/
theorem safeLoop_agrees (ctl : Bool) (base : ChunkPtr → Nat) :
    ∀ (rest kept : List Nat) (cs₁ cs₂ : List AuraChunk) (t : WriteWalk)
      (x : AuraAsyncXfer η σ) (fuel : Nat) (pos : QueueAddr),
      Stands base t.heap (kept ++ rest) (cs₁ ++ cs₂) x →
      kept.length = cs₁.length → rest.length < fuel →
      (rest.map QueueAddr.node ++ [QueueAddr.transferlist]).head? = some pos →
      WalkAgrees base t
        (safeLoop (fun t => t.heap.links) (writeTurn ctl) .transferlist fuel
          pos (t.heap.links.next pos) t)
        (writeLoop ctl cs₁ cs₂ t.ws t.efd x) := by
  intro rest
  induction rest with
  | nil =>
      intro kept cs₁ cs₂ t x fuel pos hst hlen hfuel hpos
      obtain ⟨fuel, rfl⟩ := Nat.exists_eq_add_of_lt hfuel
      cases hpos
      obtain rfl : cs₂ = [] := by
        have hall := hst.holds.length_eq
        rw [List.append_nil, List.length_append] at hall
        exact List.eq_nil_of_length_eq_zero (by omega)
      rw [safeLoop, if_pos rfl, writeLoop]
      refine ⟨t, kept, rfl, (sent_append_nothing _).symm, rfl, ⟨?_, hst.pos,
        hst.hook⟩, _, _, _, _, rfl⟩
      have hholds := hst.holds
      rwa [List.append_nil, List.append_nil] at hholds
  | cons k rest ih =>
      intro kept cs₁ cs₂ t x fuel pos hst hlen hfuel hpos
      obtain ⟨fuel, rfl⟩ : ∃ f, fuel = f + 1 := ⟨fuel - 1, by omega⟩
      cases hpos
      obtain ⟨c, cs₂, rfl⟩ : ∃ c cs, cs₂ = c :: cs := by
        have hall := hst.holds.length_eq
        rw [List.length_append, List.length_append, List.length_cons] at hall
        exact List.exists_cons_of_length_pos (by omega)
      obtain ⟨-, ⟨n, hat⟩, -⟩ := hst.holds.node hlen
      have hring := hst.holds.ring
      rw [List.map_append, List.map_cons] at hring
      obtain ⟨-, next, -, hnext, -, hlink⟩ := hring.around
      have hfuel' : rest.length < fuel := Nat.lt_of_succ_lt_succ hfuel
      have hne : QueueAddr.node k ≠ .transferlist := by simp
      -- the node stays where it is, and the walk goes on behind it
      have hstay : ∀ (t₁ : WriteWalk) (x₁ : AuraAsyncXfer η σ),
          Stands base t₁.heap (kept ++ k :: rest) (cs₁ ++ c :: cs₂) x₁ →
          WalkAgrees base t₁
            (safeLoop (fun t => t.heap.links) (writeTurn ctl) .transferlist
              fuel next (t₁.heap.links.next next) t₁)
            (writeLoop ctl (cs₁ ++ [c]) cs₂ t₁.ws t₁.efd x₁) := by
        intro t₁ x₁ hst₁
        refine ih (kept ++ [k]) (cs₁ ++ [c]) cs₂ t₁ x₁ fuel next ?_ ?_ hfuel'
          hnext
        · rw [List.append_assoc, List.append_assoc]
          exact hst₁
        · rw [List.length_append, List.length_append, hlen]
          rfl
      rw [safeLoop, if_neg hne, hlink, writeLoop, writeTurn, hat, ok_bind]
      cases hw : t.ws.headD .eagain with
      | eagain =>
          refine ⟨t, kept ++ k :: rest, rfl, (sent_append_nothing _).symm, rfl,
            ⟨hst.holds, hst.pos, hst.hook⟩, _, _, _, _, rfl⟩
      | failed =>
          have hrest := hstay { t with ws := t.ws.tail } x
            ⟨hst.holds, hst.pos, hst.hook⟩
          exact hrest
      | wrote k' =>
          simp only [hst.pos]
          generalize min k' (sizeT (c.size - t.heap.pos)) = m
          by_cases hout : 0 < m ∧ c.alloc < t.heap.pos + m
          · rw [if_pos hout, if_pos hout]
            exact rfl
          · rw [if_neg hout, if_neg hout]
            by_cases hdone : c.size = t.heap.pos + m
            · -- the chunk is through
              obtain ⟨chunks, links, hput, hdel, hempty, hthrough⟩ :=
                hst.through hlen (t.heap.pos + m)
              simp only [if_pos hdone, hput, ok_bind, hdel, pure_eq_ok, hempty]
              by_cases hlast : (cs₁ ++ cs₂).isEmpty = true
              · simp only [if_pos hlast, hst.hook]
                have hrest := ih kept cs₁ cs₂
                  ⟨_, (auraEpollout ctl t.efd t.heap.hook false).2.2, t.ws.tail,
                    t.sent.append ⟨(c.data.drop t.heap.pos).take m, [c]⟩⟩ _
                  fuel next
                  (hthrough (auraEpollout ctl t.efd t.heap.hook false).2.1 _ rfl)
                  hlen hfuel' hnext
                exact hrest.after rfl ⟨_, _, _, _, rfl⟩
              · simp only [if_neg hlast, Bool.false_eq_true, if_false]
                have hrest := ih kept cs₁ cs₂ ⟨_, t.efd, t.ws.tail,
                  t.sent.append ⟨(c.data.drop t.heap.pos).take m, [c]⟩⟩ _ fuel
                  next (hthrough _ _ hst.hook) hlen hfuel' hnext
                exact hrest.after rfl ⟨_, _, _, _, rfl⟩
            · have hsome : ¬ listEmpty .transferlist t.heap.links = true := by
                rw [listEmpty_ring hst.holds.ring]
                simp
              simp only [if_neg hdone, ok_bind, pure_eq_ok, if_neg hsome,
                Bool.false_eq_true, if_false]
              have hrest := hstay ⟨{ t.heap with pos := t.heap.pos + m },
                t.efd, t.ws.tail,
                t.sent.append ⟨(c.data.drop t.heap.pos).take m, []⟩⟩
                { x with pos := t.heap.pos + m }
                ⟨hst.holds.frame _ t.heap.hook, rfl, hst.hook⟩
              exact hrest.after rfl ⟨_, _, _, _, rfl⟩

/-- The walk starts at the first node, with fuel for all of them. -/
theorem handlerOut_agrees (ctl : Bool) (ws : List WriteResult)
    (efd : EpollSet) {base : ChunkPtr → Nat} {s : XferHeap} {ks : List Nat}
    {x : AuraAsyncXfer η σ}
    (hst : Stands base s ks x.transferlist x) :
    WalkAgrees base ⟨s, efd, ws, .nothing⟩
      (s.auraAsyncXferHandlerOut ctl ws efd)
      (auraAsyncXferHandlerOut ctl ws efd x) := by
  have hring := hst.holds.ring
  obtain ⟨-, first, -, hfirst, -, hnext⟩ := hring.ends
  have hfuel := hst.holds.nodes_le
  unfold XferHeap.auraAsyncXferHandlerOut listForEachSafe
  simp only [hnext]
  exact safeLoop_agrees ctl base ks [] [] x.transferlist
    ⟨s, efd, ws, .nothing⟩ x (s.nodes + 1) first hst rfl
    (Nat.lt_succ_of_le hfuel) hfirst

/-! ## Enqueueing -/

/-- What enqueueing leaves alone. -/
def EnqueueFrame (s s' : XferHeap) : Prop :=
  ∃ links nodes chunkOf hook, s' = { s with links, nodes, chunkOf, hook }

/-- A new node behind the others, whatever becomes of the hook. -/
theorem Holds.enqueue {base base' : ChunkPtr → Nat} {s : XferHeap}
    {ks : List Nat} {cs : List AuraChunk} (h : Holds base s ks cs)
    {p : ChunkPtr} {chunk : AuraChunk} (hchunk : content s p = some chunk)
    (hbase : ∀ q, base q = base' q + if q = p then 1 else 0)
    (hook : AuraEpollHook) :
    ∃ links,
      listAddTail (.node s.nodes) .transferlist s.links = .ok links ∧
      Holds base' { s with
          links, hook
          nodes := s.nodes + 1
          chunkOf := fun k => if k = s.nodes then p else s.chunkOf k }
        (ks ++ [s.nodes]) (cs ++ [chunk]) := by
  have hnew : QueueAddr.node s.nodes ∉
      QueueAddr.transferlist :: ks.map .node := by
    intro hin
    rcases List.mem_cons.mp hin with heq | hin
    · cases heq
    · obtain ⟨k, hk, heq⟩ := List.mem_map.mp hin
      cases heq
      exact Nat.lt_irrefl _ (h.below _ hk)
  obtain ⟨links, hadd, hring⟩ := listAddTail_ring h.ring hnew
  have hold : ∀ k ∈ ks,
      (if k = s.nodes then p else s.chunkOf k) = s.chunkOf k := fun k hk =>
    if_neg (Nat.ne_of_lt (h.below k hk))
  refine ⟨links, hadd, ⟨?_, ?_, ?_, ?_⟩⟩
  · rw [List.map_append]
    exact hring
  · intro k hk
    rcases List.mem_append.mp hk with hk | hk
    · exact Nat.lt_succ_of_lt (h.below k hk)
    · rw [List.mem_singleton.mp hk]
      exact Nat.lt_succ_self _
  · rw [List.map_append, List.map_append, ← h.chunks]
    congr 1
    · refine List.map_congr_left fun k hk => ?_
      simp only [hold k hk]
      rfl
    · simp only [List.map_cons, List.map_nil, if_true, ← hchunk]
      rfl
  · refine h.counted.congr rfl rfl fun q => ?_
    have hcount : queueRefs { s with
          links, hook
          nodes := s.nodes + 1
          chunkOf := fun k => if k = s.nodes then p else s.chunkOf k }
        (ks ++ [s.nodes]) q =
        queueRefs s ks q + if q = p then 1 else 0 := by
      unfold queueRefs
      rw [List.map_append, List.count_append, List.map_congr_left hold]
      simp only [List.map_cons, List.map_nil, if_true, List.count_singleton,
        beq_iff_eq, eq_comm (a := p)]
    rw [hcount, hbase q]
    omega

/-- A queue in memory takes a chunk somebody refers to when the list does. The
reference is one the others do not count any more. -/
theorem enqueue_agrees (ctl mem : Bool) (efd : EpollSet)
    {base base' : ChunkPtr → Nat} {s : XferHeap} {ks : List Nat}
    {x : AuraAsyncXfer η σ} {p : ChunkPtr} {chunk : AuraChunk}
    (hst : Stands base s ks x.transferlist x)
    (hchunk : content s p = some chunk)
    (hbase : ∀ q, base q = base' q + if q = p then 1 else 0) :
    ∃ ret s' efd', s.auraAsyncEnqueueChunk ctl mem p efd =
        .ok (ret, s', efd') ∧
      (auraAsyncEnqueueChunk ctl mem efd x chunk).1 = ret ∧
      (auraAsyncEnqueueChunk ctl mem efd x chunk).2.2 = efd' ∧
      EnqueueFrame s s' ∧ content s' p = some chunk ∧
      (if ret = 0 then s'.nodes = s.nodes + 1 ∧
          Stands base' s' (ks ++ [s.nodes])
            (auraAsyncEnqueueChunk ctl mem efd x chunk).2.1.transferlist
            (auraAsyncEnqueueChunk ctl mem efd x chunk).2.1
        else s'.nodes = s.nodes ∧
          Stands base s' ks
            (auraAsyncEnqueueChunk ctl mem efd x chunk).2.1.transferlist
            (auraAsyncEnqueueChunk ctl mem efd x chunk).2.1) := by
  have hholds := hst.holds
  have hempty := hholds.listEmpty_eq
  obtain ⟨cell, hcell, -⟩ : ∃ cell, s.chunks p = some cell ∧ _ :=
    Option.map_eq_some_iff.mp hchunk
  generalize henq : auraAsyncEnqueueChunk ctl mem efd x chunk = r
  obtain ⟨ret, x', efd'⟩ := r
  have henq := auraAsyncEnqueueChunk_enqueued henq
  unfold XferHeap.auraAsyncEnqueueChunk
  cases henq with
  | refused hq =>
      refine ⟨1, { s with hook := (wanting x).hook }, efd, ?_, rfl, rfl,
        ⟨_, _, _, _, rfl⟩, hchunk, ?_⟩
      · simp only [hempty, hq, List.isEmpty_nil, if_true,
          XferHeap.auraEpollout, auraEpollout, ← hst.hook, wanting]
        rfl
      · exact ⟨rfl, hholds.frame _ _, hst.pos, rfl⟩
  | nodeless hq =>
      refine ⟨-12, { s with hook := (wanting x).hook },
        registered efd (wanting x).hook, ?_, rfl, rfl, ⟨_, _, _, _, rfl⟩,
        hchunk, ?_⟩
      · simp only [hempty, hq, List.isEmpty_nil, if_true,
          XferHeap.auraEpollout, auraEpollout, ← hst.hook, wanting]
        rfl
      · exact ⟨rfl, hholds.frame _ _, hst.pos, rfl⟩
  | first hq =>
      obtain ⟨links, hadd, hqueued⟩ :=
        hholds.enqueue hchunk hbase (wanting x).hook
      refine ⟨0, _, registered efd (wanting x).hook, ?_, rfl, rfl,
        ⟨_, _, _, _, rfl⟩, ?_, rfl, hqueued, hst.pos, rfl⟩
      · simp only [hempty, hq, List.isEmpty_nil, if_true,
          XferHeap.auraEpollout, auraEpollout, ← hst.hook, wanting, hadd,
          ok_bind, XferHeap.chunkAt, hcell]
        rfl
      · exact hchunk
  | dropped hq =>
      refine ⟨-12, s, efd, ?_, rfl, rfl, ⟨_, _, _, _, rfl⟩, hchunk, ?_⟩
      · simp only [hempty, List.isEmpty_iff, if_neg hq]
        rfl
      · exact ⟨rfl, hholds, hst.pos, hst.hook⟩
  | next hq =>
      obtain ⟨links, hadd, hqueued⟩ := hholds.enqueue hchunk hbase s.hook
      refine ⟨0, _, efd, ?_, rfl, rfl, ⟨_, _, _, _, rfl⟩, ?_, rfl, hqueued,
        hst.pos, hst.hook⟩
      · simp only [hempty, List.isEmpty_iff, if_neg hq, hadd, ok_bind,
          XferHeap.chunkAt, hcell]
        rfl
      · exact hchunk

end Aura.Proofs
