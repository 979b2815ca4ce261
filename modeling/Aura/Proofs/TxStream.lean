import Aura.Proofs.Queue
import Aura.Spec.Pipe

/-!
# The transmit queue and the pipe it should be

Chunks are queued, `EPOLLOUT` drains them, and the bytes that reach the
descriptor ought to be the chunks' payloads one after the other. One offset
serves the whole queue, and that is sound as long as it belongs to the chunk
at the head. The walk of `aura_async_xfer_handler` does not see to it: after a
write that took less than it was offered, or failed with anything but
`EAGAIN`, it goes on to the next chunk with the offset of the one it leaves
behind.

So the queue is a pipe exactly while that does not happen. `orderly` says of
one walk that once a write fell short nothing more is accepted in it; under
`orderly`, enqueueing pushes and a walk drains (`txStep_simulates`), and the
stream is intact in every state of every such run.
-/

namespace Aura.Proofs

open Aura.Lib Aura.Ref Aura.Spec

variable {η σ : Type}

/-! ## Runs of the write side -/

/-- A transfer object with the history of its write side: the chunks enqueued
(with return code 0), the bytes the descriptor accepted, and the chunks that
left the list. -/
structure TxState (η σ : Type) where
  xfer : AuraAsyncXfer η σ
  efd : EpollSet
  enqueued : List AuraChunk
  wire : List UInt8
  gone : List AuraChunk

inductive TxEvent
  | enqueue (chunk : AuraChunk) (ctl mem : Bool)
  | epollout (ws : List WriteResult) (ctl : Bool)

def txStep (t : TxState η σ) : TxEvent → Res (TxState η σ)
  | .enqueue chunk ctl mem =>
      let (ret, xfer, efd) := auraAsyncEnqueueChunk ctl mem t.efd t.xfer chunk
      pure { t with
        xfer, efd
        enqueued := if ret = 0 then t.enqueued ++ [chunk] else t.enqueued }
  | .epollout ws ctl => do
      let (sent, xfer, efd) ← auraAsyncXferHandlerOut ctl ws t.efd t.xfer
      pure { t with
        xfer, efd
        wire := t.wire ++ sent.bytes
        gone := t.gone ++ sent.chunks }

/-- Nothing queued, nothing sent: how `aura_create_async_xfer` leaves it. -/
structure TxState.Fresh (t : TxState η σ) : Prop where
  queue : t.xfer.transferlist = []
  pos : t.xfer.pos = 0
  enqueued : t.enqueued = []
  wire : t.wire = []
  gone : t.gone = []

/-- What `struct aura_chunk` promises: its used bytes are inside its block,
and the block is no longer than an `int` counts. -/
def WfChunk (c : AuraChunk) : Prop :=
  c.size ≤ c.alloc ∧ (c.alloc : Int) ≤ intMax

/-- The chunks handed to the queue are chunks. -/
def enqueuesChunks (_ : TxState η σ) : TxEvent → Prop
  | .enqueue chunk _ _ => WfChunk chunk
  | .epollout _ _ => True

/-- Integrity of the stream. The descriptor has accepted the beginning of what
was enqueued, in order; the chunks that left the list are the first ones
enqueued, and all their bytes are among those accepted. -/
structure StreamIntact (t : TxState η σ) : Prop where
  ordered : t.wire <+: t.enqueued.flatMap AuraChunk.payload
  queue : t.enqueued = t.gone ++ t.xfer.transferlist
  accepted : t.gone.flatMap AuraChunk.payload <+: t.wire

/-! ## The walks that keep the offset where it belongs -/

/-- The rest of a walk accepts nothing and takes nothing off the list. -/
def quiet : Nat → List AuraChunk → List WriteResult → Bool
  | _, [], _ => true
  | pos, chunk :: rest, ws =>
      match ws.headD .eagain with
      | .eagain => true
      | .failed => quiet pos rest ws.tail
      | .wrote k =>
          min k (sizeT (chunk.size - pos)) = 0 && chunk.size ≠ pos &&
            quiet pos rest ws.tail

/-- Every write takes all it was offered, up to the first that does not; from
there on the walk is quiet. -/
def orderly : Nat → List AuraChunk → List WriteResult → Bool
  | _, [], _ => true
  | pos, chunk :: rest, ws =>
      match ws.headD .eagain with
      | .eagain => true
      | .failed => quiet pos rest ws.tail
      | .wrote k =>
          if chunk.size ≤ pos + k then orderly 0 rest ws.tail
          else quiet (pos + k) rest ws.tail

/-- The condition on one event: chunks are chunks and walks are orderly. -/
def txOrderly (t : TxState η σ) : TxEvent → Prop
  | .enqueue chunk _ _ => WfChunk chunk
  | .epollout ws _ => orderly t.xfer.pos t.xfer.transferlist ws = true

theorem writeLoop_quiet (ctl : Bool) :
    ∀ (rest kept : List AuraChunk) (ws : List WriteResult) (efd : EpollSet)
      (x : AuraAsyncXfer η σ), quiet x.pos rest ws = true →
      writeLoop ctl kept rest ws efd x =
        .ok (.nothing, { x with transferlist := kept ++ rest }, efd) := by
  intro rest
  induction rest with
  | nil =>
      intro kept ws efd x _
      rw [writeLoop, List.append_nil, pure_eq_ok]
  | cons chunk rest ih =>
      intro kept ws efd x h
      rw [quiet] at h
      rw [writeLoop]
      generalize ws.headD .eagain = w at h ⊢
      cases w with
      | eagain => rfl
      | failed =>
          dsimp only at h ⊢
          rw [ih (kept ++ [chunk]) ws.tail efd x h, List.append_assoc]
          rfl
      | wrote k =>
          simp only [Bool.and_eq_true, decide_eq_true_eq] at h
          obtain ⟨⟨hzero, hne⟩, hq⟩ := h
          simp only [hzero, Nat.lt_irrefl, false_and, if_false, Nat.add_zero,
            if_neg hne, List.take_zero]
          rw [ih (kept ++ [chunk]) ws.tail efd x hq, List.append_assoc]
          rfl

/-- The offset belongs to the head of the queue. -/
def HeadPos (pos : Nat) : List AuraChunk → Prop
  | [] => pos = 0
  | chunk :: _ => pos ≤ chunk.size

/-- The bytes a queue still has to send. -/
def unsent (pos : Nat) (queue : List AuraChunk) : List UInt8 :=
  (queue.flatMap AuraChunk.payload).drop pos

theorem WfChunk.length_payload {c : AuraChunk} (h : WfChunk c) :
    c.payload.length = c.size := by
  rw [AuraChunk.payload, List.length_take]
  exact Nat.min_eq_left h.1

/-- Inside the payload, a slice of the block is a slice of the payload. -/
theorem slice_payload {c : AuraChunk} {pos n : Nat}
    (h : pos + n ≤ c.size) :
    (c.data.drop pos).take n = (c.payload.drop pos).take n := by
  rw [AuraChunk.payload, List.drop_take, List.take_take,
    Nat.min_eq_left (by omega)]

theorem unsent_cons {chunk : AuraChunk} (hwf : WfChunk chunk) {pos : Nat}
    (hpos : pos ≤ chunk.size) (rest : List AuraChunk) :
    unsent pos (chunk :: rest) = chunk.payload.drop pos ++ unsent 0 rest := by
  rw [unsent, List.flatMap_cons, List.drop_append_of_le_length
    (by rw [hwf.length_payload]; exact hpos)]
  rfl

/-- The kernel is offered exactly the rest of a well-formed head. -/
theorem WfChunk.offered {chunk : AuraChunk} (hwf : WfChunk chunk) {pos : Nat}
    (hpos : pos ≤ chunk.size) :
    sizeT (chunk.size - pos) = chunk.size - pos := by
  obtain ⟨hsize, hmax⟩ := hwf
  have hrest : ((chunk.size - pos : Nat) : Int) ≤ intMax := by omega
  rw [← Int.ofNat_sub hpos]
  exact sizeT_natCast hrest

/-- Some of the head sent, and what is left of it; or all of it. -/
theorem unsent_part {chunk : AuraChunk} (hwf : WfChunk chunk) {pos n : Nat}
    (hpos : pos + n ≤ chunk.size) (rest : List AuraChunk) :
    (chunk.data.drop pos).take n ++ unsent (pos + n) (chunk :: rest)
      = unsent pos (chunk :: rest) := by
  rw [unsent_cons hwf (by omega), unsent_cons hwf (by omega),
    slice_payload hpos, ← List.append_assoc, ← List.drop_drop,
    List.take_append_drop]

theorem unsent_whole {chunk : AuraChunk} (hwf : WfChunk chunk) {pos : Nat}
    (hpos : pos ≤ chunk.size) (rest : List AuraChunk) :
    (chunk.data.drop pos).take (chunk.size - pos) ++ unsent 0 rest
      = unsent pos (chunk :: rest) := by
  have hrem : (chunk.payload.drop pos).length = chunk.size - pos := by
    rw [List.length_drop, hwf.length_payload]
  rw [unsent_cons hwf hpos, slice_payload (by omega),
    List.take_of_length_le (Nat.le_of_eq hrem)]

/-- What one orderly walk does: the chunks it takes off are the first ones,
and what it sends together with what is left to send is what there was. -/
theorem writeLoop_orderly (ctl : Bool) :
    ∀ (rest : List AuraChunk) (ws : List WriteResult) (efd : EpollSet)
      (x : AuraAsyncXfer η σ),
      (∀ c ∈ rest, WfChunk c) → HeadPos x.pos rest →
      orderly x.pos rest ws = true →
      ∃ sent x' efd',
        writeLoop ctl [] rest ws efd x = .ok (sent, x', efd') ∧
        rest = sent.chunks ++ x'.transferlist ∧
        HeadPos x'.pos x'.transferlist ∧
        sent.bytes ++ unsent x'.pos x'.transferlist = unsent x.pos rest := by
  intro rest
  induction rest with
  | nil =>
      intro ws efd x _ hpos _
      exact ⟨.nothing, _, efd, rfl, rfl, hpos, rfl⟩
  | cons chunk rest ih =>
      intro ws efd x hwf hpos h
      have hchunk : WfChunk chunk := hwf chunk (by simp)
      have hle : x.pos ≤ chunk.size := hpos
      rw [orderly] at h
      rw [writeLoop]
      generalize ws.headD .eagain = w at h ⊢
      cases w with
      | eagain => exact ⟨.nothing, _, efd, rfl, rfl, hpos, rfl⟩
      | failed =>
          exact ⟨.nothing, _, efd, writeLoop_quiet ctl rest _ _ _ x h, rfl,
            hpos, rfl⟩
      | wrote k =>
          dsimp only at h
          have hroom : ¬ (0 < min k (chunk.size - x.pos) ∧
              chunk.alloc < x.pos + min k (chunk.size - x.pos)) := by
            have := hchunk.1
            omega
          simp only [hchunk.offered hle, if_neg hroom]
          split at h
          · next hfull =>
              -- the head is complete and leaves; the walk starts over on the
              -- next chunk with offset 0
              have hn : min k (chunk.size - x.pos) = chunk.size - x.pos := by
                omega
              have hdone : chunk.size = x.pos + (chunk.size - x.pos) := by
                omega
              simp only [hn, ← hdone, if_true, List.nil_append]
              generalize hy : (if rest.isEmpty then _ else _) = y
              have hypos : y.1.pos = 0 := by
                rw [← hy]; split <;> rfl
              obtain ⟨sent, x', efd', hrun, hrest, hhead, hbytes⟩ :=
                ih ws.tail y.2 y.1 (fun c hc => hwf c (by simp [hc]))
                  (by rw [hypos]; cases rest <;> simp [HeadPos])
                  (by rw [hypos]; exact h)
              rw [hrun]
              refine ⟨_, x', efd', rfl, ?_, hhead, ?_⟩
              · simp only [Sent.append, List.cons_append, List.nil_append,
                  ← hrest]
              · simp only [Sent.append, List.append_assoc, hbytes, hypos]
                exact unsent_whole hchunk hle rest
          · next hshort =>
              have hn : min k (chunk.size - x.pos) = k := by omega
              simp only [hn, if_neg (show ¬ chunk.size = x.pos + k by omega)]
              rw [writeLoop_quiet ctl rest ([] ++ [chunk]) ws.tail efd
                { x with pos := x.pos + k } h]
              refine ⟨_, _, efd, rfl, rfl, ?_, ?_⟩
              · show x.pos + k ≤ chunk.size
                omega
              · simp only [Sent.append, Sent.nothing, List.append_nil,
                  List.nil_append, List.singleton_append]
                exact unsent_part hchunk (by omega) rest

/-! ## The queue as a pipe -/

/-- The pipe a transmitter stands for. -/
def TxState.pipe (t : TxState η σ) : Pipe UInt8 where
  sent := t.wire
  pending := unsent t.xfer.pos t.xfer.transferlist

/-- The invariant of an orderly run. -/
structure TxInv (t : TxState η σ) : Prop where
  wf : ∀ c ∈ t.xfer.transferlist, WfChunk c
  head : HeadPos t.xfer.pos t.xfer.transferlist
  queue : t.enqueued = t.gone ++ t.xfer.transferlist
  total : t.pipe.total = t.enqueued.flatMap AuraChunk.payload

theorem TxState.Fresh.inv {t : TxState η σ} (h : t.Fresh) : TxInv t where
  wf := by simp [h.queue]
  head := by rw [h.queue]; exact h.pos
  queue := by simp [h.enqueued, h.gone, h.queue]
  total := by
    simp [Pipe.total, TxState.pipe, unsent, h.wire, h.queue, h.enqueued]

theorem HeadPos.append {pos : Nat} {queue : List AuraChunk}
    (h : HeadPos pos queue) (chunk : AuraChunk) :
    HeadPos pos (queue ++ [chunk]) := by
  cases queue with
  | nil =>
      have hzero : pos = 0 := h
      simp [HeadPos, hzero]
  | cons c rest => exact h

theorem HeadPos.le_length {pos : Nat} {queue : List AuraChunk}
    (h : HeadPos pos queue) (hwf : ∀ c ∈ queue, WfChunk c) :
    pos ≤ (queue.flatMap AuraChunk.payload).length := by
  cases queue with
  | nil => exact Nat.le_of_eq h
  | cons c rest =>
      have hlen := (hwf c (by simp)).length_payload
      have hle : pos ≤ c.size := h
      rw [List.flatMap_cons, List.length_append]
      omega

/-- Under the condition a step never faults, keeps the invariant, and is a
push or a drain of the pipe. -/
theorem txStep_simulates {t : TxState η σ} {e : TxEvent} (hinv : TxInv t)
    (he : txOrderly t e) :
    ∃ u, txStep t e = .ok u ∧ TxInv u ∧
      ((∃ xs, u.pipe = t.pipe.push xs) ∨ ∃ n, u.pipe = t.pipe.drain n) := by
  cases e with
  | enqueue chunk ctl mem =>
      have hle := hinv.head.le_length hinv.wf
      simp only [txStep, pure_eq_ok]
      generalize henq : auraAsyncEnqueueChunk ctl mem t.efd t.xfer chunk = r
      obtain ⟨ret, x', efd'⟩ := r
      have henq := auraAsyncEnqueueChunk_enqueued henq
      have hpos : x'.pos = t.xfer.pos := by
        obtain ⟨transferlist, hook, rfl⟩ := henq.frame
        rfl
      rcases henq.queue with ⟨hret, hlist⟩ | ⟨hret, hlist⟩
      · have hpend : unsent x'.pos x'.transferlist
            = unsent t.xfer.pos t.xfer.transferlist ++ chunk.payload := by
          rw [hpos, hlist, unsent, unsent, List.flatMap_append,
            List.drop_append_of_le_length hle]
          simp
        refine ⟨_, rfl, ⟨?_, ?_, ?_, ?_⟩, Or.inl ⟨chunk.payload, ?_⟩⟩
        · intro c hc
          rw [hlist] at hc
          rcases List.mem_append.mp hc with hc | hc
          · exact hinv.wf c hc
          · rw [List.mem_singleton.mp hc]; exact he
        · rw [hpos, hlist]
          exact hinv.head.append chunk
        · simp only [if_pos hret, hlist, hinv.queue, List.append_assoc]
        · have htot := hinv.total
          simp only [Pipe.total, TxState.pipe] at htot ⊢
          rw [if_pos hret, hpend, ← List.append_assoc, htot,
            List.flatMap_append]
          simp
        · simp only [TxState.pipe, Pipe.push, hpend]
      · have hpend : unsent x'.pos x'.transferlist
            = unsent t.xfer.pos t.xfer.transferlist := by rw [hpos, hlist]
        refine ⟨_, rfl, ⟨?_, ?_, ?_, ?_⟩, Or.inl ⟨[], ?_⟩⟩
        · rw [hlist]; exact hinv.wf
        · rw [hpos, hlist]; exact hinv.head
        · simp only [if_neg hret, hlist]; exact hinv.queue
        · have htot := hinv.total
          simp only [Pipe.total, TxState.pipe] at htot ⊢
          rw [if_neg hret, hpend, htot]
        · simp only [TxState.pipe, Pipe.push, hpend, List.append_nil]
  | epollout ws ctl =>
      obtain ⟨sent, x', efd', hrun, hrest, hhead, hbytes⟩ :=
        writeLoop_orderly ctl t.xfer.transferlist ws t.efd t.xfer hinv.wf
          hinv.head he
      simp only [txStep, auraAsyncXferHandlerOut, hrun, ok_bind, pure_eq_ok]
      refine ⟨_, rfl, ⟨?_, hhead, ?_, ?_⟩, Or.inr ⟨sent.bytes.length, ?_⟩⟩
      · intro c hc
        exact hinv.wf c (by rw [hrest]; exact List.mem_append_right _ hc)
      · rw [List.append_assoc, ← hrest]
        exact hinv.queue
      · have htot := hinv.total
        simp only [Pipe.total, TxState.pipe] at htot ⊢
        rw [List.append_assoc, hbytes, htot]
      · simp only [TxState.pipe, Pipe.drain, ← hbytes, List.take_left',
          List.drop_left']

theorem TxInv.intact {t : TxState η σ} (h : TxInv t) : StreamIntact t where
  ordered := h.total ▸ t.pipe.sent_isPrefix
  queue := h.queue
  accepted := by
    have htot := h.total
    have hle := h.head.le_length h.wf
    rw [h.queue, List.flatMap_append] at htot
    simp only [Pipe.total, TxState.pipe, unsent] at htot
    generalize t.xfer.transferlist.flatMap AuraChunk.payload = queued at *
    -- both sides end in the unsent bytes
    have hcut : t.wire ++ queued.drop t.xfer.pos
        = (t.gone.flatMap AuraChunk.payload ++ queued.take t.xfer.pos)
            ++ queued.drop t.xfer.pos := by
      rw [htot, List.append_assoc, List.take_append_drop]
    exact ⟨queued.take t.xfer.pos, (List.append_cancel_right hcut).symm⟩

/-- A run whose walks are all orderly keeps the stream intact, in every state
it reaches, and never leaves a block. -/
theorem txStream_intact {t u : TxState η σ} (hfresh : t.Fresh)
    (hrun : Runs txStep txOrderly t u) :
    StreamIntact u ∧ ∀ e, txOrderly u e → ∃ v, txStep u e = .ok v := by
  have hinv : TxInv u := hrun.invariant (I := TxInv) (fun s e v hs he hstep => by
    obtain ⟨w, hw, hinv, -⟩ := txStep_simulates hs he
    rw [hw] at hstep
    cases hstep
    exact hinv) hfresh.inv
  refine ⟨hinv.intact, fun e he => ?_⟩
  obtain ⟨v, hv, -⟩ := txStep_simulates hinv he
  exact ⟨v, hv⟩

/-- A transmitter nothing has been asked of, for runs on fixed input. -/
def idleTx : TxState Unit Unit where
  xfer := { transferlist := []
            pos := 0
            expectBytes := 0
            recv := ⟨[], 0⟩
            hook := ⟨3, ⟨true, false⟩⟩
            data := ()
            handleData := () }
  efd := fun _ => none
  enqueued := []
  wire := []
  gone := []

/-- Two chunks, the first of them sent in two halves. -/
theorem txStream_intact_halves :
    ∃ u : TxState Unit Unit,
      u.wire = [1, 2, 3, 4, 5, 6] ∧ StreamIntact u := by
  have hrun : Runs txStep txOrderly idleTx _ :=
    ((((Runs.refl idleTx).tail (i := .enqueue ⟨[1, 2, 3, 4], 4⟩ true true)
      ⟨by decide, by decide⟩ rfl).tail (i := .enqueue ⟨[5, 6], 2⟩ true true)
      ⟨by decide, by decide⟩ rfl).tail (i := .epollout [.wrote 2] true)
      (by rfl) rfl).tail (i := .epollout [.wrote 2, .wrote 2] true)
      (by rfl) rfl
  exact ⟨_, rfl, (txStream_intact ⟨rfl, rfl, rfl, rfl, rfl⟩ hrun).1⟩

/-- Two chunks and a short write on the first: the walk goes on to the second
at the offset reached in the first, and bytes 3 to 6 never leave. -/
theorem txStream_torn :
    ¬ ∀ t u : TxState Unit Unit, t.Fresh → Runs txStep enqueuesChunks t u →
      StreamIntact u := by
  intro hall
  have hrun : Runs txStep enqueuesChunks idleTx _ :=
    (((Runs.refl idleTx).tail (i := .enqueue ⟨[1, 2, 3, 4], 4⟩ true true)
      ⟨by decide, by decide⟩ rfl).tail
      (i := .enqueue ⟨[5, 6, 7, 8], 4⟩ true true) ⟨by decide, by decide⟩
      rfl).tail (i := .epollout [.wrote 2, .wrote 2] true) trivial rfl
  have hintact := hall idleTx _ ⟨rfl, rfl, rfl, rfl, rfl⟩ hrun
  have hwire : [1, 2, 7, 8] <+: ([1, 2, 3, 4, 5, 6, 7, 8] : List UInt8) :=
    hintact.ordered
  exact absurd hwire (by decide)

end Aura.Proofs
