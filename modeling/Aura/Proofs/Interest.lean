import Aura.Proofs.Transitions

/-!
# The interest in EPOLLOUT

A descriptor is registered for `EPOLLOUT` while there is something to write.
The registration changes on two edges only: `aura_async_enqueue_chunk` turns it
on when it finds the queue empty, the handler turns it off when it leaves the
queue empty. Whatever fails in between, nothing that is queued is forgotten
(`armed_run`). The opposite mistake is made: an enqueue that fails after the
first edge does not go back over it (`enqueue_failure_iff`).
-/

namespace Aura.Proofs

open Aura.Lib Aura.Ref

section Interest

variable {η σ : Type}

/-- The kernel reports when the descriptor can be written. -/
def WakesOut (efd : EpollSet) (fd : Int) : Prop :=
  ∃ m, efd fd = some m ∧ m.epollout = true

/-- What is queued will be written. -/
def Armed (x : AuraAsyncXfer η σ) (efd : EpollSet) : Prop :=
  x.transferlist ≠ [] → WakesOut efd x.hook.fd

theorem wakesOut_wanting (efd : EpollSet) (x : AuraAsyncXfer η σ) :
    WakesOut (registered efd (wanting x).hook) (wanting x).hook.fd :=
  ⟨_, registered_self efd (wanting x).hook, rfl⟩

/-! ## What an enqueue does -/

theorem Enqueued.armed {ctl mem : Bool} {efd efd' : EpollSet}
    {x x' : AuraAsyncXfer η σ} {chunk : AuraChunk} {ret : Int}
    (h : Enqueued efd x chunk ctl mem ret x' efd') (harmed : Armed x efd) :
    Armed x' efd' := by
  cases h with
  | refused hq => exact fun hne => absurd hq hne
  | nodeless hq => exact fun hne => absurd hq hne
  | first => exact fun _ => wakesOut_wanting efd x
  | dropped => exact harmed
  | next hq => exact fun _ => harmed hq

/-- The queue stays as it is when the kernel refuses the first chunk, and
whenever the node cannot be had. -/
theorem auraAsyncEnqueueChunk_keeps_iff (ctl mem : Bool) (efd : EpollSet)
    (x : AuraAsyncXfer η σ) (chunk : AuraChunk) :
    (auraAsyncEnqueueChunk ctl mem efd x chunk).2.1.transferlist
        = x.transferlist ↔
      (x.transferlist = [] ∧ ctl = false) ∨ mem = false := by
  generalize h : auraAsyncEnqueueChunk ctl mem efd x chunk = r
  obtain ⟨ret, x', efd'⟩ := r
  cases auraAsyncEnqueueChunk_enqueued h with
  | refused hq => exact iff_of_true rfl (.inl ⟨hq, rfl⟩)
  | nodeless => exact iff_of_true rfl (.inr rfl)
  | dropped => exact iff_of_true rfl (.inr rfl)
  | first => simp
  | next hq => simp [hq]

/-! ## What the handler does -/

/-- A walk over the queue: it gives the registration up only with the last
chunk. -/
theorem writeLoop_armed (ctl : Bool) :
    ∀ (rest kept : List AuraChunk) (ws : List WriteResult) (efd : EpollSet)
      (x : AuraAsyncXfer η σ) {sent x' efd'},
      (kept ++ rest ≠ [] → WakesOut efd x.hook.fd) →
      writeLoop ctl kept rest ws efd x = .ok (sent, x', efd') →
      Armed x' efd' := by
  intro rest kept ws efd x sent x' efd' hwakes h
  refine writeLoop_rule (P := fun queue efd x efd' x' =>
    (queue ≠ [] → WakesOut efd x.hook.fd) → Armed x' efd') ?_ ?_ ?_ ?_ rest
    kept ws efd x h hwakes
  · intro queue efd x hwakes
    exact hwakes
  · intro queue efd x pos efd' x' _ hrest hwakes
    exact hrest hwakes
  · intro kept chunk rest efd x efd' x' _ hrest hwakes
    exact hrest fun _ => hwakes (by simp)
  · -- the registration goes, and with it the last chunk
    intro chunk efd x efd' x' hrest _
    exact hrest fun hne => absurd rfl hne

/-- A callback that does not meddle with the write side. -/
def LeavesQueue
    (callback : η → AuraAsyncXfer η σ → Res (AuraAsyncXfer η σ)) : Prop :=
  ∀ h x y, callback h x = .ok y →
    y.transferlist = x.transferlist ∧ y.hook = x.hook

theorem auraAsyncXferHandlerIn_leavesQueue
    {callback : η → AuraAsyncXfer η σ → Res (AuraAsyncXfer η σ)}
    (hcb : LeavesQueue callback) {r : ReadResult} {x y : AuraAsyncXfer η σ}
    (h : auraAsyncXferHandlerIn callback r x = .ok y) :
    y.transferlist = x.transferlist ∧ y.hook = x.hook := by
  cases r with
  | failed =>
      cases h
      exact ⟨rfl, rfl⟩
  | got bytes =>
      rw [auraAsyncXferHandlerIn, bind_eq_ok] at h
      obtain ⟨recv, _, h⟩ := h
      by_cases hzero : x.expectBytes - bytes.length = 0
      · simp only [if_pos hzero] at h
        have hkept := hcb _ _ _ h
        exact hkept
      · simp only [if_neg hzero] at h
        cases h
        exact ⟨rfl, rfl⟩

theorem auraAsyncXferHandler_armed
    {callback : η → AuraAsyncXfer η σ → Res (AuraAsyncXfer η σ)}
    (hcb : LeavesQueue callback) {ev : EpollEvents} {r : ReadResult}
    {ws : List WriteResult} {ctl : Bool} {efd efd' : EpollSet}
    {x x' : AuraAsyncXfer η σ} {sent : Sent} (harmed : Armed x efd)
    (h : auraAsyncXferHandler callback ev r ws ctl efd x
      = .ok (sent, x', efd')) : Armed x' efd' := by
  rw [auraAsyncXferHandler] at h
  by_cases hin : ev.epollin = true
  · simp only [if_pos hin] at h
    obtain ⟨y, hy, h⟩ := bind_eq_ok.mp h
    cases h
    obtain ⟨hqueue, hhook⟩ := auraAsyncXferHandlerIn_leavesQueue hcb hy
    rwa [Armed, hqueue, hhook]
  · by_cases hout : ev.epollout = true
    · simp only [if_neg hin, if_pos hout] at h
      exact writeLoop_armed ctl _ [] _ _ _ harmed h
    · simp only [if_neg hin, if_neg hout] at h
      cases h
      exact harmed

end Interest

/-! ## Runs of a transfer object -/

section Runs

variable {η σ : Type}

/-- A transfer object and the set its hook is in. -/
structure XferPort (η σ : Type) where
  xfer : AuraAsyncXfer η σ
  efd : EpollSet

/-- What is done with one, and what the kernel and the allocator answer. -/
inductive XferEvent (α : Type)
  | enqueue (chunk : AuraChunk) (ctl mem : Bool)
  | handler (ev : EpollEvents) (r : ReadResult) (ws : List WriteResult)
      (ctl : Bool) (env : α)

/-- One operation. The callbacks are given what they ask of their
surroundings, `env`. -/
def xferStep {α : Type}
    (callback : α → η → AuraAsyncXfer η σ → Res (AuraAsyncXfer η σ))
    (p : XferPort η σ) : XferEvent α → Res (XferPort η σ)
  | .enqueue chunk ctl mem =>
      let (_, xfer, efd) := auraAsyncEnqueueChunk ctl mem p.efd p.xfer chunk
      pure ⟨xfer, efd⟩
  | .handler ev r ws ctl env => do
      let (_, xfer, efd) ←
        auraAsyncXferHandler (callback env) ev r ws ctl p.efd p.xfer
      pure ⟨xfer, efd⟩

/-- An object `aura_create_async_xfer` made, before anything is done with
it. -/
def Created (p : XferPort η σ) : Prop :=
  ∃ mem add mod efd hook recv data handler,
    auraCreateAsyncXfer mem add mod efd hook recv data handler
      = (some p.xfer, p.efd)

/-- Any operation at any time. -/
def anyEvent {α β : Type} (_ : α) (_ : β) : Prop := True

theorem Created.queue {p : XferPort η σ} (h : Created p) :
    p.xfer.transferlist = [] := by
  obtain ⟨xfer, set⟩ := p
  obtain ⟨mem, add, mod, efd, hook, recv, data, handler, h⟩ := h
  rw [auraCreateAsyncXfer] at h
  cases mem <;> cases add <;> cases mod <;> cases h
  rfl

theorem armed_step {α : Type}
    {callback : α → η → AuraAsyncXfer η σ → Res (AuraAsyncXfer η σ)}
    (hcb : ∀ env, LeavesQueue (callback env)) {p q : XferPort η σ}
    {e : XferEvent α} (harmed : Armed p.xfer p.efd)
    (h : xferStep callback p e = .ok q) : Armed q.xfer q.efd := by
  cases e with
  | enqueue chunk ctl mem =>
      cases h
      exact (auraAsyncEnqueueChunk_enqueued rfl).armed harmed
  | handler ev r ws ctl env =>
      rw [xferStep, bind_eq_ok] at h
      obtain ⟨⟨sent, xfer, efd⟩, hrun, h⟩ := h
      cases h
      exact auraAsyncXferHandler_armed (hcb env) harmed hrun

/-- No lost wake-up, for callbacks that leave the queue to the transfer
layer. -/
theorem armed_run {α : Type}
    {callback : α → η → AuraAsyncXfer η σ → Res (AuraAsyncXfer η σ)}
    (hcb : ∀ env, LeavesQueue (callback env)) {p q : XferPort η σ}
    (hnew : Created p) (hrun : Runs (xferStep callback) anyEvent p q) :
    Armed q.xfer q.efd :=
  hrun.invariant (I := fun q => Armed q.xfer q.efd)
    (fun _ _ _ harmed _ hstep => armed_step hcb harmed hstep)
    (fun hne => absurd hnew.queue hne)

end Runs

theorem handleData_leavesQueue (host : Endian) (g : Grant) :
    LeavesQueue (handleData host g) := by
  intro h x y hy
  cases handleData_handled hy with
  | start hs hb he | length hs hn he | startInit hs hb he =>
      obtain ⟨data, hy⟩ := auraAsyncExpectBytes_eq_ok he
      rw [hy, expecting_transferlist, expecting_hook]
      exact ⟨rfl, rfl⟩
  | _ => exact ⟨rfl, rfl⟩

/-- The transfer object of a serial instance, as it is used. -/
abbrev SerialPort := XferPort Handler SerialInstance

/-- Whatever is queued when, whatever arrives, and whichever of `malloc`,
`epoll_ctl` and `write` fail: a queue with a chunk in it is registered for
`EPOLLOUT`. -/
theorem wakeup_never_lost {host : Endian} {p q : SerialPort} (hnew : Created p)
    (hrun : Runs (xferStep (handleData host)) anyEvent p q) :
    Armed q.xfer q.efd :=
  armed_run (fun g => handleData_leavesQueue host g) hnew hrun

/-- A descriptor just registered, for an instance nothing is known of. -/
def createdPort : SerialPort where
  xfer :=
    { transferlist := [], pos := 0, expectBytes := 0
      recv := ⟨List.replicate 8 0, 0⟩
      hook := ⟨3, ⟨true, false⟩⟩
      data :=
        { swap := false, idSz := 0, szSz := 0, rxstate := .waitStart
          state := 0, objcount := 0, inst := ⟨[], []⟩ }
      handleData := .packets }
  efd := registered (registered (fun _ => none) ⟨3, ⟨true, false⟩⟩)
    ⟨3, ⟨true, false⟩⟩

theorem created_createdPort : Created createdPort :=
  ⟨true, true, true, fun _ => none, ⟨3, ⟨true, false⟩⟩, _, _, _, rfl⟩

/-- Two chunks; the node of the second one is refused, the first is written
in part. -/
theorem wakeup_never_lost_partial :
    ∃ q : SerialPort, q.xfer.transferlist ≠ [] ∧ Armed q.xfer q.efd := by
  have hrun : Runs (xferStep (handleData .little)) anyEvent createdPort _ :=
    (((Runs.refl createdPort).tail (i := .enqueue ⟨[1, 2], 2⟩ true true)
      trivial rfl).tail (i := .enqueue ⟨[3], 1⟩ true false) trivial rfl).tail
      (i := .handler ⟨false, true⟩ .failed [.wrote 1] true none) trivial rfl
  exact ⟨_, by decide, wakeup_never_lost created_createdPort hrun⟩

/-! ## A failed enqueue -/

section Failure

variable {η σ : Type} {x x' : AuraAsyncXfer η σ} {efd efd' : EpollSet}
  {chunk : AuraChunk} {ctl mem : Bool} {ret : Int}

/-- What a failed enqueue ought to leave as it was. -/
structure WriteSideKept (x x' : AuraAsyncXfer η σ) (efd efd' : EpollSet) :
    Prop where
  queue : x'.transferlist = x.transferlist
  pos : x'.pos = x.pos
  mask : x'.hook.events = x.hook.events
  interest : efd' = efd

/-- The mask asks for `EPOLLOUT` already exactly when asking changes nothing. -/
theorem wanting_mask_iff :
    (wanting x).hook.events = x.hook.events ↔
      x.hook.events.epollout = true := by
  obtain ⟨queue, pos, e, recv, ⟨fd, epollin, epollout⟩, data, handler⟩ := x
  constructor
  · intro h
    exact (congrArg EpollEvents.epollout h).symm
  · intro h
    show (⟨epollin, true⟩ : EpollEvents) = ⟨epollin, epollout⟩
    rw [show epollout = true from h]

theorem registered_eq_iff {hook : AuraEpollHook} :
    registered efd hook = efd ↔ efd hook.fd = some hook.events := by
  constructor
  · intro h
    rw [← registered_self efd hook, h]
  · intro h
    funext fd
    by_cases hfd : fd = hook.fd
    · rw [hfd, registered_self, h]
    · exact if_neg hfd

/-- Nothing changes when the edge is not come to, because the queue has
something in it, or is come to in vain. -/
theorem writeSideKept_iff
    (h : auraAsyncEnqueueChunk ctl mem efd x chunk = (ret, x', efd'))
    (hret : ret ≠ 0) :
    WriteSideKept x x' efd efd' ↔
      x.transferlist ≠ [] ∨
        (x.hook.events.epollout = true ∧
          (ctl = false ∨ efd x.hook.fd = some x.hook.events)) := by
  cases auraAsyncEnqueueChunk_enqueued h with
  | first => exact absurd rfl hret
  | next => exact absurd rfl hret
  | dropped hq => exact iff_of_true ⟨rfl, rfl, rfl, rfl⟩ (.inl hq)
  | refused hq =>
      constructor
      · intro hkept
        exact .inr ⟨wanting_mask_iff.mp hkept.mask, .inl rfl⟩
      · rintro (hne | ⟨hmask, _⟩)
        · exact absurd hq hne
        · exact ⟨rfl, rfl, wanting_mask_iff.mpr hmask, rfl⟩
  | nodeless hq =>
      constructor
      · intro hkept
        have hkernel := registered_eq_iff.mp hkept.interest
        rw [hkept.mask] at hkernel
        exact .inr ⟨wanting_mask_iff.mp hkept.mask, .inr hkernel⟩
      · rintro (hne | ⟨hmask, hrefused | hkernel⟩)
        · exact absurd hq hne
        · cases hrefused
        · have hsame := wanting_mask_iff.mpr hmask
          refine ⟨rfl, rfl, hsame, registered_eq_iff.mpr ?_⟩
          rw [hsame]
          exact hkernel

/-- What is left behind otherwise: an empty queue that the kernel keeps
reporting, whenever the kernel took the mask. -/
theorem leftBusy_iff
    (h : auraAsyncEnqueueChunk ctl mem efd x chunk = (ret, x', efd'))
    (hret : ret ≠ 0) :
    (x'.transferlist = [] ∧ WakesOut efd' x'.hook.fd) ↔
      x.transferlist = [] ∧ (ctl = true ∨ WakesOut efd x.hook.fd) := by
  cases auraAsyncEnqueueChunk_enqueued h with
  | first => exact absurd rfl hret
  | next => exact absurd rfl hret
  | dropped hq =>
      exact iff_of_false (fun h => hq h.1) (fun h => hq h.1)
  | refused hq =>
      constructor
      · rintro ⟨_, hwakes⟩
        exact ⟨hq, .inr hwakes⟩
      · rintro ⟨_, hctl | hwakes⟩
        · cases hctl
        · exact ⟨hq, hwakes⟩
  | nodeless hq =>
      exact iff_of_true ⟨hq, wakesOut_wanting efd x⟩ ⟨hq, .inl rfl⟩

/-- A failed enqueue changes nothing exactly when it never came to the edge,
because the queue had something in it, or came to it in vain: the mask asked
for `EPOLLOUT` already, and the kernel refused it again or had it. And it
leaves an empty queue registered for `EPOLLOUT` exactly when the kernel took
the mask, or had registered that before. -/
theorem enqueue_failure_iff
    (h : auraAsyncEnqueueChunk ctl mem efd x chunk = (ret, x', efd'))
    (hret : ret ≠ 0) :
    (WriteSideKept x x' efd efd' ↔
      x.transferlist ≠ [] ∨
        (x.hook.events.epollout = true ∧
          (ctl = false ∨ efd x.hook.fd = some x.hook.events))) ∧
    ((x'.transferlist = [] ∧ WakesOut efd' x'.hook.fd) ↔
      x.transferlist = [] ∧ (ctl = true ∨ WakesOut efd x.hook.fd)) :=
  ⟨writeSideKept_iff h hret, leftBusy_iff h hret⟩

end Failure

/-- The instance with a first chunk in its queue. -/
def queuedPort : SerialPort :=
  { xfer := { createdPort.xfer with
      transferlist := [⟨[1], 1⟩], hook := ⟨3, ⟨true, true⟩⟩ }
    efd := registered createdPort.efd ⟨3, ⟨true, true⟩⟩ }

/-- A chunk behind another, on a registered descriptor, is refused its node. -/
theorem enqueue_failure_iff_behind :
    Runs (xferStep (handleData .little)) anyEvent createdPort queuedPort ∧
      WriteSideKept queuedPort.xfer queuedPort.xfer queuedPort.efd
        queuedPort.efd :=
  ⟨(Runs.refl createdPort).tail (i := .enqueue ⟨[1], 1⟩ true true) trivial rfl,
    (@enqueue_failure_iff _ _ _ _ _ _ ⟨[2], 1⟩ true false (-12) rfl
      (by decide)).1.mpr (.inl (by decide))⟩

/-- The first chunk an instance is given is refused its node: the queue is
empty and the descriptor registered for `EPOLLOUT`. -/
theorem enqueue_failure_changes :
    ¬ ∀ p q : SerialPort, Created p →
      Runs (xferStep (handleData .little)) anyEvent p q →
      ∀ ctl mem chunk ret x' efd',
        auraAsyncEnqueueChunk ctl mem q.efd q.xfer chunk = (ret, x', efd') →
        ret ≠ 0 → WriteSideKept q.xfer x' q.efd efd' := by
  intro hall
  have hkept := hall createdPort createdPort created_createdPort (.refl _) true
    false ⟨[1], 1⟩ (-12) _ _ rfl (by decide)
  have hmask : (⟨true, true⟩ : EpollEvents) = ⟨true, false⟩ := hkept.mask
  exact absurd hmask (by decide)

end Aura.Proofs
