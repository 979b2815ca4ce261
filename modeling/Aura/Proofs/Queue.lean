import Aura.Ref.Asyncio

/-!
# The two ends of the queue

What `aura_async_enqueue_chunk` can do, and what the walk of
`aura_async_xfer_handler` over the queue can do, once for everything that
calls them (`auraAsyncEnqueueChunk_enqueued`, `writeLoop_rule`).
-/

namespace Aura.Proofs

open Aura.Lib Aura.Ref

variable {η σ : Type}

/-! ## Enqueueing -/

/-- The set once the kernel has taken a hook's mask. -/
def registered (efd : EpollSet) (hook : AuraEpollHook) : EpollSet :=
  fun fd => if fd = hook.fd then some hook.events else efd fd

/-- A transfer object whose mask asks for `EPOLLOUT`. -/
def wanting (x : AuraAsyncXfer η σ) : AuraAsyncXfer η σ :=
  { x with hook := { x.hook with
    events := { x.hook.events with epollout := true } } }

theorem registered_self (efd : EpollSet) (hook : AuraEpollHook) :
    registered efd hook hook.fd = some hook.events := if_pos rfl

/-- The outcomes of `aura_async_enqueue_chunk`. The first three find the queue
empty: the kernel refuses, the node cannot be had, the chunk is queued. -/
inductive Enqueued (efd : EpollSet) (x : AuraAsyncXfer η σ)
    (chunk : AuraChunk) :
    Bool → Bool → Int → AuraAsyncXfer η σ → EpollSet → Prop
  | refused {mem : Bool} (hq : x.transferlist = []) :
      Enqueued efd x chunk false mem 1 (wanting x) efd
  | nodeless (hq : x.transferlist = []) :
      Enqueued efd x chunk true false (-12) (wanting x)
        (registered efd (wanting x).hook)
  | first (hq : x.transferlist = []) :
      Enqueued efd x chunk true true 0
        { wanting x with transferlist := x.transferlist ++ [chunk] }
        (registered efd (wanting x).hook)
  | dropped {ctl : Bool} (hq : x.transferlist ≠ []) :
      Enqueued efd x chunk ctl false (-12) x efd
  | next {ctl : Bool} (hq : x.transferlist ≠ []) :
      Enqueued efd x chunk ctl true 0
        { x with transferlist := x.transferlist ++ [chunk] } efd

theorem auraAsyncEnqueueChunk_enqueued {ctl mem : Bool} {efd efd' : EpollSet}
    {x x' : AuraAsyncXfer η σ} {chunk : AuraChunk} {ret : Int}
    (h : auraAsyncEnqueueChunk ctl mem efd x chunk = (ret, x', efd')) :
    Enqueued efd x chunk ctl mem ret x' efd' := by
  rw [auraAsyncEnqueueChunk] at h
  by_cases hq : x.transferlist = []
  · have hempty : x.transferlist.isEmpty = true := List.isEmpty_iff.mpr hq
    cases ctl <;> cases mem <;>
      simp only [hempty, auraEpollout, if_true, Bool.false_eq_true, if_false]
        at h <;> cases h
    · exact .refused hq
    · exact .refused hq
    · exact .nodeless hq
    · exact .first hq
  · have hsome : ¬ x.transferlist.isEmpty = true := mt List.isEmpty_iff.mp hq
    cases mem <;> simp only [if_neg hsome, Bool.false_eq_true] at h <;> cases h
    · exact .dropped hq
    · exact .next hq

section Enqueued

variable {ctl mem : Bool} {efd efd' : EpollSet} {x x' : AuraAsyncXfer η σ}
  {chunk : AuraChunk} {ret : Int}

theorem Enqueued.frame (h : Enqueued efd x chunk ctl mem ret x' efd') :
    ∃ transferlist hook, x' = { x with transferlist, hook } := by
  cases h with
  | refused | nodeless | first | dropped | next => exact ⟨_, _, rfl⟩

/-- The return code says whether the chunk is at the tail. -/
theorem Enqueued.queue (h : Enqueued efd x chunk ctl mem ret x' efd') :
    (ret = 0 ∧ x'.transferlist = x.transferlist ++ [chunk]) ∨
      (ret ≠ 0 ∧ x'.transferlist = x.transferlist) := by
  cases h with
  | refused | nodeless | dropped => exact .inr ⟨by decide, rfl⟩
  | first | next => exact .inl ⟨rfl, rfl⟩

theorem Enqueued.granted (h : Enqueued efd x chunk true true ret x' efd') :
    x'.transferlist = x.transferlist ++ [chunk] := by
  cases h with
  | first | next => rfl

end Enqueued

theorem auraAsyncEnqueueChunk_frame (ctl mem : Bool) (efd : EpollSet)
    (x : AuraAsyncXfer η σ) (chunk : AuraChunk) :
    ∃ transferlist hook,
      (auraAsyncEnqueueChunk ctl mem efd x chunk).2.1
        = { x with transferlist, hook } :=
  (auraAsyncEnqueueChunk_enqueued rfl).frame

/-! ## Walking -/

/-- What holds of a walk: it stops where it is, or goes on with another offset,
or takes a chunk off and goes on. With the last chunk the registration goes. -/
theorem writeLoop_rule {ctl : Bool}
    {P : List AuraChunk → EpollSet → AuraAsyncXfer η σ → EpollSet →
      AuraAsyncXfer η σ → Prop}
    (stops : ∀ queue efd x, P queue efd x efd { x with transferlist := queue })
    (moves : ∀ queue efd x pos efd' x', queue ≠ [] →
      P queue efd { x with pos } efd' x' → P queue efd x efd' x')
    (takes : ∀ kept chunk rest efd x efd' x', kept ++ rest ≠ [] →
      P (kept ++ rest) efd { x with pos := 0 } efd' x' →
      P (kept ++ chunk :: rest) efd x efd' x')
    (empties : ∀ chunk efd x efd' x',
      P [] (auraEpollout ctl efd x.hook false).2.2
        { x with pos := 0, hook := (auraEpollout ctl efd x.hook false).2.1 }
        efd' x' → P [chunk] efd x efd' x') :
    ∀ (rest kept : List AuraChunk) (ws : List WriteResult) (efd : EpollSet)
      (x : AuraAsyncXfer η σ) {sent x' efd'},
      writeLoop ctl kept rest ws efd x = .ok (sent, x', efd') →
      P (kept ++ rest) efd x efd' x' := by
  intro rest
  induction rest with
  | nil =>
      intro kept ws efd x sent x' efd' h
      cases h
      rw [List.append_nil]
      exact stops kept efd x
  | cons chunk rest ih =>
      intro kept ws efd x sent x' efd' h
      have hne : kept ++ chunk :: rest ≠ [] := by simp
      have hkeep : ∀ {pos : Nat} {sent},
          writeLoop ctl (kept ++ [chunk]) rest ws.tail efd { x with pos }
            = .ok (sent, x', efd') → P (kept ++ chunk :: rest) efd x efd' x' := by
        intro pos sent hrest
        have hnext := ih _ _ _ _ hrest
        rw [List.append_assoc, List.singleton_append] at hnext
        exact moves _ efd x pos efd' x' hne hnext
      rw [writeLoop] at h
      cases hw : ws.headD .eagain with
      | eagain =>
          simp only [hw] at h
          cases h
          exact stops _ efd x
      | failed =>
          simp only [hw] at h
          exact hkeep h
      | wrote k =>
          simp only [hw] at h
          generalize min k (sizeT (chunk.size - x.pos)) = n at h
          by_cases hout : 0 < n ∧ chunk.alloc < x.pos + n
          · simp only [if_pos hout] at h
            cases h
          · simp only [if_neg hout] at h
            by_cases hdone : chunk.size = x.pos + n
            · simp only [if_pos hdone] at h
              obtain ⟨⟨sent₁, x₁, efd₁⟩, hrest, h⟩ := bind_eq_ok.mp h
              cases h
              by_cases hempty : kept ++ rest = []
              · obtain ⟨rfl, rfl⟩ := List.append_eq_nil_iff.mp hempty
                exact empties chunk efd x _ _ (ih _ _ _ _ hrest)
              · have hsome : ¬ (kept ++ rest).isEmpty = true :=
                  mt List.isEmpty_iff.mp hempty
                simp only [if_neg hsome] at hrest
                exact takes kept chunk rest efd x _ _ hempty
                  (ih _ _ _ _ hrest)
            · simp only [if_neg hdone] at h
              obtain ⟨⟨sent₁, x₁, efd₁⟩, hrest, h⟩ := bind_eq_ok.mp h
              cases h
              exact hkeep hrest

end Aura.Proofs
