import Aura.Lib.Run
import Aura.Ref.Asyncio
import Aura.Ref.MainLoop

/-!
# What the main loop calls

The pointer the kernel keeps for a descriptor is the hook that was added for
it, so an event is handed to its owner. A wait that fails is not told from one
that has an event: the loop then calls through whatever its local `ev` holds.
It dispatches what is delivered exactly in the runs in which no wait fails
(`loop_dispatches_iff`). The transfer layer is modelled over less of a hook than
the loop is; what both do when one is added is the same (`addEpollhook_plain`).
-/

namespace Aura.Proofs

open Aura.Lib Aura.Ref

variable {η : Type}

/-! ## What is to be called -/

/-- The hook registered for each descriptor, and what each turn of the loop is
to call. -/
structure Registry (η : Type) where
  owner : Int → Option HookPtr
  calls : List (Option (Invocation η))

/-- From now on `fd` belongs to `p`. -/
def Registry.assign (g : Registry η) (fd : Int) (p : Option HookPtr) :
    Registry η :=
  { g with owner := fun d => if d = fd then p else g.owner d }

/-- The handler of the hook registered for `fd`, called with its event. -/
def Registry.delivery (hooks : HookPtr → Option (Hook η)) (g : Registry η)
    (fd : Int) (events : UInt32) : Option (Invocation η) := do
  let p ← g.owner fd
  let h ← hooks p
  pure ⟨p, h.ioHandler, ⟨events, p⟩⟩

/-- A hook is registered when the kernel takes it and no longer when it is
dropped. An event is delivered to the hook registered for it, and nothing else
is delivered. -/
def Registry.step (hooks : HookPtr → Option (Hook η)) (g : Registry η) :
    LoopOp → Registry η
  | .add true p => ((hooks p).map fun h => g.assign h.fd (some p)).getD g
  | .add false _ => g
  | .drop p => ((hooks p).map fun h => g.assign h.fd none).getD g
  | .once _ (.event fd events) =>
      { g with calls := g.calls ++ [g.delivery hooks fd events] }
  | .once _ _ => { g with calls := g.calls ++ [none] }

def registryAfter (hooks : HookPtr → Option (Hook η)) (ops : List LoopOp) :
    Registry η :=
  ops.foldl (Registry.step hooks) ⟨fun _ => none, []⟩

/-- The loop stays in its tracks, and each of its turns calls exactly what is
delivered in it. -/
def Dispatches (hooks : HookPtr → Option (Hook η)) (ops : List LoopOp) : Prop :=
  ∀ before, before <+: ops → ∃ s, loopRun hooks before = .ok s ∧
    s.turns = (registryAfter hooks before).calls

/-- Only hooks are added and dropped, and only for descriptors in the set does
the kernel report an event. -/
def LoopContract (s : LoopRun η) : LoopOp → Prop
  | .add _ p | .drop p => s.loop.hooks p ≠ none
  | .once _ (.event fd _) => s.loop.efd fd ≠ none
  | .once _ _ => True

instance decidableLoopContract [DecidableEq η] (s : LoopRun η) :
    ∀ op, Decidable (LoopContract s op)
  | .add _ p | .drop p => inferInstanceAs (Decidable (s.loop.hooks p ≠ none))
  | .once _ (.event fd _) => inferInstanceAs (Decidable (s.loop.efd fd ≠ none))
  | .once _ .timeout | .once _ .failed => isTrue trivial

/-! ## Owners -/

/-- The kernel keeps for each descriptor the hook registered for it, and the
hooks are those their owners made. -/
structure Tracks (hooks : HookPtr → Option (Hook η)) (s : LoopRun η)
    (g : Registry η) : Prop where
  made : ∀ p, (s.loop.hooks p).map (fun h => (h.fd, h.ioHandler))
    = (hooks p).map fun h => (h.fd, h.ioHandler)
  owned : ∀ fd, (s.loop.efd fd).map EpollEvent.ptr = g.owner fd
  live : ∀ fd p, g.owner fd = some p → hooks p ≠ none
  turns : s.turns = g.calls

section Step

variable {hooks : HookPtr → Option (Hook η)} {s : LoopRun η} {g : Registry η}

theorem Tracks.hook (ht : Tracks hooks s g) {p : HookPtr} {h : Hook η}
    (hp : s.loop.hooks p = some h) :
    ∃ h', hooks p = some h' ∧ h'.fd = h.fd ∧ h'.ioHandler = h.ioHandler := by
  have hmade := ht.made p
  rw [hp, Option.map_some, eq_comm, Option.map_eq_some_iff] at hmade
  obtain ⟨h', hh', heq⟩ := hmade
  exact ⟨h', hh', congrArg Prod.fst heq, congrArg Prod.snd heq⟩

theorem Tracks.aim (ht : Tracks hooks s g) {p : HookPtr} {h : Hook η}
    (hp : s.loop.hooks p = some h) :
    Tracks hooks { s with loop := s.loop.aim p h } g := by
  refine ⟨fun q => ?_, ht.owned, ht.live, ht.turns⟩
  rw [← ht.made q]
  by_cases hq : q = p
  · simp [MainLoop.aim, hq, hp]
  · simp [MainLoop.aim, hq]

theorem Tracks.watch (ht : Tracks hooks s g) (fd : Int) {ev : Option EpollEvent}
    (hlive : ∀ e ∈ ev, hooks e.ptr ≠ none) :
    Tracks hooks { s with loop := s.loop.watch fd ev }
      (g.assign fd (ev.map EpollEvent.ptr)) := by
  refine ⟨ht.made, fun d => ?_, fun d q => ?_, ht.turns⟩
  · by_cases hd : d = fd
    · simp [MainLoop.watch, Registry.assign, hd]
    · simpa [MainLoop.watch, Registry.assign, hd] using ht.owned d
  · by_cases hd : d = fd
    · simp only [Registry.assign, if_pos hd, Option.map_eq_some_iff]
      rintro ⟨e, he, rfl⟩
      exact hlive e he
    · simp only [Registry.assign, if_neg hd]
      exact ht.live d q

/-- Unless the wait fails, one operation keeps to the registry. -/
theorem loopStep_tracks (ht : Tracks hooks s g) {op : LoopOp}
    (hop : LoopContract s op) (hfailed : ∀ ev, op ≠ .once ev .failed) :
    ∃ t, loopStep s op = .ok t ∧ Tracks hooks t (g.step hooks op) := by
  cases op with
  | add ctl p =>
      obtain ⟨h, hp⟩ := Option.ne_none_iff_exists'.mp hop
      obtain ⟨h', hp', hfd, _⟩ := ht.hook hp
      have haim := ht.aim hp
      cases ctl with
      | false =>
          refine ⟨_, ?_, haim⟩
          simp only [loopStep, MainLoop.addEpollhook, hp]
          rfl
      | true =>
          have hwatch := haim.watch h.fd
            (show ∀ e ∈ some (⟨h.ev.events, p⟩ : EpollEvent),
              hooks e.ptr ≠ none by simp [hp'])
          refine ⟨⟨(s.loop.aim p h).watch h.fd (some ⟨h.ev.events, p⟩),
            s.turns⟩, ?_, ?_⟩
          · simp only [loopStep, MainLoop.addEpollhook, hp]
            rfl
          · simpa only [Registry.step, hp', Option.map_some, Option.getD_some,
              hfd] using hwatch
  | drop p =>
      obtain ⟨h, hp⟩ := Option.ne_none_iff_exists'.mp hop
      obtain ⟨h', hp', hfd, _⟩ := ht.hook hp
      have hwatch := (ht.aim hp).watch h.fd
        (show ∀ e ∈ (none : Option EpollEvent), hooks e.ptr ≠ none from nofun)
      refine ⟨{ s with loop := (s.loop.aim p h).watch h.fd none }, ?_, ?_⟩
      · simp only [loopStep, MainLoop.dropEpollhook, hp]
        rfl
      · simpa only [Registry.step, hp', Option.map_some, Option.getD_some, hfd,
          Option.map_none] using hwatch
  | once ev r =>
      cases r with
      | failed => exact absurd rfl (hfailed ev)
      | timeout =>
          refine ⟨{ s with turns := s.turns ++ [none] }, rfl, ht.made, ht.owned,
            ht.live, ?_⟩
          simp only [Registry.step, ht.turns]
      | event fd events =>
          obtain ⟨kept, hkept⟩ := Option.ne_none_iff_exists'.mp hop
          have howner : g.owner fd = some kept.ptr := by
            rw [← ht.owned fd, hkept, Option.map_some]
          obtain ⟨h', hp'⟩ :=
            Option.ne_none_iff_exists'.mp (ht.live fd kept.ptr howner)
          have hmade := ht.made kept.ptr
          rw [hp', Option.map_some, Option.map_eq_some_iff] at hmade
          obtain ⟨h, hp, heq⟩ := hmade
          have hhandler : h.ioHandler = h'.ioHandler := congrArg Prod.snd heq
          refine ⟨{ s with turns := s.turns ++
            [some ⟨kept.ptr, h.ioHandler, ⟨events, kept.ptr⟩⟩] }, ?_, ht.made,
            ht.owned, ht.live, ?_⟩
          · simp only [loopStep, MainLoop.loopOnce, MainLoop.epollWait, hkept,
              hp]
            rfl
          · simp [Registry.step, Registry.delivery, howner, hp', hhandler,
              ht.turns]

theorem loopRun_tracks {ops : List LoopOp} :
    ∀ {s : LoopRun η} {g : Registry η}, Tracks hooks s g →
      Guarded loopStep LoopContract s ops →
      (∀ ev, .once ev .failed ∉ ops) →
      ∃ t, ops.foldlM loopStep s = .ok t ∧
        Tracks hooks t (ops.foldl (Registry.step hooks) g) := by
  induction ops with
  | nil =>
      intro s g ht _ _
      exact ⟨s, rfl, ht⟩
  | cons op ops ih =>
      intro s g ht hguard hfailed
      obtain ⟨t, hstep, htrack⟩ := loopStep_tracks ht hguard.1
        fun ev hop => hfailed ev (hop ▸ List.mem_cons_self ..)
      obtain ⟨u, hrun, htrack'⟩ := ih htrack (hguard.2 t hstep)
        fun ev hmem => hfailed ev (List.mem_cons_of_mem _ hmem)
      refine ⟨u, ?_, htrack'⟩
      rw [List.foldlM_cons, hstep]
      exact hrun

/-- A wait that fails makes a call all the same, if it makes anything. -/
theorem loopStep_failed {s t : LoopRun η} {ev : EpollEvent}
    (h : loopStep s (.once ev .failed) = .ok t) :
    ∃ call, t.turns = s.turns ++ [some call] := by
  simp only [loopStep, MainLoop.loopOnce, MainLoop.epollWait] at h
  cases hp : s.loop.hooks ev.ptr with
  | none =>
      rw [hp] at h
      cases h
  | some hook =>
      rw [hp] at h
      cases h
      exact ⟨_, rfl⟩

end Step

/-- The loop calls exactly the handlers of the hooks whose events are delivered
exactly in the runs in which no wait fails. -/
theorem loop_dispatches_iff (hooks : HookPtr → Option (Hook η))
    (ops : List LoopOp)
    (hguard : Guarded loopStep LoopContract ⟨⟨hooks, fun _ => none⟩, []⟩ ops) :
    Dispatches hooks ops ↔ ∀ ev, .once ev .failed ∉ ops := by
  constructor
  · intro h ev hmem
    obtain ⟨before, after, rfl⟩ := List.append_of_mem hmem
    obtain ⟨s, hs, hturns⟩ := h before (List.prefix_append ..)
    obtain ⟨t, ht, hturns'⟩ := h (before ++ [.once ev .failed])
      ⟨after, by simp⟩
    rw [loopRun] at hs ht
    rw [List.foldlM_append, hs] at ht
    simp only [ok_bind, List.foldlM_cons, List.foldlM_nil, bind_pure] at ht
    obtain ⟨call, hcall⟩ := loopStep_failed ht
    rw [hcall, hturns] at hturns'
    simp [registryAfter, Registry.step] at hturns'
  · rintro hfailed before ⟨after, rfl⟩
    have hstart : Tracks hooks ⟨⟨hooks, fun _ => none⟩, []⟩
        ⟨fun _ => none, []⟩ := ⟨fun _ => rfl, fun _ => rfl, nofun, rfl⟩
    obtain ⟨s, hs, ht⟩ := loopRun_tracks hstart hguard.left
      fun ev hmem => hfailed ev (List.mem_append_left _ hmem)
    exact ⟨s, hs, ht.turns⟩

/-- Two hooks, the second with another handler. -/
def twoHooks : HookPtr → Option (Hook Bool)
  | 16 => some ⟨⟨1, 0⟩, 3, false⟩
  | 32 => some ⟨⟨1, 0⟩, 4, true⟩
  | _ => none

theorem loop_dispatches_two :
    Dispatches twoHooks [.add true 16, .add true 32, .once ⟨0, 7⟩ (.event 4 1),
      .drop 16, .once ⟨0, 7⟩ .timeout] ↔
    ∀ ev, .once ev .failed ∉ ([.add true 16, .add true 32,
      .once ⟨0, 7⟩ (.event 4 1), .drop 16, .once ⟨0, 7⟩ .timeout]
      : List LoopOp) :=
  loop_dispatches_iff twoHooks _ (by decide)

/-- A signal interrupts the wait behind a first event: the loop makes the same
call once more. -/
theorem loop_misdirected : ¬ ∀ (hooks : HookPtr → Option (Hook Bool))
    (ops : List LoopOp),
    Guarded loopStep LoopContract ⟨⟨hooks, fun _ => none⟩, []⟩ ops →
    Dispatches hooks ops := by
  intro h
  obtain ⟨s, hs, hturns⟩ := h twoHooks
    [.add true 16, .once ⟨0, 0⟩ (.event 3 1), .once ⟨1, 16⟩ .failed]
    (by decide) _ List.prefix_rfl
  cases hs
  revert hturns
  decide

/-! ## The loop as the transfer layer sees it -/

/-- `EPOLLIN` and `EPOLLOUT` in the mask of an event. -/
def plainEvents (ev : EpollEvent) : EpollEvents :=
  ⟨ev.events &&& 1 ≠ 0, ev.events &&& 4 ≠ 0⟩

/-- What the transfer layer knows of a hook. -/
def plainHook (h : Hook η) : AuraEpollHook := ⟨h.fd, plainEvents h.ev⟩

/-- And of the set. -/
def plainSet (m : MainLoop η) : EpollSet := fun fd =>
  (m.efd fd).map plainEvents

/-- A hook that is added gets its own address, which the transfer layer does not
look at, and is otherwise added as that has it. -/
theorem addEpollhook_plain {m : MainLoop η} {p : HookPtr} {h : Hook η}
    (hp : m.hooks p = some h) (ctl : Bool) :
    ∃ ret m' h', m.addEpollhook ctl p = .ok (ret, m') ∧
      m'.hooks p = some h' ∧ plainHook h' = plainHook h ∧
      auraAddEpollhook ctl (plainSet m) (plainHook h) = (ret, plainSet m') := by
  have haim : (m.aim p h).hooks p
      = some { h with ev := { h.ev with ptr := p } } := if_pos rfl
  cases ctl with
  | false =>
      refine ⟨1, m.aim p h, _, ?_, haim, rfl, rfl⟩
      rw [MainLoop.addEpollhook, hp]
      rfl
  | true =>
      refine ⟨0, (m.aim p h).watch h.fd (some { h.ev with ptr := p }), _, ?_,
        haim, rfl, ?_⟩
      · rw [MainLoop.addEpollhook, hp]
        rfl
      · rw [auraAddEpollhook, if_pos rfl, Prod.mk.injEq]
        refine ⟨rfl, funext fun fd => ?_⟩
        by_cases hfd : fd = h.fd
        · simp [plainSet, plainHook, plainEvents, MainLoop.watch, hfd]
        · simp [plainSet, plainHook, MainLoop.watch, MainLoop.aim, hfd]

end Aura.Proofs
