import Aura.Lib.Confined
import Aura.Proofs.Footprint
import Aura.Proofs.Interest
import Aura.Proofs.Opens
import Aura.Ref.Server

/-!
# Instances on one loop

All instances register with one epoll set. What an instance does there concerns
its own descriptor (`instanceStep_confined`), and an instance that is opened
takes a descriptor nobody has. So each instance of the process is, whatever
the others do and whoever waits, what it would be alone with a loop
(`instances_isolated`); and what was proved of one on a loop of its own is
true of all on one loop: none is forgotten by the kernel, with bytes to read or
frames in its queue, and nothing else is in the set (`all_served`).
-/

namespace Aura.Proofs

open Aura.Lib Aura.Ref

/-! ## One entry of the epoll set -/

section Entry

variable {η σ : Type} {S T : EpollSet}

/-- A walk over the queue asks the epoll set nothing. -/
theorem writeLoop_congr (ctl : Bool) :
    ∀ (rest kept : List AuraChunk) (ws : List WriteResult) (S T : EpollSet)
      (x : AuraAsyncXfer η σ), S x.hook.fd = T x.hook.fd →
      Alike (fun a b => a.1 = b.1 ∧ a.2.1 = b.2.1 ∧
          a.2.2 x.hook.fd = b.2.2 x.hook.fd)
        (writeLoop ctl kept rest ws S x) (writeLoop ctl kept rest ws T x) := by
  intro rest
  induction rest with
  | nil => exact fun kept ws S T x h => ⟨rfl, rfl, h⟩
  | cons chunk rest ih =>
      intro kept ws S T x h
      -- the walk goes on, and what it has sent is counted in
      have hnext : ∀ (sent : Sent) (kept : List AuraChunk) (S T : EpollSet)
          (y : AuraAsyncXfer η σ), y.hook.fd = x.hook.fd →
          S x.hook.fd = T x.hook.fd →
          Alike (fun a b => a.1 = b.1 ∧ a.2.1 = b.2.1 ∧
              a.2.2 x.hook.fd = b.2.2 x.hook.fd)
            (writeLoop ctl kept rest ws.tail S y >>= fun r =>
              pure (sent.append r.1, r.2))
            (writeLoop ctl kept rest ws.tail T y >>= fun r =>
              pure (sent.append r.1, r.2)) := by
        intro sent kept S T y hy h
        rw [← hy] at h ⊢
        refine (ih kept ws.tail S T y h).bind fun a b hab => ?_
        obtain ⟨h₁, h₂, h₃⟩ := hab
        exact ⟨congrArg sent.append h₁, h₂, h₃⟩
      rw [writeLoop, writeLoop]
      cases ws.headD .eagain with
      | eagain => exact ⟨rfl, rfl, h⟩
      | failed => exact ih _ _ S T x h
      | wrote k =>
          dsimp only
          generalize min k (sizeT (chunk.size - x.pos)) = n
          by_cases hout : 0 < n ∧ chunk.alloc < x.pos + n
          · simp only [if_pos hout]
            exact rfl
          · simp only [if_neg hout]
            by_cases hdone : chunk.size = x.pos + n
            · simp only [if_pos hdone]
              by_cases hempty : (kept ++ rest).isEmpty = true
              · simp only [if_pos hempty]
                cases ctl with
                | false =>
                    exact hnext _ kept S T { x with
                      pos := 0
                      hook := (auraEpollout false S x.hook false).2.1 } rfl h
                | true =>
                    exact hnext _ kept (auraEpollout true S x.hook false).2.2
                      (auraEpollout true T x.hook false).2.2 { x with
                        pos := 0
                        hook := (auraEpollout true S x.hook false).2.1 }
                      rfl (by simp [auraEpollout])
              · simp only [if_neg hempty]
                exact hnext _ kept S T { x with pos := 0 } rfl h
            · simp only [if_neg hdone]
              exact hnext _ (kept ++ [chunk]) S T { x with pos := x.pos + n }
                rfl h

/-- What a change of the epoll set and of a transfer object amounts to when it
concerns the descriptor of the object alone. -/
def Concerns (x y : AuraAsyncXfer η σ) (S T : EpollSet) : Prop :=
  y.hook.fd = x.hook.fd ∧ ∀ fd, fd ≠ x.hook.fd → T fd = S fd

theorem writeLoop_concerns {ctl : Bool} {rest kept : List AuraChunk}
    {ws : List WriteResult} {x y : AuraAsyncXfer η σ} {sent : Sent}
    (h : writeLoop ctl kept rest ws S x = .ok (sent, y, T)) :
    Concerns x y S T := by
  refine writeLoop_rule (P := fun _ S x T y => Concerns x y S T) ?_ ?_ ?_ ?_
    rest kept ws S x h
  · exact fun _ _ _ => ⟨rfl, fun _ _ => rfl⟩
  · exact fun _ _ _ _ _ _ _ h => h
  · exact fun _ _ _ _ _ _ _ _ h => h
  · rintro chunk S x T y ⟨hfd, hT⟩
    cases ctl with
    | false => exact ⟨hfd, hT⟩
    | true => exact ⟨hfd, fun fd hne => (hT fd hne).trans (if_neg hne)⟩

theorem enqueue_concerns (ctl mem : Bool) (S : EpollSet)
    (x : AuraAsyncXfer η σ) (c : AuraChunk) :
    Concerns x (auraAsyncEnqueueChunk ctl mem S x c).2.1 S
      (auraAsyncEnqueueChunk ctl mem S x c).2.2 := by
  generalize h : auraAsyncEnqueueChunk ctl mem S x c = r
  obtain ⟨ret, y, T⟩ := r
  cases auraAsyncEnqueueChunk_enqueued h with
  | refused | dropped | next => exact ⟨rfl, fun _ _ => rfl⟩
  | nodeless | first => exact ⟨rfl, fun fd hne => if_neg hne⟩

theorem enqueue_congr (ctl mem : Bool) (x : AuraAsyncXfer η σ) (c : AuraChunk)
    (h : S x.hook.fd = T x.hook.fd) :
    (auraAsyncEnqueueChunk ctl mem S x c).2.1
        = (auraAsyncEnqueueChunk ctl mem T x c).2.1 ∧
      (auraAsyncEnqueueChunk ctl mem S x c).2.2 x.hook.fd
        = (auraAsyncEnqueueChunk ctl mem T x c).2.2 x.hook.fd := by
  rw [auraAsyncEnqueueChunk, auraAsyncEnqueueChunk]
  cases x.transferlist.isEmpty <;> cases ctl <;> cases mem <;>
    simp [auraEpollout, h]

end Entry

/-! ## A step of an instance -/

/-- The descriptor of an instance. -/
def descriptor (o : OpenSerial) : Int := o.xfer.hook.fd

section Step

variable {host : Endian} {S T : EpollSet} {x : SerialXfer}

/-- The same on two epoll sets that agree on the descriptor of `x`. -/
def SamePort (fd : Int) (p q : Port) : Prop :=
  p.xfer = q.xfer ∧ p.efd fd = q.efd fd

theorem called_congr (env : CallEnv) (o : UrpcObject) (c : AuraChunk)
    (h : S x.hook.fd = T x.hook.fd) :
    SamePort x.hook.fd (called env o ⟨x, S⟩ c) (called env o ⟨x, T⟩ c) := by
  obtain ⟨hxfer, hefd⟩ := enqueue_congr env.ctl env.node x c h
  unfold called
  cases o.reply.isSome with
  | false => exact ⟨hxfer, hefd⟩
  | true => exact ⟨by simp only [if_true, hxfer], hefd⟩

theorem urpcSerialCall_congr (env : CallEnv) (id : Nat)
    (h : S x.hook.fd = T x.hook.fd) :
    Alike (SamePort x.hook.fd) (urpcSerialCall host env id ⟨x, S⟩)
      (urpcSerialCall host env id ⟨x, T⟩) := by
  cases ho : x.data.inst.objects[id]? with
  | none =>
      rw [urpcSerialCall, urpcSerialCall, objectAt, ho]
      exact rfl
  | some o =>
      rw [urpcSerialCall_of_object (p := ⟨x, S⟩) ho,
        urpcSerialCall_of_object (p := ⟨x, T⟩) ho]
      dsimp only
      cases callFrame host env.mem env.grants env.fuel env.L x.data id with
      | error e => exact rfl
      | ok frame =>
          cases frame with
          | none => exact ⟨rfl, h⟩
          | some c => exact called_congr env o c h

theorem urpcSerialDiscovery_congr (env : CallEnv)
    (h : S x.hook.fd = T x.hook.fd) :
    Alike (SamePort x.hook.fd) (urpcSerialDiscovery env ⟨x, S⟩)
      (urpcSerialDiscovery env ⟨x, T⟩) := by
  rw [urpcSerialDiscovery, urpcSerialDiscovery]
  cases auraChunkAllocate env.mem discoveryRequest.length with
  | none => exact rfl
  | some c =>
      dsimp only
      cases c.store 0 discoveryRequest with
      | error e => exact rfl
      | ok c =>
          have hcongr := enqueue_congr (S := S) (T := T) env.ctl env.node
            { x with data := { x.data with objcount := 0 } }
            { c with size := discoveryRequest.length } h
          revert hcongr
          simp only [ok_bind]
          generalize auraAsyncEnqueueChunk env.ctl env.node S
            { x with data := { x.data with objcount := 0 } }
            { c with size := discoveryRequest.length } = a
          generalize auraAsyncEnqueueChunk env.ctl env.node T
            { x with data := { x.data with objcount := 0 } }
            { c with size := discoveryRequest.length } = b
          obtain ⟨_, y, S'⟩ := a
          obtain ⟨_, y', T'⟩ := b
          rintro ⟨hy, hefd⟩
          cases hy
          dsimp only
          cases auraAsyncExpectBytes (env.grants 0) y 1 with
          | error e => exact rfl
          | ok r => exact ⟨rfl, hefd⟩

theorem auraAsyncXferHandler_congr (g : Grant) (ev : EpollEvents)
    (r : ReadResult) (ws : List WriteResult) (ctl : Bool)
    (h : S x.hook.fd = T x.hook.fd) :
    Alike (fun a b => a.2.1 = b.2.1 ∧ a.2.2 x.hook.fd = b.2.2 x.hook.fd)
      (auraAsyncXferHandler (handleData host g) ev r ws ctl S x)
      (auraAsyncXferHandler (handleData host g) ev r ws ctl T x) := by
  rw [auraAsyncXferHandler, auraAsyncXferHandler]
  by_cases hin : ev.epollin = true
  · rw [if_pos hin, if_pos hin]
    cases auraAsyncXferHandlerIn (handleData host g) r x with
    | error e => exact rfl
    | ok y => exact ⟨rfl, h⟩
  · rw [if_neg hin, if_neg hin]
    by_cases hout : ev.epollout = true
    · rw [if_pos hout, if_pos hout]
      exact (writeLoop_congr ctl x.transferlist [] ws S T x h).mono
        fun _ _ hab => hab.2
    · rw [if_neg hout, if_neg hout]
      exact ⟨rfl, h⟩

theorem auraAsyncXferHandler_concerns {g : Grant} {ev : EpollEvents}
    {r : ReadResult} {ws : List WriteResult} {ctl : Bool} {sent : Sent}
    {y : SerialXfer}
    (h : auraAsyncXferHandler (handleData host g) ev r ws ctl S x
      = .ok (sent, y, T)) : Concerns x y S T := by
  rw [auraAsyncXferHandler] at h
  by_cases hin : ev.epollin = true
  · rw [if_pos hin] at h
    obtain ⟨z, hz, h⟩ := bind_eq_ok.mp h
    cases h
    have hhook := (auraAsyncXferHandlerIn_leavesQueue
      (handleData_leavesQueue host g) hz).2
    exact ⟨congrArg AuraEpollHook.fd hhook, fun _ _ => rfl⟩
  · rw [if_neg hin] at h
    by_cases hout : ev.epollout = true
    · rw [if_pos hout] at h
      exact writeLoop_concerns h
    · rw [if_neg hout] at h
      cases h
      exact ⟨rfl, fun _ _ => rfl⟩

theorem urpcSerialCall_concerns {env : CallEnv} {id : Nat} {p q : Port}
    (h : urpcSerialCall host env id p = .ok q) :
    Concerns p.xfer q.xfer p.efd q.efd := by
  rcases urpcSerialCall_eq_ok h with rfl | ⟨o, c, _, rfl⟩
  · exact ⟨rfl, fun _ _ => rfl⟩
  · have hqueued := enqueue_concerns env.ctl env.node p.efd p.xfer c
    unfold called
    cases o.reply.isSome with
    | false => exact hqueued
    | true => exact hqueued

theorem urpcSerialDiscovery_concerns {env : CallEnv} {p q : Port}
    (h : urpcSerialDiscovery env p = .ok q) :
    Concerns p.xfer q.xfer p.efd q.efd := by
  obtain ⟨chunk, ret, y, _, henq, _, _, hhook⟩ := urpcSerialDiscovery_hands h
  have hqueued := enqueue_concerns env.ctl env.node p.efd
    { p.xfer with data := { p.xfer.data with objcount := 0 } } chunk
  rw [henq] at hqueued
  exact ⟨(congrArg AuraEpollHook.fd hhook).trans hqueued.1, hqueued.2⟩

theorem instanceStep_concerns {o o' : OpenSerial} {e : InstanceEvent}
    (h : instanceStep host o S e = .ok (o', T)) :
    Concerns o.xfer o'.xfer S T := by
  cases e with
  | turn ev r ws ctl g =>
      rw [instanceStep] at h
      split at h
      · cases h
      · obtain ⟨⟨sent, y, T⟩, hrun, h⟩ := bind_eq_ok.mp h
        cases h
        exact auraAsyncXferHandler_concerns hrun
  | call env id =>
      obtain ⟨q, hq, h⟩ := bind_eq_ok.mp h
      cases h
      exact urpcSerialCall_concerns hq
  | discovery env =>
      rw [instanceStep] at h
      split at h
      · cases h
      · obtain ⟨q, hq, h⟩ := bind_eq_ok.mp h
        cases h
        exact urpcSerialDiscovery_concerns hq
  | caches mem locals n =>
      obtain ⟨_, _, h⟩ := bind_eq_ok.mp h
      cases h
      exact ⟨rfl, fun _ _ => rfl⟩

/-- An instance has to do with its own descriptor. -/
theorem instanceStep_confined (host : Endian) :
    Confined (instanceStep host) descriptor where
  keeps h := (instanceStep_concerns h).1
  frame h := (instanceStep_concerns h).2
  congr := by
    intro o S T e h
    cases e with
    | turn ev r ws ctl g =>
        rw [instanceStep, instanceStep]
        split
        · exact rfl
        · exact (auraAsyncXferHandler_congr g ev r ws ctl h).bind
            fun a b hab => ⟨by rw [hab.1], hab.2⟩
    | call env id =>
        exact (urpcSerialCall_congr env id h).bind
          fun a b hab => ⟨by rw [hab.1], hab.2⟩
    | discovery env =>
        rw [instanceStep, instanceStep]
        split
        · exact rfl
        · exact (urpcSerialDiscovery_congr env h).bind
            fun a b hab => ⟨by rw [hab.1], hab.2⟩
    | caches mem locals n =>
        rw [instanceStep, instanceStep]
        cases lUrpcDiscovery mem locals n o.xfer.data.inst with
        | error e => exact rfl
        | ok r => exact ⟨rfl, h⟩

end Step

/-! ## The process -/

section Process

variable {host : Endian} {w w' : SerialWorld}

def asCrowd (w : SerialWorld) : Crowd OpenSerial Int (Option EpollEvents) :=
  ⟨w.instances, w.efd⟩

def asEvent : ServerEvent → CrowdEvent OpenEnv InstanceEvent
  | .opens a => .joins a
  | .on k e => .acts k e

theorem serverStep_renames (host : Endian) :
    Renames (serverStep host)
      (crowdStep .nullDeref urpcSerialOpen (instanceStep host)) asCrowd
      asEvent := by
  intro w e
  cases e with
  | opens a =>
      rw [serverStep, openStep, map_bind]
      rfl
  | on k e =>
      rw [serverStep, asEvent, crowdStep]
      simp only [asCrowd]
      cases w.instances[k]? with
      | none => rfl
      | some o =>
          simp only [map_bind]
          rfl

/-- What an attempt leaves behind when it succeeds: an entry of the epoll set
that has the kernel report what comes in, and nothing to go out. -/
structure Admitted (a : OpenEnv) (efd : EpollSet) (o : OpenSerial)
    (efd' : EpollSet) : Prop where
  fd : descriptor o = a.fd
  mask : o.xfer.hook.events = ⟨true, false⟩
  queue : o.xfer.transferlist = []
  entry : efd' a.fd = some ⟨true, false⟩
  frame : ∀ fd, fd ≠ a.fd → efd' fd = efd fd

theorem attach_registers {a : OpenEnv} {efd efd' : EpollSet}
    {nl : Option OpenSerial} (h : attach a efd = .ok (nl, efd')) :
    ∃ o, nl = some o ∧ Admitted a efd o efd' := by
  by_cases hsteps : a.xfer = true ∧ a.add = true ∧ a.mod = true
  · obtain ⟨hx, ha, hm⟩ := hsteps
    rw [attach, auraCreateAsyncXfer, hx, ha, hm] at h
    cases h
    exact ⟨_, rfl, rfl, rfl, rfl, if_pos rfl,
      fun fd hne => (if_neg hne).trans (if_neg hne)⟩
  · rw [attach_fails hsteps] at h
    cases h

theorem urpcSerialOpen_registers {a : OpenEnv} {efd efd' : EpollSet}
    {nl : Option OpenSerial} (h : urpcSerialOpen a efd = .ok (nl, efd')) :
    (nl = none ∧ efd' = efd) ∨ ∃ o, nl = some o ∧ Admitted a efd o efd' := by
  by_cases hrefused : Refused a
  · rw [urpcSerialOpen_refused hrefused] at h
    cases h
    exact .inl ⟨rfl, rfl⟩
  · rw [Refused, not_or] at hrefused
    obtain ⟨hargc, hport⟩ := hrefused
    by_cases hsettled : ∃ str, Settled a str
    · obtain ⟨str, hset⟩ := hsettled
      rw [urpcSerialOpen_settled hset,
        if_neg fun hfails => hport ⟨str, hset, hfails⟩] at h
      exact .inr (attach_registers h)
    · rw [urpcSerialOpen_unsettled (Nat.not_lt.mp hargc) hsettled] at h
      cases h

theorem urpcSerialOpen_returns {a : OpenEnv} {efd efd' : EpollSet}
    {o : OpenSerial} (h : urpcSerialOpen a efd = .ok (some o, efd')) :
    Admitted a efd o efd' := by
  rcases urpcSerialOpen_registers h with ⟨hnone, _⟩ | ⟨o', ho', hreg⟩
  · cases hnone
  · cases ho'
    exact hreg

theorem urpcSerialOpen_joins :
    Joins urpcSerialOpen OpenEnv.fd descriptor where
  takes h := (urpcSerialOpen_returns h).fd
  frame h := by
    rcases urpcSerialOpen_registers h with ⟨_, rfl⟩ | ⟨_, _, hreg⟩
    · exact fun _ _ => rfl
    · exact hreg.frame

/-- `open` answers a descriptor that is not in use, or none. -/
def UnusedFd (w : SerialWorld) : ServerEvent → Prop
  | .opens a => ∀ o ∈ w.instances, descriptor o ≠ a.fd
  | .on _ _ => True

instance decidableUnusedFd : ∀ (w : SerialWorld) (e : ServerEvent),
    Decidable (UnusedFd w e)
  | w, .opens a =>
      inferInstanceAs (Decidable (∀ o ∈ w.instances, descriptor o ≠ a.fd))
  | _, .on _ _ => isTrue trivial

theorem UnusedFd.vacant (w : SerialWorld) (e : ServerEvent)
    (h : UnusedFd w e) :
    Vacant OpenEnv.fd descriptor (asCrowd w) (asEvent e) := by
  cases e with
  | opens a => exact h
  | on k e => trivial

/-- A process before anything was opened. -/
def serverStart : SerialWorld := ⟨fun _ => none, []⟩

theorem distinct_descriptors
    (h : Runs (serverStep host) UnusedFd serverStart w) :
    Apart descriptor (asCrowd w) :=
  (instanceStep_confined host).apart_run urpcSerialOpen_joins
    ((serverStep_renames host).runs UnusedFd.vacant h) List.nodup_nil

/-! ## Alone and among others -/

/-- What the events of the process are to its `k`-th instance. -/
def ownEvents (k : Nat) (e : ServerEvent) : List InstanceEvent :=
  (asEvent e).own k

/-- An instance on a loop of its own. -/
def soleStep (host : Endian) (p : OpenSerial × EpollSet) (e : InstanceEvent) :
    Res (OpenSerial × EpollSet) :=
  instanceStep host p.1 p.2 e

/-- From any state of the process on, whatever it opens and whatever happens to
the others, an instance comes to be in the state its own events bring it to on
a loop of its own, is registered as it would be there, and does next what it
would do there. -/
theorem instances_isolated {es : List ServerEvent} {k : Nat} {o : OpenSerial}
    {efd : EpollSet} (hw : Runs (serverStep host) UnusedFd serverStart w)
    (hopens : Guarded (serverStep host) UnusedFd w es)
    (hes : es.foldlM (serverStep host) w = .ok w')
    (ho : w.instances[k]? = some o)
    (hefd : efd o.xfer.hook.fd = w.efd o.xfer.hook.fd) :
    ∃ o' efd',
      (es.flatMap (ownEvents k)).foldlM (soleStep host) (o, efd)
        = .ok (o', efd') ∧
      w'.instances[k]? = some o' ∧
      o'.xfer.hook.fd = o.xfer.hook.fd ∧
      efd' o.xfer.hook.fd = w'.efd o.xfer.hook.fd ∧
      ∀ e, Alike (fun p q => p.1 = q.1) (soleStep host (o', w'.efd) e)
        (soleStep host (o', efd') e) := by
  have hconfined := instanceStep_confined host
  have hrenames := serverStep_renames host
  obtain ⟨o', efd', hrun, ho', hkey, hentry⟩ :=
    hconfined.isolated urpcSerialOpen_joins
      (hrenames.guarded UnusedFd.vacant hopens) (hrenames.foldlM hes)
      (distinct_descriptors hw) ho hefd
  rw [List.flatMap_map] at hrun
  refine ⟨o', efd', hrun, ho', hkey, hentry, fun e => ?_⟩
  have hsame : w'.efd (descriptor o') = efd' (descriptor o') := by
    rw [hkey]
    exact hentry.symm
  exact (hconfined.congr e hsame).mono fun _ _ h => h.1

/-! ## Nobody is forgotten -/

/-- The kernel reports what there is to read, and goes on to when it is asked
for something else. -/
def Readable {η σ : Type} (x : AuraAsyncXfer η σ) (v : Option EpollEvents) :
    Prop :=
  x.hook.events.epollin = true ∧ ∃ m, v = some m ∧ m.epollin = true

theorem writeLoop_readable {η σ : Type} {ctl : Bool}
    {rest kept : List AuraChunk} {ws : List WriteResult} {S T : EpollSet}
    {x y : AuraAsyncXfer η σ} {sent : Sent}
    (h : writeLoop ctl kept rest ws S x = .ok (sent, y, T))
    (hx : Readable x (S x.hook.fd)) : Readable y (T y.hook.fd) := by
  refine writeLoop_rule (P := fun _ S x T y =>
    Readable x (S x.hook.fd) → Readable y (T y.hook.fd)) ?_ ?_ ?_ ?_
    rest kept ws S x h hx
  · exact fun _ _ _ hx => hx
  · exact fun _ _ _ _ _ _ _ hrest hx => hrest hx
  · exact fun _ _ _ _ _ _ _ _ hrest hx => hrest hx
  · rintro chunk S x T y hrest ⟨hmask, hset⟩
    cases ctl with
    | false => exact hrest ⟨hmask, hset⟩
    | true => exact hrest ⟨hmask, _, if_pos rfl, hmask⟩

theorem enqueue_readable {η σ : Type} {ctl mem : Bool} {S T : EpollSet}
    {x y : AuraAsyncXfer η σ} {c : AuraChunk} {ret : Int}
    (h : auraAsyncEnqueueChunk ctl mem S x c = (ret, y, T))
    (hx : Readable x (S x.hook.fd)) : Readable y (T y.hook.fd) := by
  cases auraAsyncEnqueueChunk_enqueued h with
  | refused | dropped | next => exact hx
  | nodeless | first => exact ⟨hx.1, _, if_pos rfl, hx.1⟩

/-- The kernel reports all an instance waits for. -/
def Served (o : OpenSerial) (v : Option EpollEvents) : Prop :=
  Readable o.xfer v ∧
    (o.xfer.transferlist ≠ [] → ∃ m, v = some m ∧ m.epollout = true)

theorem enqueue_served {ctl mem : Bool} {S T : EpollSet} {x y : SerialXfer}
    {c : AuraChunk} {ret : Int} {o : OpenSerial}
    (h : auraAsyncEnqueueChunk ctl mem S x c = (ret, y, T))
    (hqueue : o.xfer.transferlist = y.transferlist)
    (hhook : o.xfer.hook = y.hook) (hread : Readable x (S x.hook.fd))
    (harmed : Armed x S) : Served o (T o.xfer.hook.fd) := by
  have hread := enqueue_readable h hread
  have harmed := (auraAsyncEnqueueChunk_enqueued h).armed harmed
  rw [Served, Readable, hqueue, hhook]
  exact ⟨hread, harmed⟩

theorem instanceStep_served {o o' : OpenSerial} {S T : EpollSet}
    {e : InstanceEvent} (ho : Served o (S (descriptor o)))
    (h : instanceStep host o S e = .ok (o', T)) :
    Served o' (T (descriptor o')) := by
  obtain ⟨hread, harmed⟩ := ho
  cases e with
  | turn ev r ws ctl g =>
      rw [instanceStep] at h
      split at h
      · cases h
      · obtain ⟨⟨sent, y, T⟩, hrun, h⟩ := bind_eq_ok.mp h
        cases h
        refine ⟨?_, auraAsyncXferHandler_armed (handleData_leavesQueue host g)
          harmed hrun⟩
        rw [auraAsyncXferHandler] at hrun
        split at hrun
        · obtain ⟨z, hz, hrun⟩ := bind_eq_ok.mp hrun
          cases hrun
          have hhook := (auraAsyncXferHandlerIn_leavesQueue
            (handleData_leavesQueue host g) hz).2
          rw [Readable, descriptor, hhook]
          exact hread
        · split at hrun
          · exact writeLoop_readable hrun hread
          · cases hrun
            exact hread
  | call env id =>
      obtain ⟨q, hq, h⟩ := bind_eq_ok.mp h
      cases h
      rcases urpcSerialCall_eq_ok hq with rfl | ⟨_, c, _, rfl⟩
      · exact ⟨hread, harmed⟩
      · unfold called
        split <;> exact enqueue_served rfl rfl rfl hread harmed
  | discovery env =>
      rw [instanceStep] at h
      split at h
      · cases h
      · obtain ⟨q, hq, h⟩ := bind_eq_ok.mp h
        cases h
        obtain ⟨c, ret, y, _, henq, hqueue, _, hhook⟩ :=
          urpcSerialDiscovery_hands hq
        exact enqueue_served henq hqueue hhook hread harmed
  | caches mem locals n =>
      obtain ⟨_, _, h⟩ := bind_eq_ok.mp h
      cases h
      exact ⟨hread, harmed⟩

theorem Admitted.served {a : OpenEnv} {efd efd' : EpollSet}
    {o : OpenSerial} (h : Admitted a efd o efd') :
    Served o (efd' (descriptor o)) := by
  rw [h.fd, h.entry]
  exact ⟨⟨congrArg EpollEvents.epollin h.mask, _, rfl, rfl⟩,
    fun hne => absurd h.queue hne⟩

/-- Whenever the process comes back to its loop, the kernel has been asked to
report what each instance waits for, input always and output while there is
something in its queue, and is asked about nothing else. -/
theorem all_served (h : Runs (serverStep host) UnusedFd serverStart w) :
    (∀ o ∈ w.instances, ∃ m, w.efd o.xfer.hook.fd = some m ∧
      m.epollin = true ∧ (o.xfer.transferlist ≠ [] → m.epollout = true)) ∧
    ∀ fd, w.efd fd ≠ none → ∃ o ∈ w.instances, o.xfer.hook.fd = fd := by
  have hcrowd := (serverStep_renames host).runs UnusedFd.vacant h
  have hconfined := instanceStep_confined host
  constructor
  · intro o ho
    have hserved := hconfined.lifts urpcSerialOpen_joins (P := Served)
      (fun _ _ _ _ hopen => (urpcSerialOpen_returns hopen).served)
      (fun _ _ _ _ _ ho hstep => instanceStep_served ho hstep) hcrowd
      List.nodup_nil (fun o ho => absurd ho List.not_mem_nil) o ho
    obtain ⟨⟨_, m, hm, hin⟩, hout⟩ := hserved
    refine ⟨m, hm, hin, fun hne => ?_⟩
    obtain ⟨m', hm', hout'⟩ := hout hne
    cases hm.symm.trans hm'
    exact hout'
  · intro fd hfd
    by_contra hnobody
    refine hfd (hconfined.uninhabited urpcSerialOpen_joins ?_
      hcrowd (fun _ _ => rfl) fd fun o ho heq => hnobody ⟨o, ho, heq⟩)
    intro a efd efd' hopen
    rcases urpcSerialOpen_registers hopen with ⟨_, hsame⟩ | ⟨o, ho, _⟩
    · exact hsame
    · cases ho

end Process

/-- Two ports are opened. -/
def twoOpens : List ServerEvent :=
  [.opens (attempt true), .opens { attempt true with fd := 4 }]

/-- Both are asked to discover; one request goes out in two pieces, of the other
nothing can be written. -/
def twoDiscoveries : List ServerEvent :=
  [.on 0 (.discovery generousEnv), .on 1 (.discovery generousEnv),
    .on 0 (.turn ⟨false, true⟩ .failed [.wrote 3] true none),
    .on 1 (.turn ⟨false, true⟩ .failed [.failed] true none),
    .on 0 (.turn ⟨false, true⟩ .failed [.wrote 1] true none)]

theorem runs_twoOpens :
    Runs (serverStep .little) UnusedFd serverStart
      (afterwards (serverStep .little) serverStart twoOpens) :=
  Runs.afterwards (by decide +kernel)

theorem instances_isolated_faulty :
    ∃ o o' efd, o.xfer.transferlist = [] ∧ o'.xfer.transferlist = [] ∧
      (twoDiscoveries.flatMap (ownEvents 0)).foldlM (soleStep .little)
        (o, fun _ => some ⟨true, false⟩) = .ok (o', efd) := by
  have hqueues : (twoDiscoveries.foldlM (serverStep .little)
      (afterwards (serverStep .little) serverStart twoOpens)).map
        (fun w => w.instances.map (·.xfer.transferlist))
      = .ok [[], [⟨discoveryRequest, 4⟩]] := by decide +kernel
  obtain ⟨w', hes, hqueues⟩ := map_eq_ok.mp hqueues
  obtain ⟨o', efd, hrun, ho', _⟩ := @instances_isolated .little _ w' _ 0 _
    (fun _ => some ⟨true, false⟩) runs_twoOpens (by decide +kernel) hes rfl rfl
  refine ⟨_, o', efd, rfl, ?_, hrun⟩
  have hfirst := congrArg (·[0]?) hqueues
  rw [List.getElem?_map, ho'] at hfirst
  exact Option.some.inj hfirst

/-- Each of the two is registered, the second for its request as well. -/
theorem all_served_twoOpens : ∃ w : SerialWorld,
    w.instances.map (·.xfer.transferlist.length) = [0, 1] ∧
      ∀ o ∈ w.instances, ∃ m, w.efd o.xfer.hook.fd = some m ∧
        m.epollin = true ∧ (o.xfer.transferlist ≠ [] → m.epollout = true) := by
  have hrun : Runs (serverStep .little) UnusedFd serverStart
      (afterwards (serverStep .little) serverStart
        (twoOpens ++ twoDiscoveries)) := Runs.afterwards (by decide +kernel)
  exact ⟨_, by decide +kernel, (all_served hrun).1⟩

end Aura.Proofs
