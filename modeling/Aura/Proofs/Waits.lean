import Aura.Proofs.Reading

/-!
# What ends a wait

Nothing but the device does: the loop counter of a discovery is never looked
at. A wait ends exactly when what the turns of the main loop bring is what ends
it (`wait_stops_iff`), and with a device that says nothing it never does
(`wait_never_stops`).
-/

namespace Aura.Proofs

open Aura.Lib Aura.Ref

/-! ## The two sides of a transfer -/

/-- What `x` has to send, with what `y` receives. -/
def facing {η σ : Type} (y x : AuraAsyncXfer η σ) : AuraAsyncXfer η σ :=
  { y with transferlist := x.transferlist, pos := x.pos, hook := x.hook }

section Sides

variable {η σ : Type} {ctl : Bool}

/-- A walk over the queue does not look at what is received. -/
theorem writeLoop_facing (y : AuraAsyncXfer η σ) :
    ∀ (rest kept : List AuraChunk) (ws : List WriteResult) (efd : EpollSet)
      (x : AuraAsyncXfer η σ),
      writeLoop ctl kept rest ws efd (facing y x)
        = (writeLoop ctl kept rest ws efd x).map
            fun r => (r.1, facing y r.2.1, r.2.2) := by
  intro rest
  induction rest with
  | nil =>
      intro kept ws efd x
      rfl
  | cons chunk rest ih =>
      intro kept ws efd x
      -- the walk goes on, and what it has sent is counted in
      have hnext : ∀ (sent : Sent) (kept : List AuraChunk) (efd : EpollSet)
          (x : AuraAsyncXfer η σ),
          (writeLoop ctl kept rest ws.tail efd (facing y x) >>= fun r =>
            pure (sent.append r.1, r.2))
          = Except.map (fun r => (r.1, facing y r.2.1, r.2.2))
              (writeLoop ctl kept rest ws.tail efd x >>= fun r =>
                pure (sent.append r.1, r.2)) := by
        intro sent kept efd x
        rw [ih]
        cases writeLoop ctl kept rest ws.tail efd x <;> rfl
      rw [writeLoop, writeLoop]
      cases ws.headD .eagain with
      | eagain => rfl
      | failed => exact ih ..
      | wrote k =>
          simp only [show (facing y x).pos = x.pos from rfl]
          generalize min k (sizeT (chunk.size - x.pos)) = n
          by_cases hout : 0 < n ∧ chunk.alloc < x.pos + n
          · simp only [if_pos hout]
            rfl
          · simp only [if_neg hout]
            by_cases hdone : chunk.size = x.pos + n
            · simp only [if_pos hdone]
              by_cases hempty : (kept ++ rest).isEmpty = true
              · simp only [if_pos hempty]
                exact hnext _ kept _ { x with
                  pos := 0
                  hook := (auraEpollout ctl efd x.hook false).2.1 }
              · simp only [if_neg hempty]
                exact hnext _ kept efd { x with pos := 0 }
            · simp only [if_neg hdone]
              exact hnext _ (kept ++ [chunk]) efd { x with pos := x.pos + n }

end Sides

/-- The walks over the queue in these turns stay inside their chunks. What is
read in between has no part in it. -/
def WalksInside : List Turn → Port → Prop
  | [], _ => True
  | .epollout ws ctl :: turns, p =>
      ∃ r, auraAsyncXferHandlerOut ctl ws p.efd p.xfer = .ok r ∧
        WalksInside turns ⟨r.2.1, r.2.2⟩
  | .epollin _ _ :: turns, p => WalksInside turns p
  | .timeout :: turns, p => WalksInside turns p

theorem walksInside_facing (y : SerialXfer) {turns : List Turn}
    {x : SerialXfer} {efd : EpollSet} :
    WalksInside turns ⟨facing y x, efd⟩ ↔ WalksInside turns ⟨x, efd⟩ := by
  induction turns generalizing x efd with
  | nil => rfl
  | cons turn turns ih =>
      cases turn with
      | timeout | epollin =>
          rw [WalksInside, WalksInside]
          exact ih
      | epollout ws ctl =>
          rw [WalksInside, WalksInside, auraAsyncXferHandlerOut,
            auraAsyncXferHandlerOut, writeLoop_facing]
          show (∃ r, Except.map _ (writeLoop ctl [] x.transferlist ws efd x) = _
            ∧ _) ↔ _
          cases writeLoop ctl [] x.transferlist ws efd x with
          | error e =>
              simp only [Except.map, reduceCtorEq, false_and, exists_false]
          | ok r =>
              simp only [Except.map, Except.ok.injEq, exists_eq_left']
              exact ih

/-! ## Turns -/

section Turns

variable {host : Endian} {p q : Port} {turns : List Turn}

/-- What `read` promises. -/
def TurnReturns (p : Port) : Turn → Prop
  | .epollin (.got bytes) _ => ReadReturns p.xfer bytes
  | _ => True

theorem facing_holding (y x : SerialXfer) (data : List UInt8) (n : Nat) :
    facing y (holding x data n) = facing y x := rfl

theorem Handled.facing {g : Grant} {h : Handler} {x y : SerialXfer}
    (hy : Handled host g x h y) : Proofs.facing y x = y := by
  cases hy with
  | start hs hb he | length hs hn he | startInit hs hb he =>
      obtain ⟨data, hy⟩ := auraAsyncExpectBytes_eq_ok he
      generalize cInt _ = e at hy
      rw [hy]
      rfl
  | _ => rfl

theorem Stepped.facing {r : ReadResult} {g : Grant} {x y : SerialXfer}
    (h : Stepped host x (.epollin r g) y) : Proofs.facing y x = y := by
  cases h with
  | nothing => rfl
  | absorbs hy =>
      obtain ⟨data, _, rfl⟩ := absorbBytes_eq_ok.mp hy
      rfl
  | fires hy _ hz =>
      obtain ⟨data, _, rfl⟩ := absorbBytes_eq_ok.mp hy
      exact (facing_holding ..).symm.trans (handleData_handled hz).facing
  | sends he => exact he.elim

/-- Reading leaves what is to be sent. -/
theorem loopTurn_epollin {r : ReadResult} {g : Grant}
    (h : loopTurn host p (.epollin r g) = .ok q) :
    q = ⟨facing q.xfer p.xfer, p.efd⟩ := by
  have hs := serialStep_stepped (e := .epollin r g) nofun h
  obtain ⟨x, _, h⟩ := bind_eq_ok.mp h
  cases h
  exact congrArg (Port.mk · p.efd) hs.facing.symm

/-- Writing leaves what is received. -/
theorem loopTurn_epollout {ws : List WriteResult} {ctl : Bool}
    (h : loopTurn host p (.epollout ws ctl) = .ok q) :
    q.xfer = facing p.xfer q.xfer := by
  obtain ⟨⟨sent, x, efd⟩, hx, h⟩ := bind_eq_ok.mp h
  cases h
  obtain ⟨transferlist, pos, hook, rfl⟩ := writeLoop_frame _ _ _ _ _ _ hx
  rfl

theorem staged_turn {turn : Turn} (hp : Staged host p.xfer)
    (hasked : TurnReturns p turn) (h : loopTurn host p turn = .ok q) :
    Staged host q.xfer := by
  cases turn with
  | timeout =>
      cases h
      exact hp
  | epollin r g =>
      cases r with
      | failed => exact staged_step hp (e := .epollin .failed g) trivial h
      | got bytes => exact staged_step hp (e := .epollin (.got bytes) g) hasked h
  | epollout ws ctl => exact staged_step hp (e := .epollout ws ctl) trivial h

end Turns

/-! ## The loop -/

/-- The loop is left after some number of turns. -/
def Stops (host : Endian) (turns : List Turn) (p : Port) : Prop :=
  ∃ fuel q, waitLoop host fuel turns p = .ok q

/-- Up to some turn, what arrives is what ends the wait, and nothing written
meanwhile comes from outside a chunk. -/
def EndArrives (host : Endian) (turns : List Turn) (p : Port) : Prop :=
  ∃ before, before <+: turns ∧ WalksInside before p ∧
    Comes host p.xfer (arriving before)

section Loop

variable {host : Endian} {p : Port} {turn : Turn} {turns : List Turn}

theorem stops_of_ne (hne : p.xfer.data.state ≠ 0) : Stops host turns p :=
  ⟨1, p, if_neg hne⟩

theorem stops_cons (hwait : p.xfer.data.state = 0) :
    Stops host (turn :: turns) p ↔
      ∃ q, loopTurn host p turn = .ok q ∧ Stops host turns q := by
  constructor
  · rintro ⟨fuel, r, h⟩
    cases fuel with
    | zero => cases h
    | succ fuel =>
        rw [waitLoop, if_pos hwait] at h
        obtain ⟨q, hq, h⟩ := bind_eq_ok.mp h
        exact ⟨q, hq, fuel, r, h⟩
  · rintro ⟨q, hq, fuel, r, h⟩
    refine ⟨fuel + 1, r, ?_⟩
    rw [waitLoop, if_pos hwait]
    exact bind_eq_ok.mpr ⟨q, hq, h⟩

/-- Nothing happens any more, however long it goes on. -/
theorem waitLoop_nil (hwait : p.xfer.data.state = 0) (fuel : Nat) :
    waitLoop host fuel [] p = .error .outOfFuel := by
  induction fuel with
  | zero => rfl
  | succ fuel ih =>
      rw [waitLoop, if_pos hwait]
      exact ih

theorem not_stops_nil (hwait : p.xfer.data.state = 0) :
    ¬ Stops host [] p := by
  rintro ⟨fuel, q, h⟩
  rw [waitLoop_nil hwait] at h
  cases h

theorem not_endArrives_nil (hp : Staged host p.xfer) :
    ¬ EndArrives host [] p := by
  rintro ⟨before, hbefore, _, hcomes⟩
  cases List.prefix_nil.mp hbefore
  exact not_comes_nil hp hcomes

/-- One turn at a time. -/
theorem endArrives_cons (hp : Staged host p.xfer) :
    EndArrives host (turn :: turns) p ↔
      ∃ before, before <+: turns ∧ WalksInside (turn :: before) p ∧
        Comes host p.xfer (arriving (turn :: before)) := by
  constructor
  · rintro ⟨before, hbefore, hinside, hcomes⟩
    rcases List.prefix_cons_iff.mp hbefore with rfl | ⟨rest, rfl, hrest⟩
    · exact absurd hcomes (not_comes_nil hp)
    · exact ⟨rest, hrest, hinside, hcomes⟩
  · rintro ⟨before, hbefore, hinside, hcomes⟩
    exact ⟨turn :: before, List.cons_prefix_cons.mpr ⟨rfl, hbefore⟩, hinside,
      hcomes⟩

theorem walksInside_read {r : ReadResult} {g : Grant} {q : Port}
    (h : loopTurn host p (.epollin r g) = .ok q) :
    WalksInside turns q ↔ WalksInside turns p := by
  rw [loopTurn_epollin h]
  exact walksInside_facing q.xfer

/-- Something is read. -/
theorem endArrives_epollin {r : ReadResult} {g : Grant}
    (hp : Staged host p.xfer) (hwait : p.xfer.data.state = 0)
    (hasked : TurnReturns p (.epollin r g)) :
    EndArrives host (.epollin r g :: turns) p ↔
      ∃ q, loopTurn host p (.epollin r g) = .ok q ∧
        (q.xfer.data.state ≠ 0 ∨ EndArrives host turns q) := by
  rw [endArrives_cons hp]
  cases r with
  | failed =>
      constructor
      · rintro ⟨before, hbefore, hinside, hcomes⟩
        exact ⟨p, rfl, .inr ⟨before, hbefore, hinside, hcomes⟩⟩
      · rintro ⟨q, hq, hne | ⟨before, hbefore, hinside, hcomes⟩⟩
        · cases hq
          exact absurd hwait hne
        · cases hq
          exact ⟨before, hbefore, hinside, hcomes⟩
  | got bytes =>
      have hcomes : ∀ before, Comes host p.xfer
          (arriving (.epollin (.got bytes) g :: before)) ↔ _ :=
        fun before => comes_read (s := arriving before) hp hwait hasked
      constructor
      · rintro ⟨before, hbefore, hinside, h⟩
        obtain ⟨x, hx, hleads⟩ := (hcomes before).mp h
        have hq : loopTurn host p (.epollin (.got bytes) g)
            = .ok { p with xfer := x } := bind_eq_ok.mpr ⟨x, hx, rfl⟩
        exact ⟨_, hq, hleads.imp_right fun h =>
          ⟨before, hbefore, (walksInside_read hq).mpr hinside, h⟩⟩
      · rintro ⟨q, hq, hends⟩
        have hread := hq
        obtain ⟨x, hx, hread⟩ := bind_eq_ok.mp hread
        cases hread
        rcases hends with hne | ⟨before, hbefore, hinside, h⟩
        · exact ⟨[], List.nil_prefix, trivial,
            (hcomes []).mpr ⟨x, hx, .inl hne⟩⟩
        · exact ⟨before, hbefore, (walksInside_read hq).mp hinside,
            (hcomes before).mpr ⟨x, hx, .inr h⟩⟩

/-- Something is written. -/
theorem endArrives_epollout {ws : List WriteResult} {ctl : Bool}
    (hp : Staged host p.xfer) :
    EndArrives host (.epollout ws ctl :: turns) p ↔
      ∃ q, loopTurn host p (.epollout ws ctl) = .ok q ∧
        EndArrives host turns q := by
  rw [endArrives_cons hp]
  constructor
  · rintro ⟨before, hbefore, ⟨⟨sent, x, efd⟩, hx, hinside⟩, hcomes⟩
    have hq : loopTurn host p (.epollout ws ctl) = .ok ⟨x, efd⟩ :=
      bind_eq_ok.mpr ⟨_, hx, rfl⟩
    refine ⟨_, hq, before, hbefore, hinside, ?_⟩
    rw [loopTurn_epollout hq]
    exact hcomes
  · rintro ⟨q, hq, before, hbefore, hinside, hcomes⟩
    rw [loopTurn_epollout hq] at hcomes
    obtain ⟨r, hr, hq⟩ := bind_eq_ok.mp hq
    cases hq
    exact ⟨before, hbefore, ⟨r, hr, hinside⟩, hcomes⟩

/-- From any stage of a packet. -/
theorem stops_iff_endArrives (hp : Staged host p.xfer)
    (hwait : p.xfer.data.state = 0)
    (hasked : Guarded (loopTurn host) TurnReturns p turns) :
    Stops host turns p ↔ EndArrives host turns p := by
  induction turns generalizing p with
  | nil => exact iff_of_false (not_stops_nil hwait) (not_endArrives_nil hp)
  | cons turn turns ih =>
      obtain ⟨hreturns, hrest⟩ := hasked
      rw [stops_cons hwait]
      have hnext : ∀ q, loopTurn host p turn = .ok q →
          (Stops host turns q ↔
            q.xfer.data.state ≠ 0 ∨ EndArrives host turns q) := by
        intro q hq
        by_cases hzero : q.xfer.data.state = 0
        · rw [ih (staged_turn hp hreturns hq) hzero (hrest q hq)]
          exact (or_iff_right (not_not.mpr hzero)).symm
        · exact iff_of_true (stops_of_ne hzero) (.inl hzero)
      cases turn with
      | timeout =>
          rw [endArrives_cons hp]
          have hsame := ih hp hwait (hrest p rfl)
          constructor
          · rintro ⟨q, hq, hstops⟩
            cases hq
            exact hsame.mp hstops
          · intro h
            exact ⟨p, rfl, hsame.mpr h⟩
      | epollin r g =>
          rw [endArrives_epollin hp hwait hreturns]
          exact exists_congr fun q => and_congr_right (hnext q)
      | epollout ws ctl =>
          rw [endArrives_epollout hp]
          refine exists_congr fun q => and_congr_right fun hq => ?_
          have hzero : q.xfer.data.state = 0 := by
            rw [loopTurn_epollout hq]
            exact hwait
          exact (hnext q hq).trans (or_iff_right (not_not.mpr hzero))

end Loop

/-! ## The waits -/

/-- The two places an instance waits at. -/
inductive Waits (host : Endian) : Port → Prop
  | discovery {env : CallEnv} {p q : Port} (hp : Opened p ∨ Lives host p)
      (h : urpcSerialDiscovery env p = .ok q) : Waits host q
  | call {env : CallEnv} {id : Nat} {p q : Port} {o : UrpcObject}
      {frame : AuraChunk} (hp : Lives host p)
      (ho : p.xfer.data.inst.objects[id]? = some o)
      (hreply : o.reply.isSome = true)
      (hframe : callFrame host env.mem env.grants env.fuel env.L p.xfer.data id
        = .ok (some frame))
      (h : urpcSerialCall host env id p = .ok q) : Waits host q

theorem Waits.lives {host : Endian} {p : Port} (h : Waits host p) :
    Lives host p := by
  cases h with
  | discovery hp h =>
      rcases hp with hopen | hlives
      · exact .discovers hopen h
      · exact .steps (e := .discovery _) hlives trivial h
  | call hp _ _ _ h => exact .steps (e := .call _ _) hp trivial h

theorem Waits.state {host : Endian} {p : Port} (h : Waits host p) :
    p.xfer.data.state = 0 := by
  cases h with
  | discovery _ h =>
      obtain ⟨_, _, _, y, _, hq⟩ := urpcSerialDiscovery_eq_ok h
      rw [hq]
  | @call env _ p q o frame _ ho hreply hframe h =>
      rw [urpcSerialCall_of_object ho, hframe] at h
      cases h
      show (called env o p frame).xfer.data.state = 0
      unfold called
      rw [if_pos hreply]

/-- A wait ends if and only if what ends it arrives. -/
theorem wait_stops_iff {host : Endian} {p : Port} {turns : List Turn}
    (hp : Waits host p) (hasked : Guarded (loopTurn host) TurnReturns p turns) :
    Stops host turns p ↔ EndArrives host turns p :=
  stops_iff_endArrives hp.lives.staged hp.state hasked

theorem waits_waitingPort : Waits .little waitingPort :=
  .discovery (.inl opened_openedPort) urpcSerialDiscovery_openedPort

instance decidableTurnReturns (p : Port) : DecidablePred (TurnReturns p)
  | .epollin (.got _) _ => inferInstanceAs (Decidable (_ ≤ _))
  | .timeout | .epollin .failed _ | .epollout _ _ => isTrue trivial

/-- The request goes out, and a device with one method answers. -/
def methodAnswer : List Turn :=
  [ .timeout, .epollout [.wrote 4] true,
    .epollin (.got [chr 'x']) none, .epollin (.got [magicStart]) none,
    .epollin (.got [1, 1, chr 'l', 0, 0]) none,
    .epollin (.got [magicStart]) none, .epollin (.got [6]) none,
    .epollin (.got [1, 0, chr 'f']) none, .epollin (.got [0, 0, 0]) none,
    .epollin (.got [magicStart]) none, .epollin .failed none,
    .epollin (.got [1]) none, .epollin (.got [0]) none ]

set_option maxRecDepth 8000 in
theorem endArrives_methodAnswer :
    EndArrives .little methodAnswer waitingPort :=
  (wait_stops_iff waits_waitingPort (by decide +kernel)).mp ⟨14, _, rfl⟩

/-- With a device that says nothing the loop goes on. -/
theorem wait_never_stops :
    ¬ ∀ host p turns, Waits host p →
      Guarded (loopTurn host) TurnReturns p turns → Stops host turns p := by
  intro h
  exact not_stops_nil waits_waitingPort.state
    (h .little waitingPort [] waits_waitingPort trivial)

end Aura.Proofs
