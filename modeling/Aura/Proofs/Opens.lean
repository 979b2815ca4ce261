import Aura.Ref.Open

/-!
# Failed opens

An attempt that fails before the port is open, or at it, gives back what it
took and returns NULL. Behind the port nothing is undone: a transfer object
that could not be made is used all the same, and a missing receive buffer goes
unnoticed. So attempts leave nothing behind exactly when none of them fails
there, or for want of memory before (`opens_leaveNothing_iff`).
-/

namespace Aura.Proofs

open Aura.Lib Aura.Ref

/-! ## One attempt -/

/-- There was a text to take apart, and the memory for what it is put in. -/
structure Settled (a : OpenEnv) (text : List UInt8) : Prop where
  argc : 2 ≤ a.argc
  priv : a.priv = true
  us : a.us = true
  text : strtokText a.str a.left a.settings = some text

/-- An attempt that is turned down: too few arguments, settings that make no
sense, or a port that cannot be opened. -/
def Refused (a : OpenEnv) : Prop :=
  a.argc < 2 ∨ ∃ text, Settled a text ∧
    (parseSettings a.speed text = none ∨ a.fd < 0)

/-- An attempt none of whose steps fails. -/
def Succeeds (a : OpenEnv) : Prop :=
  (∃ text us, Settled a text ∧ parseSettings a.speed text = some us) ∧
    a.str = true ∧ 0 ≤ a.fd ∧ a.xfer = true ∧ a.add = true ∧ a.mod = true ∧
    a.rxb.isSome = true

/-- The steps behind the port. -/
def attach (a : OpenEnv) (efd : EpollSet) : Res (Option OpenSerial × EpollSet) :=
  match auraCreateAsyncXfer a.xfer a.add a.mod efd ⟨a.fd, ⟨true, false⟩⟩
      ⟨[], 0⟩ a.data a.handleData with
  | (none, _) => .error .nullDeref
  | (some x, efd) =>
      let rxb := auraChunkAllocate a.rxb 256
      pure (some ⟨{ x with recv := rxb.getD ⟨[], 0⟩, expectBytes := 0 },
        rxb.isSome⟩, efd)

section Attempt

variable {a : OpenEnv} {efd : EpollSet} {text : List UInt8}

theorem parseSettings_fd {speed : Int} {us : UartSettings}
    (h : parseSettings speed text = some us) : us.fd = 0 := by
  unfold parseSettings at h
  simp only [] at h
  split at h
  · cases h
  · split at h
    · cases h
    · cases h
      rfl

/-- With settings to look at, they decide first and the port second. -/
theorem urpcSerialOpen_settled (h : Settled a text) :
    urpcSerialOpen a efd =
      if parseSettings a.speed text = none ∨ a.fd < 0 then .ok (none, efd)
      else attach a efd := by
  have hmake : urpcserialMakeSettings a.us a.str a.left a.speed a.settings
      = .ok (parseSettings a.speed text) := by
    rw [urpcserialMakeSettings, h.us, if_pos rfl, h.text]
    rfl
  rw [urpcSerialOpen, if_neg (Nat.not_lt.mpr h.argc), h.priv, if_neg nofun,
    hmake, ok_bind]
  cases hparse : parseSettings a.speed text with
  | none =>
      rw [if_pos (.inl rfl)]
      rfl
  | some us =>
      have hclosed : us.fd ≤ 0 := Int.le_of_eq (parseSettings_fd hparse)
      by_cases hfd : a.fd < 0
      · have hinit : urpcserialUartInit a.fd us = (-5, { us with fd := a.fd }) := by
          rw [urpcserialUartInit, if_pos hclosed, if_pos hfd]
        simp only [hinit]
        rw [if_pos (by decide), if_pos (Or.inr hfd)]
        rfl
      · have hinit : urpcserialUartInit a.fd us
            = (a.fd, { us with fd := a.fd }) := by
          rw [urpcserialUartInit, if_pos hclosed, if_neg hfd]
        simp only [hinit]
        rw [if_neg (show ¬ 0 > a.fd from hfd), if_neg (by simp [hfd])]
        rfl

theorem urpcSerialOpen_unsettled (hargc : 2 ≤ a.argc)
    (h : ¬ ∃ text, Settled a text) :
    urpcSerialOpen a efd = .error .nullDeref := by
  rw [urpcSerialOpen, if_neg (Nat.not_lt.mpr hargc)]
  cases hpriv : a.priv with
  | false => rfl
  | true =>
      rw [if_neg nofun]
      cases hus : a.us with
      | false => rfl
      | true =>
          rw [urpcserialMakeSettings, if_pos rfl]
          cases htext : strtokText a.str a.left a.settings with
          | none => rfl
          | some text => exact absurd ⟨text, hargc, hpriv, hus, htext⟩ h

theorem attach_fails (h : ¬ (a.xfer = true ∧ a.add = true ∧ a.mod = true)) :
    attach a efd = .error .nullDeref := by
  rw [attach, auraCreateAsyncXfer]
  cases hx : a.xfer with
  | false => rfl
  | true =>
      cases ha : a.add with
      | false => rfl
      | true =>
          cases hm : a.mod with
          | false => rfl
          | true => exact absurd ⟨hx, ha, hm⟩ h

theorem attach_succeeds (hx : a.xfer = true) (ha : a.add = true)
    (hm : a.mod = true) :
    ∃ nl efd', attach a efd = .ok (some nl, efd') ∧
      nl.xfer.hook.fd = a.fd ∧ nl.receiver = a.rxb.isSome ∧
      ∀ fd, efd' fd ≠ none → fd = a.fd ∨ efd fd ≠ none := by
  have hrxb : (auraChunkAllocate a.rxb 256).isSome = a.rxb.isSome := by
    cases a.rxb <;> rfl
  rw [attach, auraCreateAsyncXfer, hx, ha, hm]
  refine ⟨_, _, rfl, rfl, hrxb, fun fd hfd => ?_⟩
  by_cases hsame : fd = a.fd
  · exact .inl hsame
  · refine .inr fun hnone => hfd ?_
    show (if fd = a.fd then _ else if fd = a.fd then _ else efd fd) = none
    rw [if_neg hsame, if_neg hsame, hnone]

theorem urpcSerialOpen_refused (h : Refused a) :
    urpcSerialOpen a efd = .ok (none, efd) := by
  rcases h with hargc | ⟨str, hset, hfails⟩
  · rw [urpcSerialOpen, if_pos hargc]
    rfl
  · rw [urpcSerialOpen_settled hset, if_pos hfails]

/-- What was not goes through, or a NULL is dereferenced. -/
theorem urpcSerialOpen_accepted (h : ¬ Refused a) :
    ¬ Succeeds a ∧ urpcSerialOpen a efd = .error .nullDeref ∨
      (Succeeds a ↔ a.str = true ∧ a.rxb.isSome = true) ∧
      ∃ nl efd', urpcSerialOpen a efd = .ok (some nl, efd') ∧
        nl.xfer.hook.fd = a.fd ∧ nl.receiver = a.rxb.isSome ∧
        ∀ fd, efd' fd ≠ none → fd = a.fd ∨ efd fd ≠ none := by
  rw [Refused, not_or] at h
  obtain ⟨hargc, hnot⟩ := h
  by_cases hsettled : ∃ text, Settled a text
  · obtain ⟨text, hset⟩ := hsettled
    have hport : ¬ (parseSettings a.speed text = none ∨ a.fd < 0) :=
      fun hfails => hnot ⟨text, hset, hfails⟩
    rw [urpcSerialOpen_settled hset, if_neg hport]
    by_cases hsteps : a.xfer = true ∧ a.add = true ∧ a.mod = true
    · obtain ⟨hx, ha, hm⟩ := hsteps
      refine .inr ⟨?_, attach_succeeds hx ha hm⟩
      rw [not_or] at hport
      obtain ⟨us, hus⟩ := Option.ne_none_iff_exists'.mp hport.1
      constructor
      · rintro ⟨_, hstr, _, _, _, _, hrxb⟩
        exact ⟨hstr, hrxb⟩
      · rintro ⟨hstr, hrxb⟩
        exact ⟨⟨text, us, hset, hus⟩, hstr, Int.not_lt.mp hport.2, hx, ha, hm,
          hrxb⟩
    · refine .inl ⟨?_, attach_fails hsteps⟩
      rintro ⟨_, _, _, hx, ha, hm, _⟩
      exact hsteps ⟨hx, ha, hm⟩
  · refine .inl ⟨?_, urpcSerialOpen_unsettled (Nat.not_lt.mp hargc) hsettled⟩
    rintro ⟨⟨text, _, hset, _⟩, _⟩
    exact hsettled ⟨text, hset⟩

theorem Succeeds.not_refused (h : Succeeds a) : ¬ Refused a := by
  obtain ⟨⟨text, us, hset, hus⟩, _, hfd, _⟩ := h
  rintro (hargc | ⟨text', hset', hfails⟩)
  · exact absurd hargc (Nat.not_lt.mpr hset.argc)
  · have htext : text' = text :=
      Option.some.inj (hset'.text.symm.trans hset.text)
    rw [htext, hus] at hfails
    rcases hfails with hnone | hneg
    · cases hnone
    · omega

end Attempt

/-! ## Any number of them -/

/-- Every hook in the epoll set is that of an instance which was opened, with
all it needs. -/
def Owned (w : SerialWorld) : Prop :=
  ∀ fd, w.efd fd ≠ none →
    ∃ nl ∈ w.instances, nl.xfer.hook.fd = fd ∧ nl.receiver = true

/-- No attempt dereferences NULL, those that fail return it, and what is
registered afterwards is owned. -/
structure LeavesNothing (as : List OpenEnv) : Prop where
  returns : ∃ w, openRun as = .ok w
  failed : ∀ pre a w nl efd, pre ++ [a] <+: as → openRun pre = .ok w →
    urpcSerialOpen a w.efd = .ok (nl, efd) → ¬ Succeeds a → nl = none
  owned : ∀ w, openRun as = .ok w → Owned w

theorem owned_step {w : SerialWorld} {a : OpenEnv} (hw : Owned w)
    (ha : Refused a ∨ Succeeds a) :
    ∃ w', openStep w a = .ok w' ∧ Owned w' := by
  rcases ha with href | hsucc
  · refine ⟨w, ?_, hw⟩
    rw [openStep, urpcSerialOpen_refused href, ok_bind]
    simp only [Option.toList_none, List.append_nil]
    rfl
  · rcases @urpcSerialOpen_accepted a w.efd hsucc.not_refused with
      ⟨hnot, _⟩ | ⟨hiff, nl, efd', hopen, hfd, hrxb, hreg⟩
    · exact absurd hsucc hnot
    · refine ⟨⟨efd', w.instances ++ [nl]⟩, ?_, fun fd hin => ?_⟩
      · rw [openStep, hopen]
        rfl
      · rcases hreg fd hin with hport | hold
        · exact ⟨nl, List.mem_append_right _ (List.mem_singleton_self nl),
            hfd.trans hport.symm, hrxb.trans (hiff.mp hsucc).2⟩
        · obtain ⟨nl', hnl', howned⟩ := hw fd hold
          exact ⟨nl', List.mem_append_left _ hnl', howned⟩

theorem owned_run {as : List OpenEnv} (h : ∀ a ∈ as, Refused a ∨ Succeeds a) :
    ∃ w, openRun as = .ok w ∧ Owned w := by
  have hgen : ∀ (as : List OpenEnv) (w : SerialWorld), Owned w →
      (∀ a ∈ as, Refused a ∨ Succeeds a) →
      ∃ w', as.foldlM openStep w = .ok w' ∧ Owned w' := by
    intro as
    induction as with
    | nil => exact fun w hw _ => ⟨w, rfl, hw⟩
    | cons a as ih =>
        intro w hw hall
        obtain ⟨w₁, hstep, hw₁⟩ := owned_step hw (hall a (.head _))
        rw [List.foldlM_cons, hstep, ok_bind]
        exact ih w₁ hw₁ fun b hb => hall b (.tail _ hb)
  exact hgen as _ (fun fd hfd => absurd rfl hfd) h

/-- Attempts leave nothing behind exactly when each of them succeeds or is
turned down at the port or before. -/
theorem opens_leaveNothing_iff (as : List OpenEnv) :
    LeavesNothing as ↔ ∀ a ∈ as, Refused a ∨ Succeeds a := by
  constructor
  · rintro ⟨⟨w, hrun⟩, hfailed, _⟩ a ha
    by_contra hbad
    rw [not_or] at hbad
    obtain ⟨pre, post, rfl⟩ := List.append_of_mem ha
    rw [openRun, List.foldlM_append, bind_eq_ok] at hrun
    obtain ⟨w₁, hpre, hrun⟩ := hrun
    rw [List.foldlM_cons, bind_eq_ok] at hrun
    obtain ⟨w₂, hstep, _⟩ := hrun
    rcases @urpcSerialOpen_accepted a w₁.efd hbad.1 with
      ⟨_, herror⟩ | ⟨_, nl, efd', hopen, _⟩
    · rw [openStep, herror] at hstep
      cases hstep
    · have hnone := hfailed pre a w₁ (some nl) efd'
        ⟨post, by rw [List.append_assoc]; rfl⟩ hpre hopen hbad.2
      cases hnone
  · intro hall
    obtain ⟨w, hrun, howned⟩ := owned_run hall
    refine ⟨⟨w, hrun⟩, ?_, ?_⟩
    · intro pre a w₁ nl efd hpre _ hopen hfails
      have ha : a ∈ as :=
        hpre.subset (List.mem_append_right _ (List.mem_singleton_self a))
      rw [urpcSerialOpen_refused ((hall a ha).resolve_right hfails)] at hopen
      cases hopen
      rfl
    · intro w' hrun'
      rw [hrun] at hrun'
      cases hrun'
      exact howned

/-- An attempt on a port `t` with default settings; `mod` answers the second
`epoll_ctl`. -/
def attempt (mod : Bool) : OpenEnv :=
  { argc := 2, settings := some [chr 't'], priv := true, us := true
    str := true, left := none, speed := 0, fd := 3, xfer := true, add := true
    mod, rxb := some fun _ => 0
    data :=
      { swap := false, idSz := 0, szSz := 0, rxstate := .waitStart, state := 0
        objcount := 0, inst := ⟨[], []⟩ }
    handleData := .packets }

/-- The mask cannot be set: there is no transfer object to give its data to. -/
theorem open_not_undone : ¬ ∀ as, LeavesNothing as := by
  intro h
  obtain ⟨w, hrun⟩ := (h [attempt false]).returns
  have hfault : openRun [attempt false] = .error .nullDeref := rfl
  rw [hfault] at hrun
  cases hrun

end Aura.Proofs
