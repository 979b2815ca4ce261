import Aura.Lib.Chain
import Aura.Lib.Run
import Aura.Ref.Hooks

/-!
# The registry lists every hook

From `base` over the `next` fields to `end` lie the hooks registered so far, in
order, and behind `end` lies nothing. A hook that is registered is made to be
the last before it is hung on, so nothing depends on what its `next` was
(`Registered.reg`); that the next element of an array is hung on behind the one
before makes no difference either. Walking from `base` therefore ends, and has
met every hook once (`hooks_listed`).
-/

namespace Aura.Proofs

open Aura.Lib Aura.Ref

variable {φ : Type}

/-! ## One registration -/

/-- `p->next`. -/
def nextHook (r : HookRegistry φ) (p : AuraHookPtr) : Option AuraHookPtr :=
  (r.hooks p).bind AuraHook.next

/-- `*p = h`. -/
def withHook (r : HookRegistry φ) (p : AuraHookPtr) (h : AuraHook φ) :
    HookRegistry φ :=
  { r with hooks := fun q => if q = p then some h else r.hooks q }

@[simp] theorem withHook_hooks (r : HookRegistry φ) (p q : AuraHookPtr)
    (h : AuraHook φ) :
    (withHook r p h).hooks q = if q = p then some h else r.hooks q := rfl

@[simp] theorem withHook_last (r : HookRegistry φ) (p : AuraHookPtr)
    (h : AuraHook φ) : (withHook r p h).last = r.last := rfl

/-- `p` hung on behind `e`, and registered under `name`. -/
def hungOn (r : HookRegistry φ) (e p : AuraHookPtr) (he hp : AuraHook φ)
    (name : List UInt8) : HookRegistry φ :=
  { withHook (withHook r e { he with next := some p }) p
      { hp with next := none } with
    last := some p
    globals := fun n => if n = name then some hp.func else r.globals n }

/-- The registered hooks are the list `l`, and all hooks are what `held` says
but for their links. -/
structure Registered (held : AuraHookPtr → Option (AuraHook φ))
    (r : HookRegistry φ) (l : List AuraHookPtr) : Prop where
  base : r.base = l.head?
  last : r.last = l.getLast?
  ne : l ≠ []
  chain : NullTerminated (nextHook r) l
  kept : ∀ p h, held p = some h → ∃ next, r.hooks p = some { h with next }

section Registering

variable {r : HookRegistry φ} {p e : AuraHookPtr} {he hp h : AuraHook φ}
  {name : List UInt8} {held : AuraHookPtr → Option (AuraHook φ)}
  {l ps : List AuraHookPtr}

theorem deref_some (h : r.hooks p = some hp) : r.deref (some p) = .ok hp := by
  rw [HookRegistry.deref, h]
  rfl

theorem setNext_some {next : Option AuraHookPtr} (h : r.hooks p = some hp) :
    r.setNext (some p) next = .ok (withHook r p { hp with next }) := by
  simp only [HookRegistry.setNext, deref_some h, ok_bind, Option.some.injEq]
  rfl

theorem luaRegister_some {func : φ} (h : hp.name = some name) :
    r.luaRegister hp.name func = .ok { r with
      globals := fun n => if n = name then some func else r.globals n } := by
  rw [h]
  rfl

theorem auraFuncReg_eq (hlast : r.last = some e) (hhe : r.hooks e = some he)
    (hhp : r.hooks p = some hp) (hne : p ≠ e) (hname : hp.name = some name) :
    auraFuncReg (some p) r = .ok (hungOn r e p he hp name) := by
  have hlink : r.setNext r.last (some p)
      = .ok (withHook r e { he with next := some p }) := by
    rw [hlast]
    exact setNext_some hhe
  generalize hr : withHook r e { he with next := some p } = r₁ at hlink
  have hnew : r₁.deref r₁.last = .ok { he with next := some p } := by
    rw [← hr, withHook_last, hlast]
    exact deref_some (by rw [withHook_hooks, if_pos rfl])
  have hend : r₁.setNext (some p) none
      = .ok (withHook r₁ p { hp with next := none }) :=
    setNext_some (by rw [← hr, withHook_hooks, if_neg hne, hhp])
  have hread : (withHook r₁ p { hp with next := none }).deref (some p)
      = .ok { hp with next := none } :=
    deref_some (by rw [withHook_hooks, if_pos rfl])
  rw [auraFuncReg, hlink, ok_bind, hnew, ok_bind]
  show r₁.setNext (some p) none >>= _ = _
  rw [hend, ok_bind, hread, ok_bind]
  show HookRegistry.luaRegister _ hp.name hp.func >>= _ = _
  rw [luaRegister_some hname, hungOn, hr, ← hr]
  rfl

/-- A hook that is in none of the places so far goes behind the last one. -/
theorem Registered.reg (hr : Registered held r l)
    (hheld : ∀ q ∈ l, ∃ h, held q = some h) (hp : held p = some h)
    (hname : h.name.isSome) (hnew : p ∉ l) :
    ∃ r', auraFuncReg (some p) r = .ok r' ∧ Registered held r' (l ++ [p]) := by
  obtain ⟨name, hname⟩ := Option.isSome_iff_exists.mp hname
  obtain ⟨e, he⟩ : ∃ e, l.getLast? = some e :=
    ⟨_, List.getLast?_eq_some_getLast hr.ne⟩
  have hmem : e ∈ l := List.mem_of_getLast? he
  have hne : p ≠ e := fun hpe => hnew (hpe ▸ hmem)
  obtain ⟨k, hk⟩ := hheld e hmem
  obtain ⟨en, hhe⟩ := hr.kept e k hk
  obtain ⟨pn, hhp⟩ := hr.kept p h hp
  refine ⟨_, auraFuncReg_eq (hr.last.trans he) hhe hhp hne hname, ?_⟩
  constructor
  case base =>
    show r.base = _
    rw [hr.base, List.head?_append_of_ne_nil _ hr.ne]
  case last => exact List.getLast?_concat.symm
  case ne => exact List.concat_ne_nil p l
  case chain =>
    refine hr.chain.concat he ?_ ?_ fun a ha hae => ?_
    · simp [nextHook, hungOn, Ne.symm hne]
    · simp [nextHook, hungOn]
    · have hap : a ≠ p := fun hap => hnew (hap ▸ ha)
      simp [nextHook, hungOn, hae, hap]
  case kept =>
    intro q g hq
    by_cases hqp : q = p
    · subst hqp
      cases hp.symm.trans hq
      exact ⟨none, if_pos rfl⟩
    · by_cases hqe : q = e
      · subst hqe
        cases hk.symm.trans hq
        exact ⟨some p, (if_neg hqp).trans (if_pos rfl)⟩
      · obtain ⟨next, hnext⟩ := hr.kept q g hq
        exact ⟨next, ((if_neg hqp).trans (if_neg hqe)).trans hnext⟩

/-- One after the other. -/
theorem Registered.regs (hr : Registered held r l)
    (hheld : ∀ q ∈ l ++ ps, ∃ h, held q = some h ∧ h.name.isSome)
    (hnodup : (l ++ ps).Nodup) :
    ∃ r', ps.foldlM (fun r p => auraFuncReg (some p) r) r = .ok r' ∧
      Registered held r' (l ++ ps) := by
  induction ps generalizing r l with
  | nil =>
      rw [List.append_nil]
      exact ⟨r, rfl, hr⟩
  | cons p ps ih =>
      obtain ⟨h, hp, hname⟩ := hheld p (List.mem_append_right l (.head ps))
      have hnew : p ∉ l := fun hmem =>
        (List.nodup_append.mp hnodup).2.2 p hmem p (.head ps) rfl
      obtain ⟨r₁, hr₁, hreg⟩ := hr.reg (fun q hq => by
        obtain ⟨k, hk, _⟩ := hheld q (List.mem_append_left _ hq)
        exact ⟨k, hk⟩) hp hname hnew
      rw [List.append_cons] at hheld hnodup ⊢
      obtain ⟨r₂, hr₂, hregs⟩ := ih hreg hheld hnodup
      exact ⟨r₂, by rw [List.foldlM_cons, hr₁, ok_bind, hr₂], hregs⟩

/-- What the walk puts into its tables does not depend on the links. -/
theorem Registered.tables (hr : Registered held r l)
    {hs : List (AuraHook φ)} (hhs : ps.map held = hs.map some) :
    ∃ ks : List (AuraHook φ), ps.map r.hooks = ks.map some ∧
      ks.map AuraHook.table = hs.map AuraHook.table := by
  induction ps generalizing hs with
  | nil =>
      rw [List.map_nil, eq_comm, List.map_eq_nil_iff] at hhs
      exact ⟨[], rfl, by rw [hhs]⟩
  | cons p ps ih =>
      cases hs with
      | nil => cases hhs
      | cons h hs =>
          obtain ⟨hp, hrest⟩ := List.cons_eq_cons.mp hhs
          obtain ⟨next, hnext⟩ := hr.kept p h hp
          obtain ⟨ks, hks, htables⟩ := ih hrest
          refine ⟨{ h with next } :: ks, ?_, ?_⟩
          · rw [List.map_cons, hnext, hks, List.map_cons]
          · rw [List.map_cons, htables, List.map_cons]
            rfl

end Registering

/-! ## Programs -/

/-- The hooks a call registers. -/
def HookCall.hooks : HookCall → List AuraHookPtr
  | .reg hook => [hook]
  | .regList hook count => (List.range count.toNat).map hook.at

theorem hookStep_eq (r : HookRegistry φ) (c : HookCall) :
    hookStep r c
      = (HookCall.hooks c).foldlM (fun r p => auraFuncReg (some p) r) r := by
  cases c with
  | reg hook =>
      simp only [HookCall.hooks, List.foldlM_cons, List.foldlM_nil, bind_pure]
      rfl
  | regList hook count =>
      rw [HookCall.hooks, List.foldlM_map]
      rfl

theorem foldlM_hookStep (calls : List HookCall) (r : HookRegistry φ) :
    calls.foldlM hookStep r
      = (calls.flatMap HookCall.hooks).foldlM
          (fun r p => auraFuncReg (some p) r) r := by
  induction calls generalizing r with
  | nil => rfl
  | cons c calls ih =>
      rw [List.foldlM_cons, List.flatMap_cons, List.foldlM_append, hookStep_eq]
      exact congrArg _ (funext ih)

/-! ## The walk -/

section Walk

variable {r : HookRegistry φ} {p : AuraHookPtr} {l : List AuraHookPtr}
  {h : AuraHook φ} {hs : List (AuraHook φ)}

/-- One turn of the loop. -/
theorem auraHelpLoop_turn (hp : r.hooks p = some h) (fuel i : Nat) :
    auraHelpLoop r (fuel + 1) (some p) i
      = (if (nextHook r p).isSome then
          auraHelpLoop r fuel (nextHook r p) (i + 1)
        else pure []) >>= fun rest => pure ((h.table, i) :: rest) := by
  have hnext : nextHook r p = h.next := by rw [nextHook, hp, Option.bind_some]
  rw [hnext, auraHelpLoop, deref_some hp, ok_bind]
  cases h.next <;> rfl

/-- From a hook of the list to its end. -/
theorem auraHelpLoop_eq (hchain : NullTerminated (nextHook r) (p :: l))
    (hhs : (p :: l).map r.hooks = (h :: hs).map some) {fuel : Nat}
    (hfuel : l.length < fuel) (i : Nat) :
    auraHelpLoop r fuel (some p) i
      = .ok (((h :: hs).map AuraHook.table).zipIdx i) := by
  obtain ⟨fuel, rfl⟩ := Nat.exists_eq_add_one_of_ne_zero
    (Nat.ne_zero_of_lt hfuel)
  induction l generalizing p h hs fuel i with
  | nil =>
      obtain ⟨hp, hnil⟩ := List.cons_eq_cons.mp hhs
      rw [auraHelpLoop_turn hp, nullTerminated_singleton.mp hchain,
        List.map_eq_nil_iff.mp hnil.symm]
      rfl
  | cons q l ih =>
      obtain ⟨hlink, hrest⟩ := nullTerminated_cons_cons.mp hchain
      obtain ⟨hp, hmore⟩ := List.cons_eq_cons.mp hhs
      rw [List.length_cons] at hfuel
      obtain ⟨fuel, rfl⟩ := Nat.exists_eq_add_one_of_ne_zero
        (show fuel ≠ 0 by omega)
      cases hs with
      | nil => cases hmore
      | cons k hs =>
          rw [auraHelpLoop_turn hp, hlink, if_pos (Option.isSome_some),
            ih hrest hmore (i + 1) fuel (by omega), ok_bind]
          rfl

end Walk

/-! ## All of it -/

/-- After `aura_func_init` the built-in hook is the only one. -/
theorem registered_init (help : φ) (hooks : AuraHookPtr → Option (AuraHook φ))
    (globals : List UInt8 → Option φ) :
    ∃ r, auraFuncInit (hookStart help hooks globals) = .ok r ∧
      Registered (hookStart help hooks globals).hooks r [auraHelphPtr] := by
  refine ⟨_, rfl, rfl, rfl, List.cons_ne_nil _ _, ?_, fun p h hp => ⟨_, hp⟩⟩
  exact nullTerminated_singleton.mpr rfl

/-- Whatever is registered in whatever order, each hook once: the walk ends,
and has met the built-in hook and then every other, in order. -/
theorem hooks_listed {help : φ} {hooks : AuraHookPtr → Option (AuraHook φ)}
    {globals : List UInt8 → Option φ} {calls : List HookCall}
    {hs : List (AuraHook φ)}
    (hdistinct : (auraHelphPtr :: calls.flatMap HookCall.hooks).Nodup)
    (hhs : (calls.flatMap HookCall.hooks).map hooks = hs.map some)
    (hnamed : ∀ h ∈ hs, h.name.isSome) :
    ∃ r, hookRun calls (hookStart help hooks globals) = .ok r ∧
      ∀ fuel, hs.length < fuel → lAuraHelp fuel r
        = .ok (((auraHelph help :: hs).map AuraHook.table).zipIdx 1) := by
  have hothers : ∀ p ∈ calls.flatMap HookCall.hooks,
      (hookStart help hooks globals).hooks p = hooks p := by
    intro p hp
    refine if_neg fun hpe => ?_
    rw [hpe] at hp
    exact (List.nodup_cons.mp hdistinct).1 hp
  have hall : (auraHelphPtr :: calls.flatMap HookCall.hooks).map
      (hookStart help hooks globals).hooks
      = (auraHelph help :: hs).map some := by
    rw [List.map_cons, List.map_congr_left hothers, hhs]
    rfl
  have hheld : ∀ q ∈ [auraHelphPtr] ++ calls.flatMap HookCall.hooks,
      ∃ h, (hookStart help hooks globals).hooks q = some h ∧ h.name.isSome := by
    intro q hq
    have hmem := List.mem_map_of_mem
      (f := (hookStart help hooks globals).hooks) hq
    rw [List.singleton_append, hall] at hmem
    obtain ⟨h, hh, hsome⟩ := List.mem_map.mp hmem
    refine ⟨h, hsome.symm, ?_⟩
    rcases List.mem_cons.mp hh with rfl | hh
    · rfl
    · exact hnamed h hh
  obtain ⟨r₀, hr₀, hinit⟩ := registered_init help hooks globals
  obtain ⟨r, hr, hreg⟩ := hinit.regs hheld hdistinct
  obtain ⟨ks, hks, htables⟩ := hreg.tables hall
  refine ⟨r, ?_, fun fuel hfuel => ?_⟩
  · rw [hookRun, hr₀, ok_bind, foldlM_hookStep, hr]
  · cases ks with
    | nil => cases hks
    | cons k ks =>
        have hlen := congrArg List.length hhs
        rw [List.length_map, List.length_map] at hlen
        rw [← htables, lAuraHelp, hreg.base]
        exact auraHelpLoop_eq hreg.chain hks
          (show (calls.flatMap HookCall.hooks).length < fuel by omega) 1

/-- A hook of its own that is linked to itself, and an array of three. -/
def someHooks : List (AuraHook Nat) :=
  [⟨1, some [112], none, none, some ⟨1, 0⟩⟩,
    ⟨2, some [113], none, some [0], some ⟨7, 7⟩⟩,
    ⟨3, some [114], none, some [1], some ⟨2, 0⟩⟩,
    ⟨4, some [115], some [2], none, none⟩]

/-- Where they are. -/
def someHeap (p : AuraHookPtr) : Option (AuraHook Nat) :=
  if p = ⟨1, 0⟩ then someHooks[0]?
  else if p.array = 2 then someHooks[p.index + 1]?
  else none

theorem hooks_listed_some :
    ∃ r, hookRun [.reg ⟨1, 0⟩, .regList ⟨2, 0⟩ 3]
        (hookStart 0 someHeap fun _ => none) = .ok r ∧
      ∀ fuel, someHooks.length < fuel → lAuraHelp fuel r
        = .ok (((auraHelph 0 :: someHooks).map AuraHook.table).zipIdx 1) :=
  hooks_listed (by decide) rfl (by decide)

end Aura.Proofs
