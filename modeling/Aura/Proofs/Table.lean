import Aura.Ref.Urpc

/-!
# The walk that builds the object table

`l_urpc_discovery` allocates as many pointers as the transport says it found
objects, and then writes one for every object of the list. A walk that comes to
its end wrote every object, with its caches, into a slot of its own
(`fillLoop_eq_ok`), and with slots enough it does nothing but cache
(`fillLoop_eq_mapM`).
-/

namespace Aura.Proofs

open Aura.Lib Aura.Ref

theorem cacheObject_eq_ok {l : ArgcacheLocals} {o o' : UrpcObject}
    (h : cacheObject l o = .ok o') :
    ∃ acache rcache, o' = { o with acache, rcache } := by
  by_cases hmethod : objectIsMethod o = true
  · rw [cacheObject, if_pos hmethod, bind_eq_ok] at h
    obtain ⟨acache, _, h⟩ := h
    obtain ⟨rcache, _, h⟩ := bind_eq_ok.mp h
    cases h
    exact ⟨_, _, rfl⟩
  · rw [cacheObject, if_neg hmethod, bind_eq_ok] at h
    obtain ⟨acache, _, h⟩ := h
    cases h
    exact ⟨_, _, rfl⟩

theorem cacheObject_method {l : ArgcacheLocals} {o o' : UrpcObject}
    (hmethod : objectIsMethod o = true) (h : cacheObject l o = .ok o') :
    urpcArgcache l.args.1 l.args.2 o.args true = .ok o'.acache := by
  rw [cacheObject, if_pos hmethod, bind_eq_ok] at h
  obtain ⟨acache, hacache, h⟩ := h
  obtain ⟨rcache, _, h⟩ := bind_eq_ok.mp h
  cases h
  exact hacache

/-- What a walk that came to its end wrote: every object, cached, each in a
slot of its own. -/
theorem fillLoop_eq_ok {locals : Nat → ArgcacheLocals} {slots j : Nat}
    {os os' : List UrpcObject} (h : fillLoop locals slots j os = .ok os') :
    os'.length = os.length ∧ (os ≠ [] → j + os.length ≤ slots) ∧
      ∀ (i : Nat) o, os[i]? = some o →
        ∃ o', os'[i]? = some o' ∧ cacheObject (locals (j + i)) o = .ok o' := by
  induction os generalizing j os' with
  | nil =>
      cases h
      exact ⟨rfl, fun hne => absurd rfl hne, by simp⟩
  | cons o os ih =>
      by_cases hj : j < slots
      · rw [fillLoop, if_pos hj, bind_eq_ok] at h
        obtain ⟨c, hc, h⟩ := h
        obtain ⟨cs, hcs, h⟩ := bind_eq_ok.mp h
        cases h
        obtain ⟨hlen, hroom, hall⟩ := ih hcs
        refine ⟨by rw [List.length_cons, List.length_cons, hlen], ?_, ?_⟩
        · intro _
          cases os with
          | nil =>
              rw [List.length_singleton]
              omega
          | cons o' os =>
              have := hroom (List.cons_ne_nil _ _)
              rw [List.length_cons]
              omega
        · intro i o' hi
          cases i with
          | zero =>
              cases hi
              exact ⟨c, rfl, hc⟩
          | succ i =>
              obtain ⟨c', hc', hcache⟩ := hall i o' hi
              refine ⟨c', hc', ?_⟩
              rwa [show j + (i + 1) = j + 1 + i by omega]
      · rw [fillLoop, if_neg hj] at h
        cases h

/-- With a slot for each of them the walk does nothing but cache. -/
theorem fillLoop_eq_mapM (locals : Nat → ArgcacheLocals) (slots : Nat) :
    ∀ (os : List UrpcObject) (j : Nat), j + os.length ≤ slots →
      fillLoop locals slots j os
        = (os.zipIdx j).mapM fun o => cacheObject (locals o.2) o.1 := by
  intro os
  induction os with
  | nil =>
      intro j _
      rfl
  | cons o os ih =>
      intro j hroom
      rw [List.length_cons] at hroom
      rw [fillLoop, if_pos (by omega), ih (j + 1) (by omega),
        List.zipIdx_cons, List.mapM_cons]

end Aura.Proofs
