import Aura.Lib.Run
import Aura.Ref.Perflimits

/-!
# The limit that is set

`Lsetprot` reads its argument at the index that is the limit in force. The
first limit is far above the top of any stack, where there is 0, so the first
call of `aura_setvmprot` switches the protection off. What is set is in force
exactly when nothing is ever set (`limit_in_force_iff`).
-/

namespace Aura.Proofs

open Aura.Lib Aura.Ref

/-! ## What is to be in force -/

/-- The limit, and what the calls so far are to return. -/
structure Law where
  limit : Int
  returns : List LuaReturn

def Law.step (l : Law) : ProtCall → Law
  | .setvmprot n _ => ⟨n.1, l.returns ++ [.results []]⟩
  | .getvmprot => { l with returns := l.returns ++ [.results [.number l.limit]] }

def lawAfter (calls : List ProtCall) : Law :=
  calls.foldl Law.step ⟨initialLimit, []⟩

/-- At any time the calls have returned the limit set last, and it is the count
the hook was installed with. -/
def InForce (calls : List ProtCall) : Prop :=
  ∀ before, before <+: calls → ∃ s, protRun before = .ok s ∧
    s.returned = (lawAfter before).returns ∧
    s.state.hookcount = (lawAfter before).limit

/-! ## What is in force -/

/-- Above the top there is 0, whatever the argument. -/
theorem lsetprot_above {outside : Int → Rat} {n : Int} {p : Protector}
    (h : 1 < p.count) :
    lsetprot outside (.args [.number n]) p = .ok (.results [], ⟨0, 0⟩) := by
  have hread : luaToNumberAt outside (.args [.number n]) p.count = 0 := by
    obtain ⟨k, hk⟩ : ∃ k : Nat, p.count = k + 2 := ⟨(p.count - 2).toNat, by omega⟩
    rw [luaToNumberAt, if_pos (by omega), hk,
      show ((k : Int) + 2).toNat = k + 2 by omega]
    rfl
  have hzero : intArith (truncRat (0 : Rat)) = .ok 0 := by decide
  simp only [lsetprot, hread, hzero]
  rfl

/-- As long as nothing is set, nothing changes. -/
theorem foldlM_getvmprot {calls : List ProtCall}
    (h : ∀ n outside, .setvmprot n outside ∉ calls) :
    ∀ {s : ProtRun} {l : Law}, s.returned = l.returns →
      s.state = ⟨l.limit, l.limit⟩ →
      ∃ t, calls.foldlM protStep s = .ok t ∧
        t.returned = (calls.foldl Law.step l).returns ∧
        t.state = s.state ∧ (calls.foldl Law.step l).limit = l.limit := by
  induction calls with
  | nil =>
      intro s l hreturned _
      exact ⟨s, rfl, hreturned, rfl, rfl⟩
  | cons c calls ih =>
      intro s l hreturned hstate
      cases c with
      | setvmprot n outside => exact absurd (List.mem_cons_self ..) (h n outside)
      | getvmprot =>
          apply ih (fun n outside hmem =>
            h n outside (List.mem_cons_of_mem _ hmem)) (l := l.step .getvmprot)
          · rw [hreturned, hstate]
            rfl
          · exact hstate

theorem protRun_getvmprot {calls : List ProtCall}
    (h : ∀ n outside, .setvmprot n outside ∉ calls) :
    ∃ s, protRun calls = .ok s ∧ s.returned = (lawAfter calls).returns ∧
      s.state = auraProtectorInit ∧ (lawAfter calls).limit = initialLimit :=
  foldlM_getvmprot h rfl rfl

/-- The first limit set leaves a hook without a count. -/
theorem protRun_setvmprot {calls : List ProtCall}
    (h : ∀ n outside, .setvmprot n outside ∉ calls) (n : Limit)
    (outside : Int → Rat) {s : ProtRun}
    (hs : protRun (calls ++ [.setvmprot n outside]) = .ok s) :
    s.state.hookcount = 0 := by
  obtain ⟨t, ht, _, hstate, _⟩ := protRun_getvmprot h
  rw [protRun] at hs ht
  rw [List.foldlM_append, ht] at hs
  simp only [ok_bind, List.foldlM_cons, List.foldlM_nil, bind_pure] at hs
  rw [protStep, hstate, lsetprot_above (by decide)] at hs
  cases hs
  rfl

def ProtCall.sets : ProtCall → Bool
  | .setvmprot _ _ => true
  | .getvmprot => false

/-- A limit that is set is at some time the first. -/
theorem exists_first_setvmprot {calls : List ProtCall} {n : Limit}
    {outside : Int → Rat} (h : .setvmprot n outside ∈ calls) :
    ∃ before n outside, before ++ [.setvmprot n outside] <+: calls ∧
      ∀ n outside, .setvmprot n outside ∉ before := by
  cases hfind : calls.find? ProtCall.sets with
  | none => exact absurd rfl (List.find?_eq_none.mp hfind _ h)
  | some c =>
      obtain ⟨hsets, before, after, rfl, hbefore⟩ :=
        List.find?_eq_some_iff_append.mp hfind
      cases c with
      | getvmprot => cases hsets
      | setvmprot n outside =>
          refine ⟨before, n, outside, ⟨after, by simp⟩, fun n outside hmem => ?_⟩
          have hnot := hbefore _ hmem
          cases hnot

/-- What is set is in force exactly when nothing is set. -/
theorem limit_in_force_iff (calls : List ProtCall) :
    InForce calls ↔ ∀ n outside, .setvmprot n outside ∉ calls := by
  constructor
  · intro h
    by_contra hset
    push Not at hset
    obtain ⟨n, outside, hmem⟩ := hset
    obtain ⟨before, n, outside, hprefix, hbefore⟩ := exists_first_setvmprot hmem
    obtain ⟨s, hs, _, hcount⟩ := h _ hprefix
    rw [protRun_setvmprot hbefore n outside hs] at hcount
    have hlimit : (lawAfter (before ++ [.setvmprot n outside])).limit = n.1 := by
      simp [lawAfter, Law.step]
    have hpos := n.2.1
    omega
  · rintro h before ⟨after, rfl⟩
    obtain ⟨s, hs, hreturned, hstate, hlimit⟩ :=
      protRun_getvmprot fun n outside hmem =>
        h n outside (List.mem_append_left _ hmem)
    refine ⟨s, hs, hreturned, ?_⟩
    rw [hstate, hlimit]
    rfl

/-- One limit is set, and none is in force. -/
theorem limit_not_in_force : ¬ ∀ calls, InForce calls := by
  intro h
  obtain ⟨s, hs, _, hcount⟩ := h
    [.setvmprot ⟨5, by decide⟩ fun _ => 0] _ List.prefix_rfl
  rw [@protRun_setvmprot [] nofun _ _ _ hs] at hcount
  cases hcount

end Aura.Proofs
