import Mathlib.Data.List.Nodup
import Aura.Lib.Simulation

/-!
# Machines on one store

Machines of one kind that share a store, a map from keys. A step of a machine
changes its own state and the store. It is confined when it looks at the store
at its own key alone, changes it nowhere else, and keeps the key (`Confined`).
A crowd of such machines, no two with one key, may grow by machines whose keys
nobody has. Each machine in it is then what it would be alone with the store
(`Confined.isolated`), and what a step keeps of a machine and its entry, the
crowd keeps of every machine (`Confined.lifts`).
-/

namespace Aura.Lib

variable {ε σ ι β κ V : Type}

/-- A step that has to do with one entry of the store. -/
structure Confined (step : σ → (κ → V) → ι → Except ε (σ × (κ → V)))
    (key : σ → κ) : Prop where
  keeps : ∀ {x S i y T}, step x S i = .ok (y, T) → key y = key x
  frame : ∀ {x S i y T}, step x S i = .ok (y, T) →
    ∀ k, k ≠ key x → T k = S k
  congr : ∀ {x S T} i, S (key x) = T (key x) →
    Alike (fun a b => a.1 = b.1 ∧ a.2 (key x) = b.2 (key x))
      (step x S i) (step x T i)

/-- A machine that joins takes a place in the store, and changes nothing
elsewhere; it may also fail to come about. -/
structure Joins (join : β → (κ → V) → Except ε (Option σ × (κ → V)))
    (place : β → κ) (key : σ → κ) : Prop where
  takes : ∀ {b S x T}, join b S = .ok (some x, T) → key x = place b
  frame : ∀ {b S o T}, join b S = .ok (o, T) → ∀ k, k ≠ place b → T k = S k

/-- Machines and their store. -/
structure Crowd (σ κ V : Type) where
  members : List σ
  store : κ → V

inductive CrowdEvent (β ι : Type)
  | joins (b : β)
  | acts (k : Nat) (i : ι)

/-- What a machine takes part in. -/
def CrowdEvent.own (k : Nat) : CrowdEvent β ι → List ι
  | .joins _ => []
  | .acts j i => if j = k then [i] else []

section Steps

variable (absent : ε) (join : β → (κ → V) → Except ε (Option σ × (κ → V)))
  (step : σ → (κ → V) → ι → Except ε (σ × (κ → V)))

/-- One event; `absent` is the error when there is no such machine. -/
def crowdStep (w : Crowd σ κ V) : CrowdEvent β ι → Except ε (Crowd σ κ V)
  | .joins b => do
      let (o, store) ← join b w.store
      pure ⟨w.members ++ o.toList, store⟩
  | .acts k i =>
      match w.members[k]? with
      | none => .error absent
      | some x => do
          let (y, store) ← step x w.store i
          pure ⟨w.members.set k y, store⟩

/-- A machine with a store of its own. -/
def aloneStep (p : σ × (κ → V)) (i : ι) : Except ε (σ × (κ → V)) :=
  step p.1 p.2 i

end Steps

/-- No two machines have one key. -/
def Apart (key : σ → κ) (w : Crowd σ κ V) : Prop := (w.members.map key).Nodup

/-- Nobody is where the newcomer goes. -/
def Vacant (place : β → κ) (key : σ → κ) (w : Crowd σ κ V) :
    CrowdEvent β ι → Prop
  | .joins b => ∀ x ∈ w.members, key x ≠ place b
  | .acts _ _ => True

theorem Apart.ne {key : σ → κ} {w : Crowd σ κ V} (h : Apart key w) {j k : Nat}
    {x y : σ} (hj : w.members[j]? = some x) (hk : w.members[k]? = some y)
    (hne : j ≠ k) : key x ≠ key y := by
  intro heq
  have hlt : j < (w.members.map key).length := by
    rw [List.length_map]
    exact (List.getElem?_eq_some_iff.mp hj).1
  refine hne ((List.getElem?_inj hlt h).mp ?_)
  rw [List.getElem?_map, List.getElem?_map, hj, hk]
  exact congrArg some heq

section Crowd

variable {absent : ε} {join : β → (κ → V) → Except ε (Option σ × (κ → V))}
  {step : σ → (κ → V) → ι → Except ε (σ × (κ → V))} {place : β → κ}
  {key : σ → κ} {w w' : Crowd σ κ V}

/-- A step of a crowd: somebody joins at a vacant place, or one machine
acts. -/
theorem crowdStep_eq_ok {e : CrowdEvent β ι}
    (h : crowdStep absent join step w e = .ok w') :
    (∃ b o, e = .joins b ∧ join b w.store = .ok (o, w'.store) ∧
      w'.members = w.members ++ o.toList) ∨
    ∃ k i x y, e = .acts k i ∧ w.members[k]? = some x ∧
      step x w.store i = .ok (y, w'.store) ∧
      w'.members = w.members.set k y := by
  cases e with
  | joins b =>
      obtain ⟨⟨o, store⟩, hjoin, h⟩ := bind_eq_ok.mp h
      cases h
      exact .inl ⟨b, o, rfl, hjoin, rfl⟩
  | acts k i =>
      rw [crowdStep] at h
      cases hx : w.members[k]? with
      | none =>
          rw [hx] at h
          cases h
      | some x =>
          rw [hx] at h
          obtain ⟨⟨y, store⟩, hstep, h⟩ := bind_eq_ok.mp h
          cases h
          exact .inr ⟨k, i, x, y, rfl, hx, hstep, rfl⟩

theorem Confined.apart (hc : Confined step key) (hj : Joins join place key)
    {e : CrowdEvent β ι} (hvacant : Vacant place key w e)
    (h : crowdStep absent join step w e = .ok w') (hw : Apart key w) :
    Apart key w' := by
  rcases crowdStep_eq_ok h with
    ⟨b, o, rfl, hjoin, hmembers⟩ | ⟨k, i, x, y, rfl, hx, hstep, hmembers⟩
  · rw [Apart, hmembers]
    cases o with
    | none =>
        rw [Option.toList_none, List.append_nil]
        exact hw
    | some x =>
        rw [Option.toList_some, List.map_append, List.map_singleton,
          hj.takes hjoin]
        refine List.nodup_append'.mpr ⟨hw, List.nodup_singleton _, ?_⟩
        rw [List.disjoint_singleton]
        intro hin
        obtain ⟨z, hz, heq⟩ := List.mem_map.mp hin
        exact hvacant z hz heq
  · obtain ⟨hlt, rfl⟩ := List.getElem?_eq_some_iff.mp hx
    have hself : (w.members.map key).set k (key w.members[k])
        = w.members.map key := by
      rw [← List.getElem_map key (h := by rwa [List.length_map]),
        List.set_getElem_self]
    rw [Apart, hmembers, List.map_set, hc.keeps hstep, hself]
    exact hw

theorem Confined.apart_run (hc : Confined step key) (hj : Joins join place key)
    (h : Runs (crowdStep absent join step) (Vacant place key) w w')
    (hw : Apart key w) : Apart key w' :=
  h.invariant (I := Apart key)
    (fun _ _ _ hw hvacant hok => hc.apart hj hvacant hok hw) hw

/-- A step that is none of machine `k` leaves it and its entry. -/
theorem Confined.passes (hc : Confined step key) (hj : Joins join place key)
    {e : CrowdEvent β ι} (hvacant : Vacant place key w e)
    (h : crowdStep absent join step w e = .ok w') (hw : Apart key w) {k : Nat}
    (hother : e.own k = []) {x : σ} (hx : w.members[k]? = some x) :
    w'.members[k]? = some x ∧ w'.store (key x) = w.store (key x) := by
  rcases crowdStep_eq_ok h with
    ⟨b, o, rfl, hjoin, hmembers⟩ | ⟨j, i, y, z, rfl, hy, hstep, hmembers⟩
  · refine ⟨?_, hj.frame hjoin _ (hvacant x (List.mem_of_getElem? hx))⟩
    rw [hmembers, List.getElem?_append_left
      (List.getElem?_eq_some_iff.mp hx).1]
    exact hx
  · have hne : j ≠ k := fun he => by
      rw [CrowdEvent.own, if_pos he] at hother
      cases hother
    refine ⟨?_, hc.frame hstep _ (hw.ne hx hy hne.symm)⟩
    rw [hmembers, List.getElem?_set_ne hne]
    exact hx

/-- In any run of the crowd, a machine does what it would do alone with a store
of its own, given its own events and nobody else's. -/
theorem Confined.isolated (hc : Confined step key)
    (hj : Joins join place key) {es : List (CrowdEvent β ι)}
    (hvacant : Guarded (crowdStep absent join step) (Vacant place key) w es)
    (h : es.foldlM (crowdStep absent join step) w = .ok w')
    (hw : Apart key w) {k : Nat} {x : σ} (hx : w.members[k]? = some x)
    {S : κ → V} (hS : S (key x) = w.store (key x)) :
    ∃ y T, (es.flatMap (CrowdEvent.own k)).foldlM (aloneStep step) (x, S)
        = .ok (y, T) ∧ w'.members[k]? = some y ∧ key y = key x ∧
      T (key x) = w'.store (key x) := by
  induction es generalizing w x S with
  | nil =>
      cases h
      exact ⟨x, S, rfl, hx, rfl, hS⟩
  | cons e es ih =>
      rw [List.foldlM_cons, bind_eq_ok] at h
      obtain ⟨u, hu, h⟩ := h
      obtain ⟨hv, hrest⟩ := hvacant
      have hapart := hc.apart hj hv hu hw
      rw [List.flatMap_cons, List.foldlM_append]
      by_cases hown : e.own k = []
      · obtain ⟨hx', hstore⟩ := hc.passes hj hv hu hw hown hx
        rw [hown]
        exact ih (hrest u hu) h hapart hx' (hS.trans hstore.symm)
      · rcases crowdStep_eq_ok hu with
          ⟨b, o, rfl, _⟩ | ⟨j, i, y, z, rfl, hy, hstep, hmembers⟩
        · exact absurd rfl hown
        · obtain rfl : j = k := by
            by_contra hne
            exact hown (if_neg hne)
          cases hy.symm.trans hx
          have halike := hc.congr i hS.symm
          rw [hstep] at halike
          obtain ⟨⟨z', T⟩, hT, hz, hentry⟩ := halike.of_ok
          cases hz
          have hkey := hc.keeps hstep
          have hz' : u.members[j]? = some z := by
            rw [hmembers, List.getElem?_set_self
              (List.getElem?_eq_some_iff.mp hx).1]
          obtain ⟨y', T', hrun, hy', hkey', hentry'⟩ :=
            ih (hrest u hu) h hapart hz' (hkey ▸ hentry.symm)
          refine ⟨y', T', ?_, hy', hkey'.trans hkey, hkey ▸ hentry'⟩
          have hone : [i].foldlM (aloneStep step) (x, S) = .ok (z, T) := by
            rw [List.foldlM_cons, aloneStep, hT]
            rfl
          rw [CrowdEvent.own, if_pos rfl, hone]
          exact hrun

/-- What a machine brings with it and each of its steps keeps, of itself and
its entry, holds of all machines at all times. -/
theorem Confined.lifts (hc : Confined step key) (hj : Joins join place key)
    {P : σ → V → Prop}
    (hjoin : ∀ b S x T, join b S = .ok (some x, T) → P x (T (key x)))
    (hstep : ∀ x S i y T, P x (S (key x)) → step x S i = .ok (y, T) →
      P y (T (key y)))
    (hrun : Runs (crowdStep absent join step) (Vacant place key) w w')
    (hw : Apart key w) (hP : ∀ x ∈ w.members, P x (w.store (key x))) :
    ∀ x ∈ w'.members, P x (w'.store (key x)) := by
  refine (hrun.invariant (I := fun w => Apart key w ∧
    ∀ x ∈ w.members, P x (w.store (key x))) ?_ ⟨hw, hP⟩).2
  rintro w e w' ⟨hw, hP⟩ hv hok
  refine ⟨hc.apart hj hv hok hw, fun x hx => ?_⟩
  -- one that was there and did not act, or the one this is about
  have hkept : ∀ k, e.own k = [] → w.members[k]? = some x →
      P x (w'.store (key x)) := fun k hown hk => by
    rw [(hc.passes hj hv hok hw hown hk).2]
    exact hP x (List.mem_of_getElem? hk)
  rcases crowdStep_eq_ok hok with
    ⟨b, o, rfl, hb, hmembers⟩ | ⟨j, i, y, z, rfl, hy, hz, hmembers⟩
  · rw [hmembers] at hx
    rcases List.mem_append.mp hx with hx | hx
    · obtain ⟨k, hk⟩ := List.getElem?_of_mem hx
      exact hkept k rfl hk
    · rw [Option.mem_toList] at hx
      cases hx
      exact hjoin b _ x _ hb
  · obtain ⟨k, hk⟩ := List.getElem?_of_mem hx
    rw [hmembers] at hk
    by_cases hjk : j = k
    · subst hjk
      rw [List.getElem?_set_self (List.getElem?_eq_some_iff.mp hy).1] at hk
      cases hk
      exact hstep y _ i _ _ (hP y (List.mem_of_getElem? hy)) hz
    · rw [List.getElem?_set_ne hjk] at hk
      exact hkept k (if_neg hjk) hk

/-- An entry that is nobody's is as it was before anybody came. -/
theorem Confined.uninhabited (hc : Confined step key)
    (hj : Joins join place key) {blank : V}
    (hnone : ∀ b S T, join b S = .ok (none, T) → T = S)
    (hrun : Runs (crowdStep absent join step) (Vacant place key) w w')
    (hw : ∀ k, (∀ x ∈ w.members, key x ≠ k) → w.store k = blank) :
    ∀ k, (∀ x ∈ w'.members, key x ≠ k) → w'.store k = blank := by
  refine hrun.invariant (I := fun w => ∀ k,
    (∀ x ∈ w.members, key x ≠ k) → w.store k = blank) ?_ hw
  intro w e w' hw _ hok k hk
  rcases crowdStep_eq_ok hok with
    ⟨b, o, rfl, hb, hmembers⟩ | ⟨j, i, y, z, rfl, hy, hz, hmembers⟩
  · rw [hmembers] at hk
    have hold := hw k fun x hx => hk x (List.mem_append_left _ hx)
    cases o with
    | none => rwa [hnone b _ _ hb]
    | some x =>
        have hnew := hk x (List.mem_append_right _ (List.mem_singleton_self x))
        rw [hj.takes hb] at hnew
        rwa [hj.frame hb k hnew.symm]
  · -- the machine that acted still has its key
    have hlt := (List.getElem?_eq_some_iff.mp hy).1
    have hz' : key z ≠ k := hk z (by
      rw [hmembers]
      exact List.mem_of_getElem? (List.getElem?_set_self hlt))
    rw [hc.keeps hz] at hz'
    rw [hc.frame hz k hz'.symm]
    refine hw k fun x hx => ?_
    obtain ⟨n, hn⟩ := List.getElem?_of_mem hx
    by_cases hjn : j = n
    · subst hjn
      cases hn.symm.trans hy
      exact hz'
    · refine hk x ?_
      rw [hmembers]
      exact List.mem_of_getElem? ((List.getElem?_set_ne hjn).trans hn)

end Crowd

end Aura.Lib
