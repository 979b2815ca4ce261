import Aura.Ref.Null

/-!
# The lists of the null transport

The three objects are static, so there is one set of links for all instances.
Discovering an instance takes the objects from the list they were on without
that list being told: its head still leads to them, and they lead to another
head. Discovering the same instance twice is no better, since the first object
then has the last one before it. The lists are what they should be exactly as
long as one discovery has been made (`unshared_iff`).
-/

namespace Aura.Proofs

open Aura.Lib Aura.Ref

/-! ## One discovery -/

/-- The links after a discovery of instance `k`, whose list ended in `p`. -/
def relinked (k : Nat) (p : NullAddr) (H : Links NullAddr) : Links NullAddr :=
  ((H.insert .o1 p (.head k)).insert .o2 .o1 (.head k)).insert .o3 .o2
    (.head k)

section Relinked

variable {H : Links NullAddr} {k : Nat} {p : NullAddr}

theorem urpcNullDiscovery_eq (hp : H.prev (.head k) = some p) :
    urpcNullDiscovery k H = .ok (3, relinked k p H) := by
  have hadd : ∀ {H : Links NullAddr} {new p : NullAddr},
      H.prev (.head k) = some p →
      listAddTail new (.head k) H = .ok (H.insert new p (.head k)) := by
    intro H new p hp
    rw [listAddTail, hp]
    rfl
  rw [urpcNullDiscovery, hadd hp, ok_bind,
    hadd (p := .o1) (by simp [Links.insert_prev]), ok_bind,
    hadd (p := .o2) (by simp [Links.insert_prev]), ok_bind]
  rfl

theorem relinked_next : (relinked k p H).next .o1 = some .o2 ∧
    (relinked k p H).next .o2 = some .o3 ∧
    (relinked k p H).next .o3 = some (.head k) := by
  simp [relinked, Links.insert_next]

theorem relinked_prev : (relinked k p H).prev (.head k) = some .o3 ∧
    (relinked k p H).prev .o1 = some p := by
  simp [relinked, Links.insert_prev]

theorem relinked_other {j : Nat} (hj : j ≠ k) (hp : p ≠ .head j) :
    (relinked k p H).next (.head j) = H.next (.head j) ∧
      (relinked k p H).prev (.head j) = H.prev (.head j) := by
  simp [relinked, Links.insert_next, Links.insert_prev, hj, Ne.symm hp]

/-- The head leads to the first object, if it did or had none. -/
theorem relinked_head (h : p = .head k ∨ H.next (.head k) = some .o1)
    (hp : p = .head k ∨ p = .o3) :
    (relinked k p H).next (.head k) = some .o1 := by
  rcases hp with rfl | rfl
  · simp [relinked, Links.insert_next]
  · have hnext : H.next (.head k) = some .o1 := by simpa using h
    simp [relinked, Links.insert_next, hnext]

/-- The objects of an instance discovered for the first time form a ring with
its head, wherever else they were. -/
theorem relinked_ring (h : Ring H (.head k) []) :
    Ring (relinked k (.head k) H) (.head k) [.o1, .o2, .o3] := by
  have hone : Ring (H.insert .o1 (.head k) (.head k)) (.head k) [.o1] :=
    h.insertTail (by simp) h.2.2
  have htwo : Ring ((H.insert .o1 (.head k) (.head k)).insert .o2 .o1 (.head k))
      (.head k) [.o1, .o2] :=
    hone.insertTail (by simp) (by simp [Links.insert_prev])
  exact htwo.insertTail (by simp) (by simp [Links.insert_prev])

theorem fillNull_relinked
    (hhead : (relinked k p H).next (.head k) = some .o1) :
    fillNull (relinked k p H) (.head k) 3 ((relinked k p H).next (.head k))
      = .ok [.o1, .o2, .o3] := by
  obtain ⟨hone, htwo, hthree⟩ := @relinked_next H k p
  rw [hhead, fillNull, if_neg nofun, hone, fillNull, if_neg nofun, htwo,
    fillNull, if_neg nofun, hthree, fillNull, if_pos rfl]
  rfl

/-- A discovery never fails in its walk, only for want of memory. -/
theorem lUrpcDiscoveryNull_eq {s : NullState} {k : Nat} {p : NullAddr}
    (hk : k < s.opened) (hp : s.links.prev (.head k) = some p)
    (hhead : (relinked k p s.links).next (.head k) = some .o1) (mem : Bool) :
    lUrpcDiscoveryNull k mem s =
      if mem then .ok { s with
        links := relinked k p s.links
        objects := fun j =>
          if j = k then some [.o1, .o2, .o3] else s.objects j }
      else .error .nullDeref := by
  rw [lUrpcDiscoveryNull, if_neg (by omega), urpcNullDiscovery_eq hp, ok_bind]
  show fillNull (relinked k p s.links) (.head k) 3 _ >>= _ = _
  rw [fillNull_relinked hhead, ok_bind]
  cases mem <;> rfl

/-- A head on its own is out of reach of a discovery. -/
theorem relinked_frame {j : Nat} (hj : j ≠ k) (hp : p ≠ .head j)
    (h : Ring H (.head j) []) : Ring (relinked k p H) (.head j) [] := by
  have hhead : NullAddr.head k ∉ [NullAddr.head j] := by simp [Ne.symm hj]
  have hprev : p ∉ [NullAddr.head j] := by simp [hp]
  have hone := h.insert_frame (show .o1 ∉ [NullAddr.head j] by simp) hprev hhead
  have htwo := hone.insert_frame (show .o2 ∉ [NullAddr.head j] by simp)
    (show .o1 ∉ [NullAddr.head j] by simp) hhead
  exact htwo.insert_frame (by simp) (by simp) hhead

end Relinked

/-! ## Any sequence of opens and discoveries -/

/-- The instances discovered, in order. -/
def discoveries (evs : List NullEvent) : List Nat :=
  evs.filterMap fun e =>
    match e with
    | .discovers k _ => some k
    | .opens _ _ _ => none

/-- What the links are after the discoveries `ds`. -/
structure Linked (s : NullState) (ds : List Nat) : Prop where
  opened : ∀ k ∈ ds, k < s.opened
  objects : ∀ k, s.objects k ≠ none ↔ k ∈ ds
  fresh : ∀ k, k < s.opened → k ∉ ds → Ring s.links (.head k) []
  seen : ∀ k ∈ ds, s.links.next (.head k) = some .o1 ∧
    s.links.prev (.head k) = some .o3
  last : ∀ k, ds.getLast? = some k → s.links.next .o1 = some .o2 ∧
    s.links.next .o2 = some .o3 ∧ s.links.next .o3 = some (.head k)
  again : ∀ k ds', ds = ds' ++ [k] → k ∈ ds' → s.links.prev .o1 = some .o3
  once : ∀ k, ds = [k] → Ring s.links (.head k) [.o1, .o2, .o3]

theorem linked_start : Linked nullStart [] where
  opened := fun k hk => absurd hk List.not_mem_nil
  objects := fun k => by simp [nullStart]
  fresh := fun k hk => absurd hk (Nat.not_lt_zero k)
  seen := fun k hk => absurd hk List.not_mem_nil
  last := fun k hk => by cases hk
  again := fun k ds' hds => by simp at hds
  once := fun k hk => by cases hk

theorem Linked.opens {s s' : NullState} {ds : List Nat} (h : Linked s ds)
    {argc : Nat} {priv inst : Bool}
    (hs : lUrpcOpenNull argc priv inst s = .ok s') : Linked s' ds := by
  rw [lUrpcOpenNull] at hs
  by_cases hargc : argc < 2
  · rw [if_pos hargc] at hs
    cases hs
    exact h
  · rw [if_neg hargc] at hs
    by_cases hmem : (priv && inst) = true
    · rw [if_pos hmem] at hs
      cases hs
      have hne : ∀ k ∈ ds, k ≠ s.opened :=
        fun k hk => Nat.ne_of_lt (h.opened k hk)
      refine ⟨?_, ?_, ?_, ?_, ?_, ?_, ?_⟩
      · intro k hk
        exact Nat.lt_succ_of_lt (h.opened k hk)
      · intro k
        by_cases hk : k = s.opened
        · have hnot : k ∉ ds := fun hin => hne k hin hk
          simp [hk, hk ▸ hnot]
        · simp only [if_neg hk]
          exact h.objects k
      · intro k hk hfresh
        by_cases hnew : k = s.opened
        · rw [hnew]
          exact ring_init _ _
        · have hold : k < s.opened :=
            Nat.lt_of_le_of_ne (Nat.le_of_lt_succ hk) hnew
          refine (h.fresh k hold hfresh).init_frame ?_
          rw [List.mem_singleton]
          exact fun he => hnew (NullAddr.head.inj he).symm
      · intro k hk
        have hseen := h.seen k hk
        simpa [Links.init, hne k hk] using hseen
      · intro k hk
        simpa [Links.init] using h.last k hk
      · intro k ds' hds hk
        simpa [Links.init] using h.again k ds' hds hk
      · intro k hk
        refine (h.once k hk).init_frame ?_
        have hnew := hne k (hk ▸ List.mem_singleton_self k)
        simp [Ne.symm hnew]
    · rw [if_neg hmem] at hs
      cases hs

/-- What a discovery that goes through has done. -/
theorem Linked.discovered {s s' : NullState} {ds : List Nat}
    (h : Linked s ds) {k : Nat} {mem : Bool}
    (hs : lUrpcDiscoveryNull k mem s = .ok s') :
    k < s.opened ∧ ∃ p, (p = .head k ∧ k ∉ ds ∨ p = .o3 ∧ k ∈ ds) ∧
      (relinked k p s.links).next (.head k) = some .o1 ∧
      s' = { s with
        links := relinked k p s.links
        objects := fun j =>
          if j = k then some [.o1, .o2, .o3] else s.objects j } := by
  have hk : k < s.opened := by
    by_contra hle
    rw [lUrpcDiscoveryNull, if_pos (Nat.le_of_not_lt hle)] at hs
    cases hs
  obtain ⟨p, hp, hcase, hhead⟩ : ∃ p, s.links.prev (.head k) = some p ∧
      (p = .head k ∧ k ∉ ds ∨ p = .o3 ∧ k ∈ ds) ∧
      (relinked k p s.links).next (.head k) = some .o1 := by
    by_cases hin : k ∈ ds
    · obtain ⟨hnext, hprev⟩ := h.seen k hin
      exact ⟨.o3, hprev, .inr ⟨rfl, hin⟩,
        relinked_head (.inr hnext) (.inr rfl)⟩
    · exact ⟨.head k, (h.fresh k hk hin).2.2, .inl ⟨rfl, hin⟩,
        relinked_head (.inl rfl) (.inl rfl)⟩
  rw [lUrpcDiscoveryNull_eq hk hp hhead] at hs
  cases mem with
  | false => cases hs
  | true =>
      cases hs
      exact ⟨hk, p, hcase, hhead, rfl⟩

theorem Linked.discovers {s s' : NullState} {ds : List Nat} (h : Linked s ds)
    {k : Nat} {mem : Bool} (hs : lUrpcDiscoveryNull k mem s = .ok s') :
    Linked s' (ds ++ [k]) := by
  obtain ⟨hk, p, hcase, hhead, rfl⟩ := h.discovered hs
  have hother : ∀ j, j ≠ k → p ≠ .head j := by
    intro j hj
    rcases hcase with ⟨hp, _⟩ | ⟨hp, _⟩
    · rw [hp]
      exact fun he => hj (NullAddr.head.inj he).symm
    · rw [hp]
      nofun
  refine ⟨?_, ?_, ?_, ?_, ?_, ?_, ?_⟩
  · intro j hj
    rcases List.mem_append.mp hj with hj | hj
    · exact h.opened j hj
    · exact List.mem_singleton.mp hj ▸ hk
  · intro j
    by_cases hj : j = k
    · simp [hj]
    · simp only [List.mem_append, List.mem_singleton, hj, or_false]
      exact h.objects j
  · intro j hopen hfresh
    rw [List.mem_append, List.mem_singleton, not_or] at hfresh
    exact relinked_frame hfresh.2 (hother j hfresh.2)
      (h.fresh j hopen hfresh.1)
  · intro j hj
    by_cases hjk : j = k
    · rw [hjk]
      exact ⟨hhead, relinked_prev.1⟩
    · have hold : j ∈ ds := by
        rw [List.mem_append, List.mem_singleton] at hj
        exact hj.resolve_right hjk
      obtain ⟨hnext, hprev⟩ := relinked_other (H := s.links) hjk
        (hother j hjk)
      show (relinked k p s.links).next _ = _ ∧
        (relinked k p s.links).prev _ = _
      rw [hnext, hprev]
      exact h.seen j hold
  · intro j hj
    rw [List.getLast?_concat] at hj
    cases hj
    exact relinked_next
  · intro j ds' hds hj
    obtain ⟨rfl, hlast⟩ := List.append_inj' hds rfl
    cases hlast
    rcases hcase with ⟨_, hnot⟩ | ⟨hp, _⟩
    · exact absurd hj hnot
    · exact hp ▸ relinked_prev.2
  · intro j hds
    obtain ⟨rfl, hlast⟩ :=
      List.append_inj' (show ds ++ [k] = [] ++ [j] from hds) rfl
    cases hlast
    rcases hcase with ⟨hp, _⟩ | ⟨_, hin⟩
    · rw [hp]
      exact relinked_ring (h.fresh k hk List.not_mem_nil)
    · cases hin

theorem linked_step {s s' : NullState} {ds : List Nat} {e : NullEvent}
    (h : Linked s ds) (hs : nullStep s e = .ok s') :
    Linked s' (ds ++ discoveries [e]) := by
  cases e with
  | opens argc priv inst =>
      show Linked s' (ds ++ [])
      rw [List.append_nil]
      exact h.opens hs
  | discovers k mem => exact h.discovers hs

/-- The state after a sequence of events. -/
def nullRun (evs : List NullEvent) : Res NullState :=
  evs.foldlM nullStep nullStart

theorem linked_run {evs : List NullEvent} {s : NullState}
    (h : nullRun evs = .ok s) : Linked s (discoveries evs) := by
  have hgen : ∀ (evs : List NullEvent) (s₀ : NullState) (ds : List Nat),
      Linked s₀ ds → evs.foldlM nullStep s₀ = .ok s →
      Linked s (ds ++ discoveries evs) := by
    intro evs
    induction evs with
    | nil =>
        intro s₀ ds hl hrun
        cases hrun
        rwa [discoveries, List.filterMap_nil, List.append_nil]
    | cons e evs ih =>
        intro s₀ ds hl hrun
        rw [List.foldlM_cons, bind_eq_ok] at hrun
        obtain ⟨s₁, hs₁, hrun⟩ := hrun
        have hnext := ih s₁ _ (linked_step hl hs₁) hrun
        rwa [List.append_assoc, discoveries, discoveries,
          ← List.filterMap_append] at hnext
  exact hgen evs nullStart [] linked_start h

/-! ## Whose objects they are -/

/-- The list of instance `k` is a ring of the three objects. -/
def WellFormed (s : NullState) (k : Nat) : Prop :=
  ∃ l, Ring s.links (.head k) l ∧
    ∀ a, a ∈ l ↔ a = .o1 ∨ a = .o2 ∨ a = .o3

/-- So is that of every instance that has been discovered. -/
def Separate (s : NullState) : Prop :=
  ∀ k, s.objects k ≠ none → WellFormed s k

/-- Two heads cannot both have the objects, nor one of them twice. -/
theorem Linked.separate_iff {s : NullState} {ds : List Nat}
    (h : Linked s ds) : Separate s ↔ ds.length ≤ 1 := by
  rcases List.eq_nil_or_concat' ds with rfl | ⟨ds, k, rfl⟩
  · simp only [List.length_nil, Nat.zero_le, iff_true]
    intro k hk
    exact absurd ((h.objects k).mp hk) List.not_mem_nil
  · have hlast : k ∈ ds ++ [k] :=
      List.mem_append_right _ (List.mem_singleton_self k)
    constructor
    · intro hsep
      by_contra hlen
      by_cases hk : k ∈ ds
      · -- discovered before: what is behind the head has another `prev`
        obtain ⟨l, hring, _⟩ := hsep k ((h.objects k).mpr hlast)
        have hback := (hring.next_mem (.head _) (h.seen k hlast).1).2
        rw [h.again k ds rfl hk] at hback
        cases hback
      · -- another was: its list leads to the head of this one
        cases ds with
        | nil => simp at hlen
        | cons j ds =>
            have hj : j ∈ j :: ds ++ [k] := .head _
            have hjk : k ≠ j := fun he => hk (he ▸ .head _)
            obtain ⟨l, hring, hobjs⟩ := hsep j ((h.objects j).mpr hj)
            obtain ⟨hone, htwo, hthree⟩ :=
              h.last k (List.getLast?_concat ..)
            have hin := (hring.next_mem (.head _) (h.seen j hj).1).1
            have hin := (hring.next_mem hin hone).1
            have hin := (hring.next_mem hin htwo).1
            have hin := (hring.next_mem hin hthree).1
            rcases List.mem_cons.mp hin with he | hin
            · exact hjk (NullAddr.head.inj he)
            · rcases (hobjs _).mp hin with he | he | he <;> cases he
    · intro hlen j hj
      have hnil : ds = [] := by
        rw [List.length_append, List.length_singleton] at hlen
        exact List.eq_nil_of_length_eq_zero (by omega)
      rw [hnil] at h
      have hjk : j = k := List.mem_singleton.mp ((h.objects j).mp hj)
      rw [hjk]
      exact ⟨_, h.once k rfl, by simp⟩

/-- Instances do not share nodes, at any point of a sequence of events: the
lists are well formed, and a discovery leaves those of other instances as they
were. -/
structure Unshared (evs : List NullEvent) : Prop where
  wellFormed : ∀ pre s, pre <+: evs → nullRun pre = .ok s → Separate s
  others : ∀ pre k mem s s', pre ++ [.discovers k mem] <+: evs →
    nullRun pre = .ok s → nullStep s (.discovers k mem) = .ok s' →
    ∀ j, j ≠ k → j < s.opened → ∀ l, Ring s.links (.head j) l →
      Ring s'.links (.head j) l

/-- They do not share any exactly when no more than one discovery is made. -/
theorem unshared_iff {evs : List NullEvent} {s : NullState}
    (h : nullRun evs = .ok s) :
    Unshared evs ↔ (discoveries evs).length ≤ 1 := by
  have hearlier : ∀ {pre}, pre <+: evs →
      (discoveries pre).length ≤ (discoveries evs).length := by
    rintro pre ⟨post, rfl⟩
    rw [discoveries, discoveries, List.filterMap_append, List.length_append]
    exact Nat.le_add_right _ _
  constructor
  · intro hun
    exact (linked_run h).separate_iff.mp
      (hun.wellFormed evs s (List.prefix_refl evs) h)
  · intro hone
    constructor
    · intro pre s hpre hrun
      exact (linked_run hrun).separate_iff.mpr
        (Nat.le_trans (hearlier hpre) hone)
    · intro pre k mem s s' hpre hrun hstep j hj hopen l hring
      have hnone : discoveries pre = [] := by
        have hle := Nat.le_trans (hearlier hpre) hone
        rw [discoveries, List.filterMap_append, List.length_append] at hle
        exact List.eq_nil_of_length_eq_zero (Nat.le_zero.mp
          (Nat.le_of_succ_le_succ hle))
      have hlinked := linked_run hrun
      rw [hnone] at hlinked
      obtain ⟨_, p, hcase, _, rfl⟩ := hlinked.discovered hstep
      have halone := hlinked.fresh j hopen List.not_mem_nil
      rw [hring.eq_nil halone]
      refine relinked_frame hj ?_ halone
      rcases hcase with ⟨hp, _⟩ | ⟨_, hin⟩
      · rw [hp]
        exact fun he => hj (NullAddr.head.inj he).symm
      · cases hin

theorem unshared_one : Unshared
    [.opens 2 true true, .opens 2 true true, .discovers 1 true] :=
  (unshared_iff (rfl : nullRun [.opens 2 true true, .opens 2 true true,
    .discovers 1 true] = .ok _)).mpr (by decide)

/-- Two instances, discovered one after the other: the list of the first leads
to the head of the second. -/
theorem nodes_shared :
    ¬ ∀ evs s, nullRun evs = .ok s → Unshared evs := by
  intro h
  have hrun : nullRun [.opens 2 true true, .opens 2 true true,
    .discovers 0 true, .discovers 1 true] = .ok _ := rfl
  have hsep := (h _ _ hrun).wellFormed _ _ (List.prefix_refl _) hrun
  have hlen := (linked_run hrun).separate_iff.mp hsep
  revert hlen
  decide

end Aura.Proofs
