import Aura.Lib.Shelves
import Aura.Ref.List

/-!
# What the lists of list.h are

The functions of list.h see nodes and links; what they are for is sequences.
`shelfStep` says for each operation what becomes of the sequences behind the
heads, and `ListOk` what a caller has to know: that a node it adds is on no
list, that a node it deletes is on one, that the heads it names are heads and
not the node itself. Under it, whatever the operations and their order and
whatever memory held before, no link that is followed is null and memory is
what the sequences say (`lists_refine`): every head has a ring of its own with
the nodes of its sequence, which both walks visit, each once.

Deleting while iterating is the one thing the plain walk is no good for.
`listForEachSafe_rule` says what `list_for_each_safe` needs of its body.
-/

namespace Aura.Proofs

open Aura.Lib Aura.Ref

variable {α : Type} [DecidableEq α]

/-! ## Sequences -/

/-- What becomes of the sequences. A list that was spliced into another is not
one any more, unless there was nothing to splice. -/
def shelfStep (S : Shelves α) : ListOp α → Shelves α
  | .init ptr => S.put ptr []
  | .add new head => (S.drop new).put head (new :: S.behind head)
  | .addTail new head => (S.drop new).put head (S.behind head ++ [new])
  | .del entry => S.without entry
  | .delInit entry => (S.without entry).put entry []
  | .move list head =>
      let S := S.without list
      S.put head (list :: S.behind head)
  | .moveTail list head =>
      let S := S.without list
      S.put head (S.behind head ++ [list])
  | .splice list head =>
      if S.behind list = [] then S
      else (S.drop list).put head (S.behind list ++ S.behind head)
  | .spliceInit list head =>
      (S.put list []).put head (S.behind list ++ S.behind head)

/-- What the callers have to know. -/
def ListOk (S : Shelves α) : ListOp α → Prop
  | .init ptr => S.Loose ptr
  | .add new head | .addTail new head =>
      S.Loose new ∧ (S head).isSome ∧ head ≠ new
  | .del entry | .delInit entry => S.Placed entry
  | .move list head | .moveTail list head =>
      S.Placed list ∧ (S head).isSome ∧ head ≠ list
  | .splice list head | .spliceInit list head =>
      (S list).isSome ∧ (S head).isSome ∧ head ≠ list

instance decidableListOk [Fintype α] (S : Shelves α) :
    ∀ op : ListOp α, Decidable (ListOk S op)
  | .init ptr => inferInstanceAs (Decidable (S.Loose ptr))
  | .add new head | .addTail new head => inferInstanceAs
      (Decidable (S.Loose new ∧ (S head).isSome ∧ head ≠ new))
  | .del entry | .delInit entry => inferInstanceAs (Decidable (S.Placed entry))
  | .move list head | .moveTail list head => inferInstanceAs
      (Decidable (S.Placed list ∧ (S head).isSome ∧ head ≠ list))
  | .splice list head | .spliceInit list head => inferInstanceAs
      (Decidable ((S list).isSome ∧ (S head).isSome ∧ head ≠ list))

/-! ## One list -/

section Ring

variable {H : Links α} {h : α} {l : List α}

theorem listEmpty_ring (hr : Ring H h l) : listEmpty h H = true ↔ l = [] := by
  unfold listEmpty
  rw [decide_eq_true_iff]
  cases l with
  | nil => exact iff_of_true hr.2.1 rfl
  | cons c l =>
      refine iff_of_false ?_ (List.cons_ne_nil c l)
      intro hnext
      have hc : c = h := Option.some.inj (hr.2.1.symm.trans hnext)
      exact (List.nodup_cons.mp hr.1).1 (hc ▸ .head _)

theorem listAddTail_ring (hr : Ring H h l) {new : α} (hnew : new ∉ h :: l) :
    ∃ H', listAddTail new h H = .ok H' ∧ Ring H' h (l ++ [new]) := by
  obtain ⟨p, -, -, -, hprev, -⟩ := hr.ends
  refine ⟨_, by rw [listAddTail, hprev]; rfl, ?_⟩
  exact hr.insertTail hnew hprev

theorem listDel_ring {e : α} {l₁ l₂ : List α}
    (hr : Ring H h (l₁ ++ e :: l₂)) :
    ∃ H', listDel e H = .ok H' ∧ Ring H' h (l₁ ++ l₂) := by
  obtain ⟨p, n, hp, hn, hprev, hnext⟩ := hr.around
  have hmid : Ring H h (l₁ ++ [e] ++ l₂) := by
    rwa [List.append_assoc, List.singleton_append]
  have hout : e ∉ h :: (l₁ ++ l₂) := by
    have hnd : (h :: l₁ ++ e :: l₂).Nodup := hr.1
    exact (List.nodup_cons.mp (List.nodup_middle.mp hnd)).1
  refine ⟨_, ?_, (hmid.cut hp hn).clear_frame hout⟩
  rw [listDel, listUnlink, hprev, hnext]
  rfl

end Ring

/-! ## One operation -/

section Operations

variable {H : Links α} {S : Shelves α}

/-- A node off the shelf goes in behind the head. -/
theorem listAdd_shelved (hs : Shelved H S) {new head : α} {l : List α}
    (hoff : S.Off new) (hh : S head = some l) :
    ∃ H', listAdd new head H = .ok H' ∧ Shelved H' (S.put head (new :: l)) := by
  obtain ⟨-, n, -, hn, -, hnext⟩ := (hs.ring hh).ends
  have hnin : n ∈ head :: l := by
    rcases List.mem_append.mp (List.mem_of_head? hn) with hin | hin
    · exact .tail _ hin
    · rw [List.mem_singleton.mp hin]
      exact .head _
  have hne : ∀ {x}, x ∈ head :: l → new ≠ x := fun hx he =>
    hoff head l hh (he ▸ hx)
  have hh' : S head = some ([] ++ l) := hh
  have hpaste := hs.paste hh' rfl hn (List.isChain_singleton new)
    (List.nodup_singleton new) rfl rfl
    fun x hx => by rw [List.mem_singleton.mp hx]; exact hoff
  refine ⟨_, by rw [listAdd, hnext]; rfl, ?_⟩
  rw [listAddBetween, Links.insert_eq_link,
    H.link_comm (hne (.head _)) (hne hnin).symm]
  exact hpaste

theorem listAddTail_shelved (hs : Shelved H S) {new head : α} {l : List α}
    (hoff : S.Off new) (hh : S head = some l) :
    ∃ H', listAddTail new head H = .ok H' ∧
      Shelved H' (S.put head (l ++ [new])) := by
  obtain ⟨p, -, hp, -, hprev, -⟩ := (hs.ring hh).ends
  have hpin : p ∈ head :: l := List.mem_of_getLast? hp
  have hne : ∀ {x}, x ∈ head :: l → new ≠ x := fun hx he =>
    hoff head l hh (he ▸ hx)
  have hh' : S head = some (l ++ []) := by rw [hh, List.append_nil]
  have hpaste := hs.paste hh' hp rfl (List.isChain_singleton new)
    (List.nodup_singleton new) rfl rfl
    fun x hx => by rw [List.mem_singleton.mp hx]; exact hoff
  rw [List.append_nil] at hpaste
  refine ⟨_, by rw [listAddTail, hprev]; rfl, ?_⟩
  rw [listAddBetween, Links.insert_eq_link,
    H.link_comm (hne hpin) (hne (.head _)).symm]
  exact hpaste

/-- A node that is on a list, or alone, is off the shelf afterwards. -/
theorem listUnlink_shelved (hs : Shelved H S) {e : α}
    (he : S.Placed e) :
    ∃ H', listUnlink e H = .ok H' ∧ Shelved H' (S.without e) ∧
      (S.without e).Off e := by
  rcases he with ⟨h, l, hh, he⟩ | halone
  · obtain ⟨l₁, l₂, rfl⟩ := List.append_of_mem he
    obtain ⟨p, n, hp, hn, hprev, hnext⟩ := (hs.ring hh).around
    have hmid : S h = some (l₁ ++ [e] ++ l₂) := by
      rw [hh, List.append_assoc, List.singleton_append]
    obtain ⟨hcut, hoff⟩ := hs.cut hmid hp hn
    have hnd := (List.nodup_cons.mp (hs.ring hh).1).2
    have hel₁ : e ∉ l₁ := fun hin =>
      List.disjoint_of_nodup_append hnd hin (.head _)
    have heh : h ≠ e := fun heq => (List.nodup_cons.mp (hs.ring hh).1).1
      (heq ▸ he)
    have hS : S.without e = S.put h (l₁ ++ l₂) := by
      funext k
      by_cases hkh : k = h
      · rw [hkh, Shelves.put_self, Shelves.without_of_ne S heh, hh,
          Option.map_some, List.erase_append_right _ hel₁,
          List.erase_cons_head]
      · rw [Shelves.put_of_ne S _ hkh]
        by_cases hke : k = e
        · rw [hke, Shelves.without_self, hs.not_head hh he]
        · rw [Shelves.without_of_ne S hke]
          cases hk : S k with
          | none => rfl
          | some m =>
              have hem : e ∉ m := fun hin =>
                hs.off_of_mem hh (.tail _ he) hk hkh (.tail _ hin)
              rw [Option.map_some, List.erase_of_not_mem hem]
    refine ⟨_, by rw [listUnlink, hprev, hnext]; rfl, ?_, ?_⟩
    · rw [hS]
      exact hcut
    · rw [hS]
      exact hoff e (List.mem_singleton_self e)
  · obtain ⟨p, n, hp, hn, hprev, hnext⟩ := (hs.ring halone).ends
    cases hp
    cases hn
    have hoff : (S.drop e).Off e := hs.drop_off halone e (.head _)
    refine ⟨_, by rw [listUnlink, hprev, hnext]; rfl, ?_, ?_⟩
    · rw [Shelves.without_eq_drop hoff]
      exact (hs.drop e).link_off hoff
    · rw [Shelves.without_eq_drop hoff]
      exact hoff

/-- What was behind one head goes in behind another. -/
theorem listSpliceBetween_shelved (hs : Shelved H S) {list head : α}
    {l m : List α} (hl : S list = some m) (hm : m ≠ [])
    (hh : S head = some l) (hne : head ≠ list) :
    ∃ H', listSpliceBetween list head H = .ok H' ∧
      Shelved H' ((S.drop list).put head (m ++ l)) := by
  obtain ⟨last, first, hlast, hfirst, hprev, hnext⟩ := (hs.ring hl).ends
  obtain ⟨-, n, -, hn, -, hat⟩ := (hs.ring hh).ends
  have hfirst : m.head? = some first := by
    cases m with
    | nil => exact absurd rfl hm
    | cons c m => exact hfirst
  have hlast : m.getLast? = some last := by
    cases m with
    | nil => exact absurd rfl hm
    | cons c m => exact hlast
  obtain ⟨hnd, hchain⟩ := ring_iff.mp (hs.ring hl)
  have hchain : List.IsChain H.Joined m := hchain.tail.left_of_append
  have hh' : S.drop list head = some ([] ++ l) :=
    (Shelves.drop_of_ne S hne).trans hh
  have hpaste := (hs.drop list).paste hh' rfl hn hchain
    (List.nodup_cons.mp hnd).2 hfirst hlast
    fun x hx => hs.drop_off hl x (.tail _ hx)
  refine ⟨_, by rw [listSpliceBetween, hnext, hprev, hat]; rfl, hpaste⟩

theorem listEmpty_iff (hs : Shelved H S) {h : α} {l : List α}
    (hh : S h = some l) : listEmpty h H = true ↔ l = [] :=
  listEmpty_ring (hs.ring hh)

theorem listDel_shelved (hs : Shelved H S) {entry : α}
    (he : S.Placed entry) :
    ∃ H', listDel entry H = .ok H' ∧ Shelved H' (S.without entry) := by
  obtain ⟨H', hrun, hs', hoff⟩ := listUnlink_shelved hs he
  refine ⟨H'.clear entry, ?_, hs'.clear hoff⟩
  rw [listDel, hrun]
  rfl

theorem listDelInit_shelved (hs : Shelved H S) {entry : α}
    (he : S.Placed entry) :
    ∃ H', listDelInit entry H = .ok H' ∧
      Shelved H' ((S.without entry).put entry []) := by
  obtain ⟨H', hrun, hs', hoff⟩ := listUnlink_shelved hs he
  refine ⟨H'.init entry, ?_, hs'.init ⟨hoff.drop entry, ?_⟩⟩
  · rw [listDelInit, hrun]
    rfl
  · rw [Shelves.behind, Shelves.without_self, Option.getD_none]

/-- A node about to move is off its list, and the head it goes to still has the
others behind it. -/
theorem listUnlink_before_move (hs : Shelved H S) {list head : α}
    (hplaced : S.Placed list) (hhead : (S head).isSome) (hne : head ≠ list) :
    ∃ H', listUnlink list H = .ok H' ∧ Shelved H' (S.without list) ∧
      (S.without list).Off list ∧
      S.without list head = some ((S.without list).behind head) := by
  obtain ⟨l, hh⟩ := Option.isSome_iff_exists.mp hhead
  obtain ⟨H', hrun, hs', hoff⟩ := listUnlink_shelved hs hplaced
  have hh' : S.without list head = some (l.erase list) := by
    rw [Shelves.without_of_ne S hne, hh, Option.map_some]
  exact ⟨H', hrun, hs', hoff, hh'.trans (congrArg some
    (Shelves.behind_eq hh').symm)⟩

theorem listSplice_shelved (hs : Shelved H S) {list head : α} {l m : List α}
    (hm : S list = some m) (hh : S head = some l) (hne : head ≠ list) :
    ∃ H', listSplice list head H = .ok H' ∧
      Shelved H' (if m = [] then S else (S.drop list).put head (m ++ l)) := by
  rw [listSplice]
  by_cases hempty : m = []
  · rw [if_pos hempty, if_pos ((listEmpty_iff hs hm).mpr hempty)]
    exact ⟨H, rfl, hs⟩
  · rw [if_neg hempty, if_neg (mt (listEmpty_iff hs hm).mp hempty)]
    exact listSpliceBetween_shelved hs hm hempty hh hne

/-- The head the nodes came from is empty afterwards, and a list again. -/
theorem listSpliceInit_shelved (hs : Shelved H S) {list head : α}
    {l m : List α} (hm : S list = some m) (hh : S head = some l)
    (hne : head ≠ list) :
    ∃ H', listSpliceInit list head H = .ok H' ∧
      Shelved H' ((S.put list []).put head (m ++ l)) := by
  rw [listSpliceInit]
  by_cases hempty : m = []
  · subst hempty
    rw [if_pos ((listEmpty_iff hs hm).mpr rfl), Shelves.put_eq hm,
      List.nil_append, Shelves.put_eq hh]
    exact ⟨H, rfl, hs⟩
  · rw [if_neg (mt (listEmpty_iff hs hm).mp hempty),
      Shelves.put_put S hne]
    obtain ⟨H', hrun, hs'⟩ :=
      listSpliceBetween_shelved hs hm hempty hh hne
    have hoff : ((S.drop list).put head (m ++ l)).Off list := by
      refine (hs.drop_off hm list (.head _)).put fun hin => ?_
      rcases List.mem_cons.mp hin with heq | hin
      · exact hne heq.symm
      · rcases List.mem_append.mp hin with hin | hin
        · exact (List.nodup_cons.mp (hs.ring hm).1).1 hin
        · exact hs.off_of_mem hm (.head _) hh hne (.tail _ hin)
    refine ⟨H'.init list, by rw [hrun]; rfl, hs'.init ⟨hoff.drop list, ?_⟩⟩
    rw [Shelves.behind, Shelves.put_of_ne _ _ hne.symm, Shelves.drop_self,
      Option.getD_none]

/-- What is done with links is done with sequences. -/
theorem listStep_shelved (hs : Shelved H S) {op : ListOp α}
    (hop : ListOk S op) :
    ∃ H', listStep H op = .ok H' ∧ Shelved H' (shelfStep S op) := by
  cases op with
  | init ptr => exact ⟨_, rfl, hs.init hop⟩
  | add new head =>
      obtain ⟨⟨hoff, -⟩, hhead, hne⟩ := hop
      obtain ⟨l, hh⟩ := Option.isSome_iff_exists.mp hhead
      rw [shelfStep, Shelves.behind_eq hh]
      exact listAdd_shelved (hs.drop new) hoff
        ((Shelves.drop_of_ne S hne).trans hh)
  | addTail new head =>
      obtain ⟨⟨hoff, -⟩, hhead, hne⟩ := hop
      obtain ⟨l, hh⟩ := Option.isSome_iff_exists.mp hhead
      rw [shelfStep, Shelves.behind_eq hh]
      exact listAddTail_shelved (hs.drop new) hoff
        ((Shelves.drop_of_ne S hne).trans hh)
  | del entry => exact listDel_shelved hs hop
  | delInit entry => exact listDelInit_shelved hs hop
  | move list head =>
      obtain ⟨hplaced, hhead, hne⟩ := hop
      obtain ⟨H', hrun, hs', hoff, hh⟩ :=
        listUnlink_before_move hs hplaced hhead hne
      rw [shelfStep, listStep, listMove, hrun, ok_bind]
      exact listAdd_shelved hs' hoff hh
  | moveTail list head =>
      obtain ⟨hplaced, hhead, hne⟩ := hop
      obtain ⟨H', hrun, hs', hoff, hh⟩ :=
        listUnlink_before_move hs hplaced hhead hne
      rw [shelfStep, listStep, listMoveTail, hrun, ok_bind]
      exact listAddTail_shelved hs' hoff hh
  | splice list head =>
      obtain ⟨hlist, hhead, hne⟩ := hop
      obtain ⟨m, hm⟩ := Option.isSome_iff_exists.mp hlist
      obtain ⟨l, hh⟩ := Option.isSome_iff_exists.mp hhead
      rw [shelfStep, Shelves.behind_eq hm, Shelves.behind_eq hh]
      exact listSplice_shelved hs hm hh hne
  | spliceInit list head =>
      obtain ⟨hlist, hhead, hne⟩ := hop
      obtain ⟨m, hm⟩ := Option.isSome_iff_exists.mp hlist
      obtain ⟨l, hh⟩ := Option.isSome_iff_exists.mp hhead
      rw [shelfStep, Shelves.behind_eq hm, Shelves.behind_eq hh]
      exact listSpliceInit_shelved hs hm hh hne

end Operations

/-! ## Walks -/

/-- A loop along a chain visits the chain. -/
theorem listWalk_chain {link : α → Option α} {head x : α} {l : List α}
    (hchain : List.IsChain (fun a b => link a = some b) (x :: l ++ [head]))
    (hl : head ∉ l) {fuel : Nat} (hfuel : l.length < fuel) :
    listWalk link head fuel (link x) = .ok l := by
  induction l generalizing x fuel with
  | nil =>
      obtain ⟨fuel, rfl⟩ := Nat.exists_eq_add_of_lt hfuel
      have hx : link x = some head := by simpa using hchain
      rw [hx, listWalk, if_pos rfl]
      rfl
  | cons c l ih =>
      obtain ⟨fuel, rfl⟩ : ∃ k, fuel = k + 1 := ⟨fuel - 1, by omega⟩
      have hx : link x = some c ∧
          List.IsChain (fun a b => link a = some b) (c :: l ++ [head]) :=
        List.isChain_cons_cons.mp hchain
      have hch : c ≠ head := fun he => hl (he ▸ .head _)
      have hrest := ih hx.2 (fun hin => hl (.tail _ hin))
        (Nat.lt_of_succ_lt_succ hfuel)
      rw [hx.1, listWalk, if_neg hch, hrest]
      rfl

section Walks

variable {H : Links α} {h : α} {l : List α} {fuel : Nat}

theorem listForEach_ring (hr : Ring H h l) (hfuel : l.length < fuel) :
    listForEach h fuel H = .ok l :=
  listWalk_chain ((ring_iff.mp hr).2.imp fun _ _ hj => hj.1)
    (List.nodup_cons.mp hr.1).1 hfuel

theorem listForEachPrev_ring (hr : Ring H h l) (hfuel : l.length < fuel) :
    listForEachPrev h fuel H = .ok l.reverse := by
  have hchain := (ring_iff.mp hr).2.imp
    (S := fun a b => H.prev b = some a) fun _ _ hj => hj.2
  have hback : (h :: l ++ [h]).reverse = h :: l.reverse ++ [h] := by simp
  rw [← List.isChain_reverse, hback] at hchain
  refine listWalk_chain hchain ?_ (by rwa [List.length_reverse])
  rw [List.mem_reverse]
  exact (List.nodup_cons.mp hr.1).1

end Walks

/-! ## Runs -/

/-- The callers of a run know what they have to. -/
def Disciplined : Shelves α → List (ListOp α) → Prop
  | _, [] => True
  | S, op :: ops => ListOk S op ∧ Disciplined (shelfStep S op) ops

instance decidableDisciplined [Fintype α] :
    ∀ (S : Shelves α) (ops : List (ListOp α)), Decidable (Disciplined S ops)
  | _, [] => isTrue trivial
  | S, op :: ops =>
      have := decidableDisciplined (shelfStep S op) ops
      inferInstanceAs
        (Decidable (ListOk S op ∧ Disciplined (shelfStep S op) ops))

theorem listSteps_shelved {H : Links α} {S : Shelves α} (hs : Shelved H S)
    {ops : List (ListOp α)} (hops : Disciplined S ops) :
    ∃ H', ops.foldlM listStep H = .ok H' ∧
      Shelved H' (ops.foldl shelfStep S) := by
  induction ops generalizing H S with
  | nil => exact ⟨H, rfl, hs⟩
  | cons op ops ih =>
      obtain ⟨H₁, hstep, hs₁⟩ := listStep_shelved hs hops.1
      obtain ⟨H', hrun, hs'⟩ := ih hs₁ hops.2
      refine ⟨H', ?_, hs'⟩
      rw [List.foldlM_cons, hstep]
      exact hrun

/-- Memory in which there is no list yet. -/
def noLists : Shelves α := fun _ => none

omit [DecidableEq α] in
theorem shelved_noLists (H : Links α) : Shelved H noLists :=
  ⟨fun hk => absurd hk.symm (Option.some_ne_none _),
    fun hk => absurd hk.symm (Option.some_ne_none _)⟩

/-- What a list looks like from outside. -/
structure Listed (H : Links α) (h : α) (l : List α) : Prop where
  ring : Ring H h l
  empty : listEmpty h H = true ↔ l = []
  forward : ∀ {fuel}, l.length < fuel → listForEach h fuel H = .ok l
  backward : ∀ {fuel}, l.length < fuel →
    listForEachPrev h fuel H = .ok l.reverse

theorem listed_of_shelved {H : Links α} {S : Shelves α} (hs : Shelved H S) {h : α}
    {l : List α} (hh : S h = some l) : Listed H h l where
  ring := hs.ring hh
  empty := listEmpty_iff hs hh
  forward := listForEach_ring (hs.ring hh)
  backward := listForEachPrev_ring (hs.ring hh)

/-- Whatever memory held, a disciplined run goes through, and every head has
its sequence, apart from all others. -/
theorem lists_refine (H : Links α) (ops : List (ListOp α))
    (hops : Disciplined noLists ops) :
    ∃ H', ops.foldlM listStep H = .ok H' ∧
      ∀ h l, ops.foldl shelfStep noLists h = some l → Listed H' h l ∧
        ∀ k m, ops.foldl shelfStep noLists k = some m → k ≠ h →
          List.Disjoint (h :: l) (k :: m) := by
  obtain ⟨H', hrun, hs⟩ := listSteps_shelved (shelved_noLists H) hops
  refine ⟨H', hrun, fun h l hh => ⟨listed_of_shelved hs hh, ?_⟩⟩
  intro k m hk hkh x hx
  exact hs.off_of_mem hh hx hk hkh

/-- Two lists, a node moved between them, and one list spliced into the
other. -/
def shuffled : List (ListOp (Fin 5)) :=
  [.init 0, .init 1, .addTail 2 0, .addTail 3 0, .add 4 0, .moveTail 2 1,
    .spliceInit 0 1, .del 3]

/-- Memory nobody has written to. -/
def noLinks : Links α := ⟨fun _ => none, fun _ => none⟩

theorem lists_refine_shuffled :
    ∃ H', shuffled.foldlM listStep noLinks = .ok H' ∧ Listed H' 0 [] ∧
      Listed H' 1 [4, 2] := by
  obtain ⟨H', hrun, hlists⟩ := lists_refine noLinks shuffled (by decide)
  exact ⟨H', hrun, (hlists 0 [] rfl).1, (hlists 1 [4, 2] rfl).1⟩

/-! ## Iterating over what changes -/

/-- `list_for_each_safe` goes over what is behind the head when it starts, as
long as each turn leaves what is still to come where it is. -/
theorem listForEachSafe_rule {σ : Type} (links : σ → Links α)
    (body : α → σ → Res (σ × Bool)) (head : α)
    (I : List α → List α → σ → Prop) (Q : σ → Prop)
    (hring : ∀ {kept rest s}, I kept rest s →
      Ring (links s) head (kept ++ rest))
    (hbody : ∀ {kept e rest s}, I kept (e :: rest) s →
      ∃ s' stop, body e s = .ok (s', stop) ∧
        if stop then Q s' else ∃ kept, I kept rest s')
    (hend : ∀ {kept s}, I kept [] s → Q s) {l : List α} {s : σ}
    (hs : I [] l s) {fuel : Nat} (hfuel : l.length < fuel) :
    ∃ s', listForEachSafe links body head fuel s = .ok s' ∧ Q s' := by
  have hloop : ∀ (rest kept : List α) (s : σ) (fuel : Nat),
      I kept rest s → rest.length < fuel →
      ∃ pos, (rest ++ [head]).head? = some pos ∧
        ∃ s', safeLoop links body head fuel pos ((links s).next pos) s = .ok s' ∧
          Q s' := by
    intro rest
    induction rest with
    | nil =>
        intro kept s fuel hI hfuel
        obtain ⟨fuel, rfl⟩ := Nat.exists_eq_add_of_lt hfuel
        refine ⟨head, rfl, s, ?_, hend hI⟩
        rw [safeLoop, if_pos rfl]
        rfl
    | cons e rest ih =>
        intro kept s fuel hI hfuel
        obtain ⟨fuel, rfl⟩ : ∃ k, fuel = k + 1 := ⟨fuel - 1, by omega⟩
        have hr := hring hI
        have hne : e ≠ head := by
          rintro rfl
          exact (List.nodup_cons.mp hr.1).1
            (List.mem_append_right _ (.head _))
        obtain ⟨-, n, -, hn, -, hnext⟩ := hr.around
        obtain ⟨s', stop, hrun, hQ⟩ := hbody hI
        refine ⟨e, rfl, ?_⟩
        rw [safeLoop, if_neg hne, hrun, ok_bind, hnext]
        cases stop with
        | true => exact ⟨s', rfl, hQ⟩
        | false =>
            obtain ⟨kept', hI'⟩ := hQ
            obtain ⟨pos, hpos, hgo⟩ :=
              ih kept' s' fuel hI' (Nat.lt_of_succ_lt_succ hfuel)
            obtain rfl : n = pos := Option.some.inj (hn.symm.trans hpos)
            exact hgo
  obtain ⟨pos, hpos, hgo⟩ := hloop l [] s fuel hs hfuel
  obtain ⟨-, n, -, hn, -, hnext⟩ := (hring hs).ends
  obtain rfl : n = pos := Option.some.inj (hn.symm.trans hpos)
  rw [listForEachSafe, hnext]
  exact hgo

/-- An operation that takes a node off the list behind `h`, and puts it, if
anywhere, behind another head of the shelf. -/
def Takes (S : Shelves α) (h e : α) : ListOp α → Prop
  | .del x | .delInit x => x = e
  | .move x d | .moveTail x d => x = e ∧ d ≠ h ∧ (S d).isSome
  | .init _ | .add _ _ | .addTail _ _ | .splice _ _ | .spliceInit _ _ => False

instance decidableTakes (S : Shelves α) (h e : α) :
    ∀ op : ListOp α, Decidable (Takes S h e op)
  | .del x | .delInit x => inferInstanceAs (Decidable (x = e))
  | .move x d | .moveTail x d =>
      inferInstanceAs (Decidable (x = e ∧ d ≠ h ∧ (S d).isSome))
  | .init _ | .add _ _ | .addTail _ _ | .splice _ _ | .spliceInit _ _ =>
      isFalse not_false

/-- A body that notes where it is and does what `act` says about the node. -/
def takingBody (act : α → Option (ListOp α)) (pos : α)
    (s : Links α × List α) : Res ((Links α × List α) × Bool) :=
  match act pos with
  | none => pure ((s.1, s.2 ++ [pos]), false)
  | some op => do
      let H ← listStep s.1 op
      pure ((H, s.2 ++ [pos]), false)

/-- What taking a node does to the list it is on, and that no head goes. -/
theorem shelfStep_takes {S T : Shelves α} {h e : α} {l₁ l₂ : List α}
    {op : ListOp α} (hT : T h = some (l₁ ++ e :: l₂)) (hel₁ : e ∉ l₁)
    (heh : h ≠ e) (heads : ∀ d, (S d).isSome → (T d).isSome ∧ d ≠ e)
    (hop : Takes S h e op) :
    ListOk T op ∧ shelfStep T op h = some (l₁ ++ l₂) ∧
      ∀ d, (S d).isSome → (shelfStep T op d).isSome := by
  have hplaced : T.Placed e :=
    .inl ⟨h, _, hT, List.mem_append_right _ (.head _)⟩
  have hout : T.without e h = some (l₁ ++ l₂) := by
    rw [Shelves.without_of_ne T heh, hT, Option.map_some,
      List.erase_append_right _ hel₁, List.erase_cons_head]
  have hstay : ∀ d, (S d).isSome → (T.without e d).isSome := by
    intro d hd
    obtain ⟨hTd, hde⟩ := heads d hd
    rw [Shelves.without_of_ne T hde, Option.isSome_map]
    exact hTd
  have hput : ∀ {T' : Shelves α} (k : α) (m : List α),
      (∀ d, (S d).isSome → (T' d).isSome) →
      ∀ d, (S d).isSome → (T'.put k m d).isSome := by
    intro T' k m hT' d hd
    by_cases hdk : d = k
    · rw [hdk, Shelves.put_self]
      rfl
    · rw [Shelves.put_of_ne _ _ hdk]
      exact hT' d hd
  cases op with
  | del x =>
      obtain rfl : x = e := hop
      exact ⟨hplaced, hout, hstay⟩
  | delInit x =>
      obtain rfl : x = e := hop
      refine ⟨hplaced, ?_, hput _ _ hstay⟩
      rw [shelfStep, Shelves.put_of_ne _ _ heh]
      exact hout
  | move x d | moveTail x d =>
      obtain ⟨rfl, hdh, hd⟩ := hop
      refine ⟨⟨hplaced, (heads d hd).1, (heads d hd).2⟩, ?_, hput _ _ hstay⟩
      rw [shelfStep, Shelves.put_of_ne _ _ hdh.symm]
      exact hout
  | init | add | addTail | splice | spliceInit => exact hop.elim

/-- In the middle of a loop that takes nodes off the list `l`: what has been
visited, what that has made of the lists, and which nodes are still there. -/
structure Taking (S : Shelves α) (act : α → Option (ListOp α)) (h : α)
    (l kept rest : List α) (s : Links α × List α) : Prop where
  visited : s.2 ++ rest = l
  shelved : Shelved s.1 ((s.2.filterMap act).foldl shelfStep S)
  left : (s.2.filterMap act).foldl shelfStep S h = some (kept ++ rest)
  heads : ∀ d, (S d).isSome → ((s.2.filterMap act).foldl shelfStep S d).isSome

/-- One turn of the loop leaves the node where it is, or takes it away. -/
theorem Taking.turn {H : Links α} {S : Shelves α} (hs : Shelved H S)
    {h e : α} {l kept rest : List α} (hh : S h = some l)
    {act : α → Option (ListOp α)}
    (hact : ∀ e ∈ l, ∀ op ∈ act e, Takes S h e op) {s : Links α × List α}
    (ht : Taking S act h l kept (e :: rest) s) :
    ∃ s' kept', takingBody act e s = .ok (s', false) ∧
      Taking S act h l kept' rest s' := by
  obtain ⟨H₁, visited⟩ := s
  have hel : e ∈ l := by
    rw [← ht.visited]
    exact List.mem_append_right _ (.head _)
  have hvisited : (visited ++ [e]) ++ rest = l := by
    rw [List.append_assoc]
    exact ht.visited
  have hnd := (ht.shelved.ring ht.left).1
  have hek : e ∉ kept := fun hin => List.disjoint_of_nodup_append
    (List.nodup_cons.mp hnd).2 hin (.head _)
  have heh : h ≠ e := fun heq => (List.nodup_cons.mp hnd).1
    (heq ▸ List.mem_append_right _ (.head _))
  unfold takingBody
  cases hop : act e with
  | none =>
      have hsame : (visited ++ [e]).filterMap act = visited.filterMap act := by
        rw [List.filterMap_append, List.filterMap_cons_none hop,
          List.filterMap_nil, List.append_nil]
      refine ⟨_, kept ++ [e], rfl, hvisited, ?_, ?_, ?_⟩
      · exact hsame ▸ ht.shelved
      · rw [hsame, ht.left, List.append_assoc]
        rfl
      · exact hsame ▸ ht.heads
  | some op =>
      have hmore : ((visited ++ [e]).filterMap act).foldl shelfStep S =
          shelfStep ((visited.filterMap act).foldl shelfStep S) op := by
        rw [List.filterMap_append, List.filterMap_cons_some hop,
          List.filterMap_nil, List.foldl_append]
        rfl
      obtain ⟨hok, hleft, heads⟩ := shelfStep_takes ht.left hek heh
        (fun d hd => ⟨ht.heads d hd, fun hde => by
          rw [hde, hs.not_head hh hel] at hd
          cases hd⟩) (hact e hel op hop)
      obtain ⟨H₂, hstep, hs₂⟩ := listStep_shelved ht.shelved hok
      refine ⟨(H₂, visited ++ [e]), kept, ?_, hvisited, ?_, ?_, ?_⟩
      · simp only [hstep, ok_bind, pure_eq_ok]
      · exact hmore ▸ hs₂
      · exact hmore ▸ hleft
      · exact hmore ▸ heads

/-- A loop that takes nodes off the list it is going over visits every one of
them, in order, and does to the lists what its operations do one after the
other. -/
theorem listForEachSafe_takes {H : Links α} {S : Shelves α} (hs : Shelved H S)
    {h : α} {l : List α} (hh : S h = some l) {act : α → Option (ListOp α)}
    (hact : ∀ e ∈ l, ∀ op ∈ act e, Takes S h e op) {fuel : Nat}
    (hfuel : l.length < fuel) :
    ∃ H', listForEachSafe Prod.fst (takingBody act) h fuel (H, []) =
        .ok (H', l) ∧
      Shelved H' ((l.filterMap act).foldl shelfStep S) := by
  obtain ⟨⟨H', visited⟩, hrun, hvisited, hs'⟩ := listForEachSafe_rule
    Prod.fst (takingBody act) h (Taking S act h l)
    (fun s => s.2 = l ∧ Shelved s.1 ((l.filterMap act).foldl shelfStep S))
    (fun ht => ht.shelved.ring ht.left)
    (fun ht => by
      obtain ⟨s', kept, hbody, ht'⟩ := ht.turn hs hh hact
      exact ⟨s', false, hbody, by
        rw [if_neg Bool.false_ne_true]
        exact ⟨kept, ht'⟩⟩)
    (fun {kept s} ht => by
      have hall : s.2 = l := by rw [← ht.visited, List.append_nil]
      exact ⟨hall, hall ▸ ht.shelved⟩)
    (s := (H, [])) ⟨rfl, hs, hh, fun d hd => hd⟩ hfuel
  obtain rfl : visited = l := hvisited
  exact ⟨H', hrun, hs'⟩

/-- One node of a list of three is moved and one is deleted. -/
def sorting : Fin 5 → Option (ListOp (Fin 5))
  | 2 => some (.moveTail 2 1)
  | 4 => some (.del 4)
  | _ => none

theorem listForEachSafe_takes_sorting :
    ∃ (H H' : Links (Fin 5)) (S : Shelves (Fin 5)),
      listForEachSafe Prod.fst (takingBody sorting) 0 4 (H, []) =
        .ok (H', [4, 2, 3]) ∧
      Shelved H' S ∧ S 0 = some [3] ∧ S 1 = some [2] := by
  let ops : List (ListOp (Fin 5)) :=
    [.init 0, .init 1, .addTail 2 0, .addTail 3 0, .add 4 0]
  have hops : Disciplined noLists ops := by decide
  obtain ⟨H, -, hs⟩ := listSteps_shelved (shelved_noLists noLinks) hops
  have hhead : ops.foldl shelfStep noLists 0 = some [4, 2, 3] := rfl
  have hact : ∀ e ∈ [4, 2, 3], ∀ op ∈ sorting e,
      Takes (ops.foldl shelfStep noLists) 0 e op := by decide
  obtain ⟨H', hrun, hs'⟩ := listForEachSafe_takes hs hhead hact
    (Nat.lt_succ_self 3)
  exact ⟨H, H', _, hrun, hs', rfl, rfl⟩

end Aura.Proofs
