import Aura.Lib.Ring
import Mathlib.Data.List.Chain

/-!
# Cutting and pasting rings

A ring is changed by making two nodes neighbours (`Links.link`), and every
operation on circular lists is one or two of these. A stretch of a ring is cut
out by joining what stands on its two sides (`Ring.cut`), and a chain from
elsewhere is pasted in by joining its ends to two neighbours (`Ring.paste`).
What a ring has no part in leaves it alone (`Ring.link_frame`).
-/

namespace Aura.Lib

variable {α : Type}

/-! ## Ends of lists without repetitions -/

theorem not_mem_dropLast {l : List α} {a : α} (hnd : l.Nodup)
    (ha : l.getLast? = some a) : a ∉ l.dropLast := by
  intro hin
  rw [← List.dropLast_append_getLast? a ha] at hnd
  exact List.disjoint_of_nodup_append hnd hin (List.mem_singleton_self a)

theorem not_mem_tail {l : List α} {a : α} (hnd : l.Nodup)
    (ha : l.head? = some a) : a ∉ l.tail := by
  rw [← List.cons_head?_tail ha] at hnd
  exact (List.nodup_cons.mp hnd).1

/-! ## Neighbours -/

/-- `b` stands behind `a`, by both links. -/
def Links.Joined (H : Links α) (a b : α) : Prop :=
  H.next a = some b ∧ H.prev b = some a

theorem seg_iff_isChain {H : Links α} {a b : α} {l : List α} :
    Seg H a l b ↔ List.IsChain H.Joined (a :: l ++ [b]) := by
  induction l generalizing a with
  | nil => simp [Seg, Links.Joined]
  | cons c l ih =>
      have hstep : List.IsChain H.Joined (a :: c :: (l ++ [b])) ↔
          H.Joined a c ∧ List.IsChain H.Joined (c :: (l ++ [b])) :=
        List.isChain_cons_cons
      rw [Seg, ih, ← and_assoc]
      exact hstep.symm

theorem ring_iff {H : Links α} {h : α} {l : List α} :
    Ring H h l ↔ (h :: l).Nodup ∧ List.IsChain H.Joined (h :: l ++ [h]) := by
  rw [Ring, seg_iff_isChain]

/-- What stands before and behind a node of a ring. -/
theorem Ring.around {H : Links α} {h e : α} {l₁ l₂ : List α}
    (hr : Ring H h (l₁ ++ e :: l₂)) :
    ∃ p n, (h :: l₁).getLast? = some p ∧ (l₂ ++ [h]).head? = some n ∧
      H.prev e = some p ∧ H.next e = some n := by
  have hchain : List.IsChain H.Joined ((h :: l₁) ++ e :: (l₂ ++ [h])) := by
    have hall := (ring_iff.mp hr).2
    rwa [List.cons_append, List.append_assoc] at hall
  rw [List.isChain_split, List.isChain_append] at hchain
  obtain ⟨⟨-, -, hbefore⟩, hbehind⟩ := hchain
  obtain ⟨p, hp⟩ : ∃ p, (h :: l₁).getLast? = some p :=
    ⟨_, List.getLast?_eq_some_getLast (List.cons_ne_nil h l₁)⟩
  obtain ⟨n, hn⟩ : ∃ n, (l₂ ++ [h]).head? = some n := by
    cases l₂ with
    | nil => exact ⟨h, rfl⟩
    | cons c l₂ => exact ⟨c, rfl⟩
  refine ⟨p, n, hp, hn, (hbefore p hp e rfl).2, ?_⟩
  rw [List.isChain_cons] at hbehind
  exact (hbehind.1 n hn).1

/-- The head's own neighbours. -/
theorem Ring.ends {H : Links α} {h : α} {l : List α} (hr : Ring H h l) :
    ∃ p n, (h :: l).getLast? = some p ∧ (l ++ [h]).head? = some n ∧
      H.prev h = some p ∧ H.next h = some n := by
  have hchain := (ring_iff.mp hr).2
  obtain ⟨p, hp⟩ : ∃ p, (h :: l).getLast? = some p :=
    ⟨_, List.getLast?_eq_some_getLast (List.cons_ne_nil h l)⟩
  obtain ⟨n, hn⟩ : ∃ n, (l ++ [h]).head? = some n := by
    cases l with
    | nil => exact ⟨h, rfl⟩
    | cons c l => exact ⟨c, rfl⟩
  refine ⟨p, n, hp, hn, ((List.isChain_append.mp hchain).2.2 p hp h rfl).2, ?_⟩
  rw [List.cons_append, List.isChain_cons] at hchain
  exact (hchain.1 n hn).1

/-! ## Making neighbours -/

namespace Links

variable [DecidableEq α]

/-- `b` behind `a` from now on. -/
def link (H : Links α) (a b : α) : Links α := (H.setPrev b a).setNext a b

/-- A node without neighbours. -/
def clear (H : Links α) (a : α) : Links α where
  next := fun x => if x = a then none else H.next x
  prev := fun x => if x = a then none else H.prev x

theorem link_next (H : Links α) (a b x : α) :
    (H.link a b).next x = if x = a then some b else H.next x := rfl

theorem link_prev (H : Links α) (a b x : α) :
    (H.link a b).prev x = if x = b then some a else H.prev x := rfl

theorem link_self (H : Links α) (a b : α) : (H.link a b).Joined a b :=
  ⟨if_pos rfl, if_pos rfl⟩

theorem insert_eq_link (H : Links α) (new prev next : α) :
    H.insert new prev next = (H.link new next).link prev new := rfl

theorem link_comm (H : Links α) {a b c d : α} (hac : a ≠ c) (hbd : b ≠ d) :
    (H.link a b).link c d = (H.link c d).link a b := by
  have hnext : ((H.link a b).link c d).next = ((H.link c d).link a b).next := by
    funext x
    simp only [link_next]
    split_ifs with hc ha
    · exact absurd (ha.symm.trans hc) hac
    all_goals rfl
  have hprev : ((H.link a b).link c d).prev = ((H.link c d).link a b).prev := by
    funext x
    simp only [link_prev]
    split_ifs with hd hb
    · exact absurd (hb.symm.trans hd) hbd
    all_goals rfl
  calc (H.link a b).link c d
      = ⟨((H.link a b).link c d).next, ((H.link a b).link c d).prev⟩ := rfl
    _ = ⟨((H.link c d).link a b).next, ((H.link c d).link a b).prev⟩ := by
        rw [hnext, hprev]

theorem Joined.link {H : Links α} {a b c d : α} (h : H.Joined a b)
    (hac : a ≠ c) (hbd : b ≠ d) : (H.link c d).Joined a b := by
  rw [Joined, link_next, link_prev, if_neg hac, if_neg hbd]
  exact h

end Links

variable [DecidableEq α]

/-- A chain no link of which is touched. -/
theorem isChain_link {H : Links α} {a b : α} {l : List α}
    (hl : List.IsChain H.Joined l) (ha : a ∉ l.dropLast) (hb : b ∉ l.tail) :
    List.IsChain (H.link a b).Joined l := by
  induction l with
  | nil => exact .nil
  | cons c l ih =>
      cases l with
      | nil => exact .singleton c
      | cons d l =>
          rw [List.isChain_cons_cons] at hl ⊢
          rw [List.dropLast_cons_cons] at ha
          have hac : c ≠ a := fun he => ha (he ▸ .head _)
          have hbd : d ≠ b := fun he => hb (he ▸ .head _)
          exact ⟨hl.1.link hac hbd, ih hl.2 (fun hin => ha (.tail _ hin))
            fun hin => hb (.tail _ hin)⟩

theorem Ring.link_frame {H : Links α} {h a b : α} {l : List α}
    (hr : Ring H h l) (ha : a ∉ h :: l) (hb : b ∉ h :: l) :
    Ring (H.link a b) h l := by
  apply hr.frame
  · intro x hx
    rw [Links.link_next, if_neg (ne_of_mem_of_not_mem hx ha)]
  · intro x hx
    rw [Links.link_prev, if_neg (ne_of_mem_of_not_mem hx hb)]

theorem Ring.clear_frame {H : Links α} {h a : α} {l : List α}
    (hr : Ring H h l) (ha : a ∉ h :: l) : Ring (H.clear a) h l := by
  apply hr.frame
  all_goals
    intro x hx
    exact if_neg (ne_of_mem_of_not_mem hx ha)

/-- What stands on the two sides of a stretch, made neighbours. -/
theorem Ring.cut {H : Links α} {h p n : α} {l₁ m l₂ : List α}
    (hr : Ring H h (l₁ ++ m ++ l₂)) (hp : (h :: l₁).getLast? = some p)
    (hn : (l₂ ++ [h]).head? = some n) : Ring (H.link p n) h (l₁ ++ l₂) := by
  obtain ⟨hnd, hchain⟩ := ring_iff.mp hr
  have hpmem : p ∈ h :: l₁ := List.mem_of_getLast? hp
  have hnmem : n ∈ l₂ ++ [h] := List.mem_of_head? hn
  rw [← List.cons_append, ← List.cons_append, List.append_assoc,
    List.append_assoc] at hchain
  rw [List.append_assoc, ← List.cons_append] at hnd
  obtain ⟨hnd₁, hnd₂, hdisj⟩ := List.nodup_append'.mp hnd
  have hnd' : (h :: l₁ ++ l₂).Nodup := by
    refine List.nodup_append'.mpr ⟨hnd₁, (List.nodup_append'.mp hnd₂).2.1, ?_⟩
    exact fun x hx hx₂ => hdisj hx (List.mem_append_right _ hx₂)
  obtain ⟨-, hndl₂, hdisj'⟩ := List.nodup_append'.mp hnd'
  have hback : (l₂ ++ [h]).Nodup := by
    refine List.nodup_append'.mpr ⟨hndl₂, List.nodup_singleton h, ?_⟩
    intro x hx hxh
    rw [List.mem_singleton.mp hxh] at hx
    exact hdisj' (.head _) hx
  have hnl₁ : n ∉ l₁ := by
    intro hin
    rcases List.mem_append.mp hnmem with hn₂ | hnh
    · exact hdisj' (.tail _ hin) hn₂
    · rw [List.mem_singleton.mp hnh] at hin
      exact (List.nodup_cons.mp hnd₁).1 hin
  have hpl₂ : p ∉ (l₂ ++ [h]).dropLast := by
    rw [List.dropLast_concat]
    exact fun hin => hdisj' hpmem hin
  refine ring_iff.mpr ⟨hnd', ?_⟩
  rw [← List.cons_append, List.append_assoc]
  refine List.IsChain.append ?_ ?_ ?_
  · exact isChain_link hchain.left_of_append (not_mem_dropLast hnd₁ hp) hnl₁
  · exact isChain_link hchain.right_of_append.right_of_append hpl₂
      (not_mem_tail hback hn)
  · intro x hx y hy
    obtain rfl : p = x := Option.some.inj (hp.symm.trans hx)
    obtain rfl : n = y := Option.some.inj (hn.symm.trans hy)
    exact H.link_self p n

/-- A chain from elsewhere between two neighbours. -/
theorem Ring.paste {H : Links α} {h p n first last : α} {l₁ m l₂ : List α}
    (hr : Ring H h (l₁ ++ l₂)) (hp : (h :: l₁).getLast? = some p)
    (hn : (l₂ ++ [h]).head? = some n) (hm : List.IsChain H.Joined m)
    (hnd : m.Nodup) (hfirst : m.head? = some first)
    (hlast : m.getLast? = some last)
    (hdisj : ∀ x ∈ m, x ∉ h :: (l₁ ++ l₂)) :
    Ring ((H.link p first).link last n) h (l₁ ++ m ++ l₂) := by
  obtain ⟨hnd', hchain⟩ := ring_iff.mp hr
  have hpmem : p ∈ h :: l₁ := List.mem_of_getLast? hp
  have hnmem : n ∈ l₂ ++ [h] := List.mem_of_head? hn
  have hfm : first ∈ m := List.mem_of_head? hfirst
  have hlm : last ∈ m := List.mem_of_getLast? hlast
  rw [← List.cons_append, List.append_assoc] at hchain
  rw [← List.cons_append] at hnd' hdisj
  obtain ⟨hnd₁, hndl₂, hdisj'⟩ := List.nodup_append'.mp hnd'
  have hfront : ∀ x ∈ m, x ∉ h :: l₁ := fun x hx hin =>
    hdisj x hx (List.mem_append_left _ hin)
  have hbehind : ∀ x ∈ m, x ∉ l₂ ++ [h] := by
    intro x hx hin
    rcases List.mem_append.mp hin with hin | hin
    · exact hdisj x hx (List.mem_append_right _ hin)
    · rw [List.mem_singleton.mp hin] at hx
      exact hfront h hx (.head _)
  have hback : (l₂ ++ [h]).Nodup := by
    refine List.nodup_append'.mpr ⟨hndl₂, List.nodup_singleton h, ?_⟩
    intro x hx hxh
    rw [List.mem_singleton.mp hxh] at hx
    exact hdisj' (.head _) hx
  have hpm : p ∉ m := fun hin => hfront p hin hpmem
  have hnm : n ∉ m := fun hin => hbehind n hin hnmem
  have hnl₁ : n ∉ l₁ := by
    intro hin
    rcases List.mem_append.mp hnmem with hn₂ | hnh
    · exact hdisj' (.tail _ hin) hn₂
    · rw [List.mem_singleton.mp hnh] at hin
      exact (List.nodup_cons.mp hnd₁).1 hin
  refine ring_iff.mpr ⟨?_, ?_⟩
  · rw [List.append_assoc, ← List.cons_append]
    refine List.nodup_append'.mpr ⟨hnd₁, ?_, ?_⟩
    · refine List.nodup_append'.mpr ⟨hnd, hndl₂, ?_⟩
      exact fun x hx hin => hdisj x hx (List.mem_append_right _ hin)
    · intro x hx hin
      rcases List.mem_append.mp hin with hin | hin
      · exact hfront x hin hx
      · exact hdisj' hx hin
  · rw [← List.cons_append, ← List.cons_append, List.append_assoc,
      List.append_assoc]
    refine List.IsChain.append ?_ (List.IsChain.append ?_ ?_ ?_) ?_
    · refine isChain_link (isChain_link hchain.left_of_append
        (not_mem_dropLast hnd₁ hp) ?_) ?_ hnl₁
      · exact fun hin => hfront first hfm (.tail _ hin)
      · exact fun hin => hfront last hlm (List.dropLast_subset _ hin)
    · refine isChain_link (isChain_link hm ?_ (not_mem_tail hnd hfirst))
        (not_mem_dropLast hnd hlast) ?_
      · exact fun hin => hpm (List.dropLast_subset _ hin)
      · exact fun hin => hnm (List.mem_of_mem_tail hin)
    · refine isChain_link (isChain_link hchain.right_of_append ?_ ?_) ?_
        (not_mem_tail hback hn)
      · rw [List.dropLast_concat]
        exact fun hin => hdisj' hpmem hin
      · exact fun hin => hbehind first hfm (List.mem_of_mem_tail hin)
      · exact fun hin => hbehind last hlm (List.dropLast_subset _ hin)
    · intro x hx y hy
      obtain rfl : last = x := Option.some.inj (hlast.symm.trans hx)
      obtain rfl : n = y := Option.some.inj (hn.symm.trans hy)
      exact Links.link_self _ last n
    · intro x hx y hy
      obtain rfl : p = x := Option.some.inj (hp.symm.trans hx)
      have hy : m.head? = some y := by
        rw [List.head?_append, hfirst] at hy
        exact hfirst.trans hy
      obtain rfl : first = y := Option.some.inj (hfirst.symm.trans hy)
      refine (H.link_self p first).link ?_ ?_
      · exact fun he => hpm (he ▸ hlm)
      · exact fun he => hnm (he ▸ hfm)

end Aura.Lib
