import Mathlib.Data.List.Nodup

/-!
# Circular doubly linked lists

Two links for every node, and what it means that a head and the nodes behind it
form a ring: every `next` is undone by a `prev`, and the last `next` is the
head. A node inserted at the tail of a ring it is not on extends the ring
(`Ring.insertTail`) and leaves alone the rings it touches no node of
(`Ring.insert_frame`). From a node of a ring both links lead to nodes of the
ring (`Ring.next_mem`), so a ring that shares a node with another is that other
ring.
-/

namespace Aura.Lib

variable {α : Type}

/-- The links of every node; `none` is a null link. -/
structure Links (α : Type) where
  next : α → Option α
  prev : α → Option α

namespace Links

variable [DecidableEq α]

def setNext (H : Links α) (a b : α) : Links α :=
  { H with next := fun x => if x = a then some b else H.next x }

def setPrev (H : Links α) (a b : α) : Links α :=
  { H with prev := fun x => if x = a then some b else H.prev x }

/-- A head of its own. -/
def init (H : Links α) (a : α) : Links α := (H.setNext a a).setPrev a a

/-- `new` between `prev` and `next`, link by link. -/
def insert (H : Links α) (new prev next : α) : Links α :=
  (((H.setPrev next new).setNext new next).setPrev new prev).setNext prev new

@[simp] theorem setNext_next (H : Links α) (a b x : α) :
    (H.setNext a b).next x = if x = a then some b else H.next x := rfl

@[simp] theorem setNext_prev (H : Links α) (a b : α) :
    (H.setNext a b).prev = H.prev := rfl

@[simp] theorem setPrev_prev (H : Links α) (a b x : α) :
    (H.setPrev a b).prev x = if x = a then some b else H.prev x := rfl

@[simp] theorem setPrev_next (H : Links α) (a b : α) :
    (H.setPrev a b).next = H.next := rfl

theorem insert_next (H : Links α) (new prev next x : α) :
    (H.insert new prev next).next x =
      if x = prev then some new else if x = new then some next
      else H.next x := rfl

theorem insert_prev (H : Links α) (new prev next x : α) :
    (H.insert new prev next).prev x =
      if x = new then some prev else if x = next then some new
      else H.prev x := rfl

end Links

/-! ## Segments -/

/-- From `a` over the nodes of a list to `b`, with both links at every step. -/
def Seg (H : Links α) : α → List α → α → Prop
  | a, [], b => H.next a = some b ∧ H.prev b = some a
  | a, c :: l, b => H.next a = some c ∧ H.prev c = some a ∧ Seg H c l b

theorem seg_append {H : Links α} {a b c : α} {l : List α} :
    Seg H a (l ++ [c]) b ↔
      Seg H a l c ∧ H.next c = some b ∧ H.prev b = some c := by
  induction l generalizing a with
  | nil => simp only [List.nil_append, Seg, and_assoc]
  | cons d l ih => simp only [List.cons_append, Seg, ih, and_assoc]

theorem seg_congr {H H' : Links α} {a b : α} {l : List α}
    (hnext : ∀ x ∈ a :: l, H'.next x = H.next x)
    (hprev : ∀ x ∈ l ++ [b], H'.prev x = H.prev x) :
    Seg H' a l b ↔ Seg H a l b := by
  induction l generalizing a with
  | nil =>
      rw [Seg, Seg, hnext a (.head _), hprev b (List.mem_singleton_self b)]
  | cons c l ih =>
      rw [Seg, Seg, hnext a (.head _), hprev c (.head _),
        ih (fun x hx => hnext x (.tail _ hx)) (fun x hx => hprev x (.tail _ hx))]

/-- Both links lead on. -/
theorem Seg.next_mem {H : Links α} {a b x : α} {l : List α}
    (h : Seg H a l b) (hx : x ∈ a :: l) :
    ∃ y ∈ l ++ [b], H.next x = some y ∧ H.prev y = some x := by
  induction l generalizing a with
  | nil =>
      rw [List.mem_singleton] at hx
      rw [hx]
      exact ⟨b, List.mem_singleton_self b, h⟩
  | cons c l ih =>
      obtain ⟨hnext, hprev, hrest⟩ := h
      rcases List.mem_cons.mp hx with rfl | hx
      · exact ⟨c, .head _, hnext, hprev⟩
      · obtain ⟨y, hy, hlinks⟩ := ih hrest hx
        exact ⟨y, .tail _ hy, hlinks⟩

/-! ## Rings -/

/-- The head `h`, with the nodes `l` behind it. -/
def Ring (H : Links α) (h : α) (l : List α) : Prop :=
  (h :: l).Nodup ∧ Seg H h l h

theorem Ring.next_mem {H : Links α} {h x y : α} {l : List α}
    (hr : Ring H h l) (hx : x ∈ h :: l) (hy : H.next x = some y) :
    y ∈ h :: l ∧ H.prev y = some x := by
  obtain ⟨z, hz, hnext, hprev⟩ := hr.2.next_mem hx
  rw [hnext] at hy
  cases hy
  refine ⟨?_, hprev⟩
  rcases List.mem_append.mp hz with hz | hz
  · exact .tail _ hz
  · rw [List.mem_singleton] at hz
    rw [hz]
    exact .head _

/-- Only the links of its nodes make a ring. -/
theorem Ring.frame {H H' : Links α} {h : α} {l : List α} (hr : Ring H h l)
    (hnext : ∀ x ∈ h :: l, H'.next x = H.next x)
    (hprev : ∀ x ∈ h :: l, H'.prev x = H.prev x) : Ring H' h l := by
  refine ⟨hr.1, (seg_congr hnext fun x hx => hprev x ?_).mpr hr.2⟩
  rcases List.mem_append.mp hx with hx | hx
  · exact .tail _ hx
  · rw [List.mem_singleton] at hx
    rw [hx]
    exact .head _

theorem Ring.eq_nil {H : Links α} {h : α} {l : List α} (hr : Ring H h l)
    (halone : Ring H h []) : l = [] := by
  cases l with
  | nil => rfl
  | cons c l =>
      have hc : c = h := Option.some.inj (hr.2.1.symm.trans halone.2.1)
      exact absurd (hc ▸ .head _) (List.nodup_cons.mp hr.1).1

/-! ### Making and extending one -/

variable [DecidableEq α]

theorem ring_init (H : Links α) (a : α) : Ring (H.init a) a [] := by
  refine ⟨List.nodup_singleton a, ?_⟩
  simp [Seg, Links.init]

theorem Ring.init_frame {H : Links α} {h a : α} {l : List α}
    (hr : Ring H h l) (ha : a ∉ h :: l) : Ring (H.init a) h l := by
  refine hr.frame ?_ ?_ <;> intro x hx <;>
    simp [Links.init, ne_of_mem_of_not_mem hx ha]

theorem Ring.insert_frame {H : Links α} {h new prev next : α} {l : List α}
    (hr : Ring H h l) (hnew : new ∉ h :: l) (hprev : prev ∉ h :: l)
    (hnext : next ∉ h :: l) : Ring (H.insert new prev next) h l := by
  apply hr.frame
  · intro x hx
    rw [Links.insert_next, if_neg (ne_of_mem_of_not_mem hx hprev),
      if_neg (ne_of_mem_of_not_mem hx hnew)]
  · intro x hx
    rw [Links.insert_prev, if_neg (ne_of_mem_of_not_mem hx hnew),
      if_neg (ne_of_mem_of_not_mem hx hnext)]

/-- A node from elsewhere, inserted in front of the head. -/
theorem Ring.insertTail {H : Links α} {h new prev : α} {l : List α}
    (hr : Ring H h l) (hnew : new ∉ h :: l) (hp : H.prev h = some prev) :
    Ring (H.insert new prev h) h (l ++ [new]) := by
  have hne : h ≠ new := fun he => hnew (he ▸ .head _)
  have hnodup : (h :: (l ++ [new])).Nodup := by
    rw [← List.cons_append]
    refine List.nodup_append.mpr ⟨hr.1, List.nodup_singleton new, ?_⟩
    rintro x hx y hy rfl
    exact hnew (List.mem_singleton.mp hy ▸ hx)
  have hfirst : (H.insert new prev h).next prev = some new :=
    if_pos rfl
  have hback : (H.insert new prev h).prev new = some prev := if_pos rfl
  have hhead : (H.insert new prev h).prev h = some new := by
    rw [Links.insert_prev, if_neg hne, if_pos rfl]
  have hlast : new ≠ prev → (H.insert new prev h).next new = some h := by
    intro hnp
    rw [Links.insert_next, if_neg hnp, if_pos rfl]
  refine ⟨hnodup, seg_append.mpr ?_⟩
  rcases List.eq_nil_or_concat' l with rfl | ⟨l, c, rfl⟩
  · obtain rfl : h = prev := Option.some.inj (hr.2.2.symm.trans hp)
    exact ⟨⟨hfirst, hback⟩, hlast (Ne.symm hne), hhead⟩
  · obtain ⟨hseg, _, htail⟩ := seg_append.mp hr.2
    obtain rfl : c = prev := Option.some.inj (htail.symm.trans hp)
    have hboth := hr.1
    rw [← List.cons_append] at hboth
    have hc : c ∉ h :: l := fun hin =>
      List.disjoint_of_nodup_append hboth hin (List.mem_singleton_self c)
    have hnc : new ≠ c := fun he => hnew (by rw [he]; simp)
    refine ⟨seg_append.mpr ⟨(seg_congr ?_ ?_).mpr hseg, hfirst, hback⟩,
      hlast hnc, hhead⟩
    · intro x hx
      have hxnew : x ∉ [new] := fun hin => hnew (by
        rw [← List.mem_singleton.mp hin, ← List.cons_append]
        exact List.mem_append_left _ hx)
      rw [Links.insert_next, if_neg (ne_of_mem_of_not_mem hx hc),
        if_neg fun he => hxnew (List.mem_singleton.mpr he)]
    · intro x hx
      have hxnew : x ≠ new := fun he => hnew (he ▸ .tail _ hx)
      have hxh : x ≠ h := fun he => (List.nodup_cons.mp hr.1).1 (he ▸ hx)
      rw [Links.insert_prev, if_neg hxnew, if_neg hxh]

end Aura.Lib
