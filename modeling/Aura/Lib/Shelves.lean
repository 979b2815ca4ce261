import Aura.Lib.Surgery
import Mathlib.Data.Fintype.Basic

/-!
# Several rings in one memory

A shelf says which circular lists there are: the nodes behind each head. A
memory is shelved when every head's ring is there and no node is on two of
them. The surgery of `Lib.Surgery` on one list leaves the others alone, so it
is surgery on the shelf (`Shelved.paste`, `Shelved.cut`).
-/

namespace Aura.Lib

variable {α : Type}

/-- The nodes behind each head; `none` is not a head. -/
abbrev Shelves (α : Type) := α → Option (List α)

/-- The sequence behind a head. -/
def Shelves.behind (S : Shelves α) (h : α) : List α := (S h).getD []

theorem Shelves.behind_eq {S : Shelves α} {h : α} {l : List α}
    (hh : S h = some l) : S.behind h = l := by
  rw [Shelves.behind, hh, Option.getD_some]

/-- A node no list has a part in. -/
def Shelves.Off (S : Shelves α) (x : α) : Prop := ∀ h, ∀ l ∈ S h, x ∉ h :: l

/-- A node of some list, or a head with nothing behind it. -/
def Shelves.Placed (S : Shelves α) (x : α) : Prop :=
  (∃ h, ∃ l ∈ S h, x ∈ l) ∨ S x = some []

/-- Every list of the shelf is a ring, and no two of them share a node. -/
structure Shelved (H : Links α) (S : Shelves α) : Prop where
  ring : ∀ {h l}, S h = some l → Ring H h l
  apart : ∀ {h k l m x}, S h = some l → S k = some m → x ∈ h :: l →
    x ∈ k :: m → h = k

theorem Shelved.off_of_mem {H : Links α} {S : Shelves α} (hs : Shelved H S)
    {h x : α} {l : List α} (hh : S h = some l) (hx : x ∈ h :: l) {k : α}
    {m : List α} (hk : S k = some m) (hne : k ≠ h) : x ∉ k :: m :=
  fun hin => hne (hs.apart hk hh hin hx)

/-- A node of one list is the head of none. -/
theorem Shelved.not_head {H : Links α} {S : Shelves α} (hs : Shelved H S)
    {h x : α} {l : List α} (hh : S h = some l) (hx : x ∈ l) : S x = none := by
  cases hk : S x with
  | none => rfl
  | some m =>
      obtain rfl : x = h := hs.apart hk hh (.head _) (.tail _ hx)
      exact absurd hx (List.nodup_cons.mp (hs.ring hh).1).1

variable [DecidableEq α]

namespace Shelves

def put (S : Shelves α) (h : α) (l : List α) : Shelves α :=
  fun x => if x = h then some l else S x

def drop (S : Shelves α) (h : α) : Shelves α :=
  fun x => if x = h then none else S x

/-- Without a node, whatever list it is on. -/
def without (S : Shelves α) (x : α) : Shelves α :=
  fun h => if h = x then none else (S h).map (List.erase · x)

/-- On no list, but perhaps the head of an empty one. -/
def Loose (S : Shelves α) (x : α) : Prop := (S.drop x).Off x ∧ S.behind x = []

section Decidable

variable [Fintype α] {S : Shelves α} {x : α}

instance : Decidable (S.Off x) :=
  inferInstanceAs (Decidable (∀ h, ∀ l ∈ S h, x ∉ h :: l))

instance : Decidable (S.Placed x) :=
  inferInstanceAs (Decidable ((∃ h, ∃ l ∈ S h, x ∈ l) ∨ S x = some []))

instance : Decidable (S.Loose x) :=
  inferInstanceAs (Decidable ((S.drop x).Off x ∧ S.behind x = []))

end Decidable

@[simp] theorem put_self (S : Shelves α) (h : α) (l : List α) :
    S.put h l h = some l := if_pos rfl

@[simp] theorem drop_self (S : Shelves α) (h : α) : S.drop h h = none :=
  if_pos rfl

theorem put_of_ne (S : Shelves α) {h x : α} (l : List α) (hne : x ≠ h) :
    S.put h l x = S x := if_neg hne

theorem drop_of_ne (S : Shelves α) {h x : α} (hne : x ≠ h) :
    S.drop h x = S x := if_neg hne

theorem of_put {S : Shelves α} {h k : α} {l m : List α}
    (hk : S.put h l k = some m) : (k = h ∧ m = l) ∨ (k ≠ h ∧ S k = some m) := by
  by_cases hkh : k = h
  · rw [hkh, put_self] at hk
    exact .inl ⟨hkh, (Option.some.inj hk).symm⟩
  · rw [put_of_ne S l hkh] at hk
    exact .inr ⟨hkh, hk⟩

/-- Putting what is there already changes nothing. -/
theorem put_eq {S : Shelves α} {h : α} {l : List α} (hh : S h = some l) :
    S.put h l = S := by
  funext k
  by_cases hkh : k = h
  · rw [hkh, put_self, hh]
  · rw [put_of_ne S l hkh]

/-- What is put behind one head does not wait for what is put behind another. -/
theorem put_put (S : Shelves α) {h k : α} (hne : h ≠ k) (l m : List α) :
    (S.put k m).put h l = ((S.drop k).put h l).put k m := by
  funext j
  by_cases hjk : j = k
  · rw [hjk, put_of_ne _ l hne.symm, put_self, put_self]
  · rw [put_of_ne _ m hjk]
    by_cases hjh : j = h
    · rw [hjh, put_self, put_self]
    · rw [put_of_ne _ l hjh, put_of_ne _ l hjh, put_of_ne S m hjk,
        drop_of_ne S hjk]

theorem of_drop {S : Shelves α} {h k : α} {m : List α}
    (hk : S.drop h k = some m) : k ≠ h ∧ S k = some m := by
  by_cases hkh : k = h
  · rw [hkh, drop_self] at hk
    cases hk
  · rw [drop_of_ne S hkh] at hk
    exact ⟨hkh, hk⟩

theorem without_self (S : Shelves α) (x : α) : S.without x x = none :=
  if_pos rfl

theorem without_of_ne (S : Shelves α) {h x : α} (hne : h ≠ x) :
    S.without x h = (S h).map (List.erase · x) := if_neg hne

/-- A node that is off the shelf is not missed. -/
theorem without_eq_drop {S : Shelves α} {x : α} (hx : (S.drop x).Off x) :
    S.without x = S.drop x := by
  funext h
  by_cases hne : h = x
  · rw [hne, without_self, drop_self]
  · rw [without_of_ne S hne]
    cases hh : S h with
    | none => exact ((drop_of_ne S hne).trans hh).symm
    | some l =>
        have hdrop := (drop_of_ne S hne).trans hh
        have hnl : x ∉ l := fun hin => hx h l hdrop (.tail _ hin)
        rw [hdrop, Option.map_some, List.erase_of_not_mem hnl]

theorem Off.drop {S : Shelves α} {x : α} (hx : S.Off x) (h : α) :
    (S.drop h).Off x := fun _ _ hk => hx _ _ (of_drop hk).2

theorem Off.put {S : Shelves α} {h x : α} {l : List α} (hx : S.Off x)
    (hl : x ∉ h :: l) : (S.put h l).Off x := by
  intro k m hk
  rcases of_put hk with ⟨rfl, rfl⟩ | ⟨-, hk⟩
  · exact hl
  · exact hx k m hk

end Shelves

section Shelved

variable {H H' : Links α} {S : Shelves α}

theorem Shelved.drop (hs : Shelved H S) (h : α) : Shelved H (S.drop h) where
  ring := fun hk => hs.ring (Shelves.of_drop hk).2
  apart := fun hk hm hx hy =>
    hs.apart (Shelves.of_drop hk).2 (Shelves.of_drop hm).2 hx hy

/-- One list becomes another, and the others stay. -/
theorem Shelved.put (hs : Shelved H S) {h : α} {l : List α}
    (hring : Ring H' h l)
    (hframe : ∀ {k m}, k ≠ h → S k = some m → Ring H' k m)
    (hapart : ∀ {k m}, k ≠ h → S k = some m → ∀ x ∈ h :: l, x ∉ k :: m) :
    Shelved H' (S.put h l) where
  ring := by
    intro k m hk
    rcases Shelves.of_put hk with ⟨rfl, rfl⟩ | ⟨hkh, hk⟩
    · exact hring
    · exact hframe hkh hk
  apart := by
    intro k j m m' x hk hj hx hy
    rcases Shelves.of_put hk with ⟨rfl, rfl⟩ | ⟨hkh, hkS⟩
    · rcases Shelves.of_put hj with ⟨rfl, rfl⟩ | ⟨hjh, hjS⟩
      · rfl
      · exact absurd hy (hapart hjh hjS x hx)
    · rcases Shelves.of_put hj with ⟨rfl, rfl⟩ | ⟨hjh, hjS⟩
      · exact absurd hx (hapart hkh hkS x hy)
      · exact hs.apart hkS hjS hx hy

theorem Shelved.init (hs : Shelved H S) {a : α} (ha : S.Loose a) :
    Shelved (H.init a) (S.put a []) := by
  have hoff : ∀ {k m}, k ≠ a → S k = some m → a ∉ k :: m := by
    intro k m hk hkm
    exact ha.1 k m ((Shelves.drop_of_ne S hk).trans hkm)
  refine hs.put (ring_init H a) ?_ ?_
  · intro k m hk hkm
    exact (hs.ring hkm).init_frame (hoff hk hkm)
  · intro k m hk hkm x hx
    rw [List.mem_singleton.mp hx]
    exact hoff hk hkm

/-- The links of a node off the shelf are nobody's. -/
theorem Shelved.clear (hs : Shelved H S) {a : α} (ha : S.Off a) :
    Shelved (H.clear a) S where
  ring := fun hk => (hs.ring hk).clear_frame (ha _ _ hk)
  apart := hs.apart

theorem Shelved.link_off (hs : Shelved H S) {a : α} (ha : S.Off a) :
    Shelved (H.link a a) S where
  ring := fun hk => (hs.ring hk).link_frame (ha _ _ hk) (ha _ _ hk)
  apart := hs.apart

/-- A head off its own list is off the others too. -/
theorem Shelved.drop_off (hs : Shelved H S) {h : α} {l : List α}
    (hh : S h = some l) : ∀ x ∈ h :: l, (S.drop h).Off x := by
  intro x hx k m hk hin
  obtain ⟨hkh, hk⟩ := Shelves.of_drop hk
  exact hkh (hs.apart hk hh hin hx)

/-- A chain off the shelf between two neighbours of a list. -/
theorem Shelved.paste (hs : Shelved H S) {h p n first last : α}
    {l₁ m l₂ : List α} (hh : S h = some (l₁ ++ l₂))
    (hp : (h :: l₁).getLast? = some p) (hn : (l₂ ++ [h]).head? = some n)
    (hm : List.IsChain H.Joined m) (hnd : m.Nodup)
    (hfirst : m.head? = some first) (hlast : m.getLast? = some last)
    (hoff : ∀ x ∈ m, S.Off x) :
    Shelved ((H.link p first).link last n) (S.put h (l₁ ++ m ++ l₂)) := by
  have hmem : ∀ {x}, x ∈ h :: l₁ ∨ x ∈ l₂ ++ [h] → x ∈ h :: (l₁ ++ l₂) := by
    intro x hx
    simp only [List.mem_cons, List.mem_append, List.not_mem_nil,
      or_false] at hx ⊢
    tauto
  have hpin := hmem (.inl (List.mem_of_getLast? hp))
  have hnin := hmem (.inr (List.mem_of_head? hn))
  refine hs.put ((hs.ring hh).paste hp hn hm hnd hfirst hlast ?_) ?_ ?_
  · exact fun x hx => hoff x hx _ _ hh
  · intro k j hk hkj
    refine ((hs.ring hkj).link_frame ?_ ?_).link_frame ?_ ?_
    · exact hs.off_of_mem hh hpin hkj hk
    · exact hoff first (List.mem_of_head? hfirst) k j hkj
    · exact hoff last (List.mem_of_getLast? hlast) k j hkj
    · exact hs.off_of_mem hh hnin hkj hk
  · intro k j hk hkj x hx
    by_cases hxm : x ∈ m
    · exact hoff x hxm k j hkj
    · refine hs.off_of_mem hh ?_ hkj hk
      simp only [List.mem_cons, List.mem_append] at hx ⊢
      tauto

/-- A stretch cut out of a list is off the shelf. -/
theorem Shelved.cut (hs : Shelved H S) {h p n : α} {l₁ m l₂ : List α}
    (hh : S h = some (l₁ ++ m ++ l₂)) (hp : (h :: l₁).getLast? = some p)
    (hn : (l₂ ++ [h]).head? = some n) :
    Shelved (H.link p n) (S.put h (l₁ ++ l₂)) ∧
      ∀ x ∈ m, (S.put h (l₁ ++ l₂)).Off x := by
  have hmem : ∀ {x}, x ∈ h :: (l₁ ++ l₂) → x ∈ h :: (l₁ ++ m ++ l₂) := by
    intro x hx
    simp only [List.mem_cons, List.mem_append] at hx ⊢
    tauto
  have hpin : p ∈ h :: (l₁ ++ l₂) := by
    have hin := List.mem_of_getLast? hp
    simp only [List.mem_cons, List.mem_append] at hin ⊢
    tauto
  have hnin : n ∈ h :: (l₁ ++ l₂) := by
    have hin := List.mem_of_head? hn
    simp only [List.mem_cons, List.mem_append, List.not_mem_nil,
      or_false] at hin ⊢
    tauto
  refine ⟨hs.put ((hs.ring hh).cut hp hn) ?_ ?_, ?_⟩
  · intro k j hk hkj
    exact (hs.ring hkj).link_frame (hs.off_of_mem hh (hmem hpin) hkj hk)
      (hs.off_of_mem hh (hmem hnin) hkj hk)
  · intro k j hk hkj x hx
    exact hs.off_of_mem hh (hmem hx) hkj hk
  · intro x hx k j hkj
    have hxin : x ∈ h :: (l₁ ++ m ++ l₂) :=
      .tail _ (List.mem_append_left _ (List.mem_append_right _ hx))
    rcases Shelves.of_put hkj with ⟨rfl, rfl⟩ | ⟨hkh, hkj⟩
    · have hnd := (hs.ring hh).1
      rw [← List.cons_append, ← List.cons_append] at hnd
      rw [← List.cons_append]
      intro hin
      rcases List.mem_append.mp hin with hin | hin
      · exact List.disjoint_of_nodup_append (List.nodup_append'.mp hnd).1 hin hx
      · exact List.disjoint_of_nodup_append hnd
          (List.mem_append_right _ hx) hin
    · exact hs.off_of_mem hh hxin hkj hkh

end Shelved

end Aura.Lib
