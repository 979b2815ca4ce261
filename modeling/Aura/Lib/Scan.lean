import Mathlib.Data.List.TakeWhile
import Mathlib.Data.List.Count

/-!
# Scans for a terminator

A scan reads a list from a position up to the first terminator and stops on it,
or, when there is none, right behind the last element. Scans after each other,
each from where the one before it stopped, stay below a position exactly when
there is a terminator for each of them before it (`scans_lt_iff`). What they
read is then settled by the elements before that position
(`runAt_congr`).
-/

namespace Aura.Lib

variable {α : Type} [DecidableEq α] (z : α)

/-- What a scan from `off` passes over. -/
def runAt (l : List α) (off : Nat) : List α := (l.drop off).takeWhile (· ≠ z)

/-- Where it stops. -/
def scanEnd (l : List α) (off : Nat) : Nat := off + (runAt z l off).length

/-- The positions read by `k` scans, the first of them from `off`. -/
def scans (l : List α) : Nat → Nat → List Nat
  | 0, _ => []
  | k + 1, off =>
      List.range' off ((runAt z l off).length + 1) ++
        scans l k (scanEnd z l off + 1)

theorem count_take (l : List α) {m : Nat} (h : m ≤ l.length) :
    (l.take m).count z =
      if (l.takeWhile (· ≠ z)).length < m then
        ((l.take m).drop ((l.takeWhile (· ≠ z)).length + 1)).count z + 1
      else 0 := by
  induction l generalizing m with
  | nil =>
      rw [List.length_nil, Nat.le_zero] at h
      rw [h]
      rfl
  | cons a l ih =>
      cases m with
      | zero => rfl
      | succ m =>
          rw [List.length_cons, Nat.add_le_add_iff_right] at h
          by_cases ha : a = z
          · simp [ha]
          · have hne : (a == z) = false := beq_false_of_ne ha
            rw [List.take_succ_cons, List.count_cons, hne, ih h]
            simp [ha]

variable {z}

theorem count_drop_take {l : List α} {size : Nat} (h : size ≤ l.length)
    (off : Nat) :
    ((l.take size).drop off).count z =
      if scanEnd z l off < size then
        ((l.take size).drop (scanEnd z l off + 1)).count z + 1
      else 0 := by
  have hm : size - off ≤ (l.drop off).length := by
    rw [List.length_drop]
    omega
  rw [List.drop_take, count_take z _ hm, ← List.drop_take, List.drop_drop]
  unfold scanEnd runAt
  by_cases hlt : ((l.drop off).takeWhile (· ≠ z)).length < size - off
  · rw [if_pos hlt, if_pos (by omega), Nat.add_assoc]
  · rw [if_neg hlt]
    by_cases hoff : off + ((l.drop off).takeWhile (· ≠ z)).length < size
    · omega
    · rw [if_neg hoff]

/-- Scans stay below a position when the first of them does, with where it
stops, and then the others. -/
theorem scans_succ_lt_iff {l : List α} {size k off : Nat} :
    (∀ i ∈ scans z l (k + 1) off, i < size) ↔
      scanEnd z l off < size ∧
        ∀ i ∈ scans z l k (scanEnd z l off + 1), i < size := by
  rw [scans, List.forall_mem_append, and_congr_left_iff]
  intro _
  simp only [List.mem_range'_1, scanEnd]
  constructor
  · intro h
    exact h _ (by omega)
  · intro h i hi
    omega

/-- They all do exactly when there is a terminator for each of them. -/
theorem scans_lt_iff {l : List α} {size : Nat} (h : size ≤ l.length)
    (k off : Nat) :
    (∀ i ∈ scans z l k off, i < size) ↔
      k ≤ ((l.take size).drop off).count z := by
  induction k generalizing off with
  | zero => simp [scans]
  | succ k ih =>
      rw [scans_succ_lt_iff, ih, count_drop_take h off]
      by_cases hlt : scanEnd z l off < size
      · rw [if_pos hlt, Nat.add_le_add_iff_right]
        exact and_iff_right hlt
      · rw [if_neg hlt]
        constructor
        · intro hall
          exact absurd hall.1 hlt
        · intro hnone
          omega

/-- A scan that stops before `size` sees nothing from `size` on. -/
theorem runAt_congr {l l' : List α} {size off : Nat}
    (hsame : l'.take size = l.take size) (hlt : scanEnd z l off < size) :
    runAt z l' off = runAt z l off := by
  have hoff : (l'.drop off).take (size - off) = (l.drop off).take (size - off) := by
    rw [← List.drop_take, ← List.drop_take, hsame]
  have hcut : ((l'.drop off).takeWhile (· ≠ z)).take (size - off)
      = (l.drop off).takeWhile (· ≠ z) := by
    rw [List.take_takeWhile, hoff, ← List.take_takeWhile,
      List.take_of_length_le]
    unfold scanEnd runAt at hlt
    omega
  have hlen := congrArg List.length hcut
  rw [List.length_take] at hlen
  unfold scanEnd at hlt
  unfold runAt at hlt ⊢
  rw [← hcut, List.take_of_length_le (by omega)]

theorem scanEnd_congr {l l' : List α} {size off : Nat}
    (hsame : l'.take size = l.take size) (hlt : scanEnd z l off < size) :
    scanEnd z l' off = scanEnd z l off := by
  rw [scanEnd, runAt_congr hsame hlt, scanEnd]

end Aura.Lib
