import Aura.Lib.Run

/-!
# The C underneath

What the translated functions take from the language and its library: the
ways a computation stops having a meaning, the width of an `int`, reads and
writes of a block of bytes that are checked against the block, and the
allocator's answers.

A fault ends a run. An index outside its object, a NULL dereference and a
signed overflow are undefined in C, and a length that no `int` holds is
undefined or up to the implementation wherever it is used, so nothing is
claimed about what follows any of them. Conversions the compiler defines
(`size_t` to `int` and back) are modelled as they are done, modulo the width.
-/

namespace Aura.Ref

open Aura.Lib

/-- Why a computation has no result. -/
inductive Fault
  /-- A NULL pointer is dereferenced. -/
  | nullDeref
  /-- An index lies outside the object it is used on. -/
  | outOfBounds
  /-- A signed overflow, or a length too large for an `int`. -/
  | intOverflow
  /-- A function pointer is called at a type it does not have. -/
  | badCall
  /-- A loop did not end within the fuel it was given. -/
  | outOfFuel
  deriving DecidableEq, Repr

abbrev Res := Except Fault

/-- `INT_MAX`. -/
def intMax : Int := 2147483647

/-- A conversion to `int`: the low 32 bits, read as signed. -/
def cInt (z : Int) : Int := (z + 2147483648) % 4294967296 - 2147483648

/-- A conversion to `size_t`. -/
def sizeT (z : Int) : Nat := (z % 18446744073709551616).toNat

/-- A conversion to `char`, as the byte it stores. -/
def toByte (z : Int) : UInt8 := UInt8.ofNat (z % 256).toNat

/-- The value of a signed `int` expression. -/
def intArith (z : Int) : Res Int :=
  if -intMax - 1 ≤ z ∧ z ≤ intMax then .ok z else .error .intOverflow

theorem cInt_of_mem {z : Int} (hlo : -intMax - 1 ≤ z) (hhi : z ≤ intMax) :
    cInt z = z := by
  unfold cInt intMax at *
  omega

theorem sizeT_natCast {n : Nat} (h : (n : Int) ≤ intMax) : sizeT n = n := by
  unfold sizeT intMax at *
  omega

theorem cInt_le (z : Int) : cInt z ≤ intMax := by
  unfold cInt intMax
  omega

theorem cInt_natCast_le (n : Nat) : cInt n ≤ n := by
  unfold cInt
  omega

theorem intArith_of_mem {z : Int} (hlo : -intMax - 1 ≤ z) (hhi : z ≤ intMax) :
    intArith z = .ok z := if_pos ⟨hlo, hhi⟩

theorem intArith_eq_ok {z w : Int} :
    intArith z = .ok w ↔ w = z ∧ -intMax - 1 ≤ z ∧ z ≤ intMax := by
  unfold intArith
  split
  · next h => simp only [Except.ok.injEq, h, and_self, and_true, eq_comm]
  · next h => simp only [reduceCtorEq, h, and_false]

/-! ## Blocks of bytes -/

/-- Read `data[i]`. -/
def loadByte (data : List UInt8) (i : Nat) : Res UInt8 :=
  match data[i]? with
  | some b => .ok b
  | none => .error .outOfBounds

/-- Write `bs` to `data[off..]`. -/
def storeBytes (data : List UInt8) (off : Nat) (bs : List UInt8) :
    Res (List UInt8) :=
  if off + bs.length ≤ data.length then
    .ok (data.take off ++ bs ++ data.drop (off + bs.length))
  else .error .outOfBounds

/-- The C string at `&data[off]`: everything up to the first NUL, which has to
lie inside the block. -/
def cstrAt (data : List UInt8) (off : Nat) : Res (List UInt8) :=
  let s := (data.drop off).takeWhile (· ≠ 0)
  if off + s.length < data.length then .ok s else .error .outOfBounds

theorem loadByte_of_lt {data : List UInt8} {i : Nat} (h : i < data.length) :
    loadByte data i = .ok data[i] := by
  rw [loadByte, List.getElem?_eq_getElem h]

theorem loadByte_eq_ok {data : List UInt8} {i : Nat} {b : UInt8} :
    loadByte data i = .ok b ↔ data[i]? = some b := by
  unfold loadByte
  cases data[i]? with
  | none => simp
  | some c => simp

theorem storeBytes_eq_ok {data d : List UInt8} {off : Nat} {bs : List UInt8} :
    storeBytes data off bs = .ok d ↔
      off + bs.length ≤ data.length ∧
        d = data.take off ++ bs ++ data.drop (off + bs.length) := by
  unfold storeBytes
  split
  · next h => simp only [Except.ok.injEq, h, true_and, eq_comm]
  · next h => simp only [reduceCtorEq, h, false_and]

theorem storeBytes_length {data d : List UInt8} {off : Nat} {bs : List UInt8}
    (h : storeBytes data off bs = .ok d) : d.length = data.length := by
  obtain ⟨hle, rfl⟩ := storeBytes_eq_ok.mp h
  simp only [List.length_append, List.length_take, List.length_drop]
  omega

/-- What was written, read back together with all that stands before it. -/
theorem storeBytes_take {data d : List UInt8} {off : Nat} {bs : List UInt8}
    (h : storeBytes data off bs = .ok d) :
    d.take (off + bs.length) = data.take off ++ bs := by
  obtain ⟨hle, rfl⟩ := storeBytes_eq_ok.mp h
  rw [List.take_append_of_le_length
    (by simp only [List.length_append, List.length_take]; omega)]
  rw [List.take_of_length_le
    (by simp only [List.length_append, List.length_take]; omega)]

theorem storeBytes_drop {data d : List UInt8} {off : Nat} {bs : List UInt8}
    (h : storeBytes data off bs = .ok d) :
    d.drop (off + bs.length) = data.drop (off + bs.length) := by
  obtain ⟨hle, rfl⟩ := storeBytes_eq_ok.mp h
  exact List.drop_left' (by
    simp only [List.length_append, List.length_take]; omega)

/-- Two adjacent writes are one. -/
theorem storeBytes_append (data : List UInt8) (off : Nat)
    (bs cs : List UInt8) :
    storeBytes data off (bs ++ cs) =
      storeBytes data off bs >>= fun d =>
        storeBytes d (off + bs.length) cs := by
  by_cases hall : off + bs.length + cs.length ≤ data.length
  · have hfst : storeBytes data off bs = .ok _ :=
      storeBytes_eq_ok.mpr ⟨by omega, rfl⟩
    rw [hfst, ok_bind]
    have hlen := storeBytes_length hfst
    have htake := storeBytes_take hfst
    have hdrop := storeBytes_drop hfst
    generalize data.take off ++ bs ++ data.drop (off + bs.length) = d at *
    have hd : d.drop (off + bs.length + cs.length)
        = data.drop (off + bs.length + cs.length) := by
      rw [← List.drop_drop, hdrop, List.drop_drop]
    rw [storeBytes, storeBytes, if_pos (by rw [List.length_append]; omega),
      if_pos (by omega), htake, hd, List.length_append, ← Nat.add_assoc]
    simp only [List.append_assoc]
  · have herr : storeBytes data off (bs ++ cs) = .error .outOfBounds :=
      if_neg (by rw [List.length_append]; omega)
    rw [herr]
    cases hfst : storeBytes data off bs with
    | error e =>
        unfold storeBytes at hfst
        split at hfst
        · cases hfst
        · cases hfst; rfl
    | ok d =>
        have hlen := storeBytes_length hfst
        exact (if_neg (by omega)).symm

/-! ## The allocator -/

/-- An allocator's answer to one request: a refusal, or a block whose fresh
bytes hold whatever they hold. -/
abbrev Grant := Option (Nat → UInt8)

end Aura.Ref
