import Mathlib.Algebra.Order.Ring.Nat
import Mathlib.Tactic.Ring

/-!
# Fixed-width byte encodings

A natural number as exactly `k` bytes, in either byte order, and back. The
two directions are each other's inverse at a fixed width: decoding what was
encoded gives the number modulo `256 ^ k`, and encoding what was decoded
gives the bytes. Reversing the bytes is the same thing as changing the
order, which is all a byte swap ever is.
-/

namespace Aura.Lib

/-- A byte order. -/
inductive Endian
  | little
  | big
  deriving DecidableEq, Repr

/-- The `k` low bytes of `v`, least significant first. -/
def leBytes : Nat → Nat → List UInt8
  | 0, _ => []
  | k + 1, v => UInt8.ofNat v :: leBytes k (v / 256)

/-- The number whose little-endian bytes are given. -/
def ofLeBytes : List UInt8 → Nat
  | [] => 0
  | b :: bs => b.toNat + 256 * ofLeBytes bs

/-- `v` laid out in memory as a `k`-byte integer. -/
def Endian.encode (e : Endian) (k v : Nat) : List UInt8 :=
  match e with
  | .little => leBytes k v
  | .big => (leBytes k v).reverse

/-- The unsigned integer a machine of this byte order reads. -/
def Endian.decode (e : Endian) (bs : List UInt8) : Nat :=
  match e with
  | .little => ofLeBytes bs
  | .big => ofLeBytes bs.reverse

@[simp] theorem length_leBytes (k v : Nat) : (leBytes k v).length = k := by
  induction k generalizing v with
  | zero => rfl
  | succ k ih => rw [leBytes, List.length_cons, ih]

@[simp] theorem Endian.length_encode (e : Endian) (k v : Nat) :
    (e.encode k v).length = k := by
  cases e <;> simp [Endian.encode]

theorem ofLeBytes_leBytes (k v : Nat) :
    ofLeBytes (leBytes k v) = v % 256 ^ k := by
  induction k generalizing v with
  | zero => rw [leBytes, ofLeBytes, pow_zero, Nat.mod_one]
  | succ k ih =>
      have hb : (UInt8.ofNat v).toNat = v % 256 := UInt8.toNat_ofNat'
      rw [leBytes, ofLeBytes, ih, hb, pow_succ', Nat.mod_mul]

theorem leBytes_ofLeBytes (bs : List UInt8) :
    leBytes bs.length (ofLeBytes bs) = bs := by
  induction bs with
  | nil => rfl
  | cons b bs ih =>
      have hb : b.toNat < 256 := b.toNat_lt
      have hmod : (b.toNat + 256 * ofLeBytes bs) % 256 = b.toNat := by omega
      have hdiv : (b.toNat + 256 * ofLeBytes bs) / 256 = ofLeBytes bs := by
        omega
      rw [List.length_cons, ofLeBytes, leBytes, hdiv, ih]
      congr 1
      apply UInt8.toNat_inj.mp
      rw [UInt8.toNat_ofNat']
      exact hmod

@[simp] theorem Endian.decode_singleton (e : Endian) (b : UInt8) :
    e.decode [b] = b.toNat := by
  cases e <;> simp [Endian.decode, ofLeBytes]

theorem Endian.decode_encode (e : Endian) {k v : Nat} (h : v < 256 ^ k) :
    e.decode (e.encode k v) = v := by
  cases e <;>
    simp only [Endian.encode, Endian.decode, List.reverse_reverse,
      ofLeBytes_leBytes, Nat.mod_eq_of_lt h]

theorem Endian.encode_decode (e : Endian) (bs : List UInt8) :
    e.encode bs.length (e.decode bs) = bs := by
  cases e with
  | little => exact leBytes_ofLeBytes bs
  | big =>
      rw [Endian.encode, Endian.decode, ← List.length_reverse,
        leBytes_ofLeBytes, List.reverse_reverse]

theorem ofLeBytes_lt (bs : List UInt8) :
    ofLeBytes bs < 256 ^ bs.length := by
  induction bs with
  | nil => simp [ofLeBytes]
  | cons b bs ih =>
      have hb : b.toNat < 256 := b.toNat_lt
      rw [ofLeBytes, List.length_cons, pow_succ']
      omega

theorem Endian.decode_lt (e : Endian) (bs : List UInt8) :
    e.decode bs < 256 ^ bs.length := by
  cases e with
  | little => exact ofLeBytes_lt bs
  | big =>
      have := ofLeBytes_lt bs.reverse
      rwa [List.length_reverse] at this

/-! ## Two orders at once -/

/-- A number laid out the same way in both orders. -/
def OrderFree (k v : Nat) : Prop :=
  Endian.little.encode k v = Endian.big.encode k v

instance (k v : Nat) : Decidable (OrderFree k v) :=
  inferInstanceAs (Decidable (_ = _))

/-- Two machines lay a number out alike when they have the same order, or the
number does not tell them apart. -/
theorem Endian.encode_eq_iff {e f : Endian} {k v : Nat} :
    e.encode k v = f.encode k v ↔ e = f ∨ OrderFree k v := by
  cases e <;> cases f <;> simp [OrderFree, eq_comm]

/-- And that is when one reads what the other wrote. -/
theorem Endian.decode_encode_iff {e f : Endian} {k v : Nat}
    (h : v < 256 ^ k) :
    e.decode (f.encode k v) = v ↔ e = f ∨ OrderFree k v := by
  rw [← Endian.encode_eq_iff]
  constructor
  · intro hread
    have hback := e.encode_decode (f.encode k v)
    rwa [f.length_encode, hread] at hback
  · intro hsame
    rw [← hsame, e.decode_encode h]

/-! ## Swapping -/

/-- A `k`-byte number with its bytes in the opposite order. -/
def swapBytes (k v : Nat) : Nat := ofLeBytes (leBytes k v).reverse

/-- Swapping what was read is reading the bytes backwards. -/
theorem Endian.swapBytes_decode (e : Endian) (bs : List UInt8) :
    swapBytes bs.length (e.decode bs) = e.decode bs.reverse := by
  cases e with
  | little => rw [swapBytes, Endian.decode, leBytes_ofLeBytes]; rfl
  | big =>
      rw [swapBytes, Endian.decode, ← List.length_reverse,
        leBytes_ofLeBytes, List.reverse_reverse, Endian.decode,
        List.reverse_reverse]

end Aura.Lib
