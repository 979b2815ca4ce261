import Aura.Proofs.Fields

/-!
# One swap, twice

The packers reverse the bytes of a union by hand; the unpackers shift and mask
a promoted integer. Both are the same permutation: what one wrote with a swap
the other reads with a swap as it was, sign included, and where only one of
them swaps the number with the reversed bytes comes out (`swaps_agree`). There
is only one such number (`memBytes_inj`).
-/

namespace Aura.Proofs

open Aura.Lib Aura.Ref

/-! ## Numbers and their bytes -/

/-- The numbers a `k`-byte integer can hold. -/
def InField (signed : Bool) (k : Nat) (v : Int) : Prop :=
  if signed then -256 ^ k ≤ 2 * v ∧ 2 * v < 256 ^ k
  else 0 ≤ v ∧ v < 256 ^ k

instance decidableInField (signed : Bool) (k : Nat) (v : Int) :
    Decidable (InField signed k v) :=
  match signed with
  | true => inferInstanceAs (Decidable (_ ∧ _))
  | false => inferInstanceAs (Decidable (_ ∧ _))

/-- A number as a host has it in memory. -/
def memBytes (host : Endian) (k : Nat) (v : Int) : List UInt8 :=
  host.encode k (v % 256 ^ k).toNat

section Numbers

variable {signed : Bool} {k m : Nat} {v w : Int}

theorem inField_readNumber (hm : m < 256 ^ k) :
    InField signed k (readNumber signed k m) := by
  unfold InField readNumber
  rw [← natCast_256_pow]
  generalize 256 ^ k = p at *
  cases signed with
  | false =>
      rw [if_neg Bool.false_ne_true, if_neg (fun h => Bool.false_ne_true h.1)]
      omega
  | true =>
      rw [if_pos rfl]
      by_cases hneg : p ≤ 2 * m
      · rw [if_pos ⟨rfl, hneg⟩]
        omega
      · rw [if_neg (fun h => hneg h.2)]
        omega

theorem length_memBytes (host : Endian) (k : Nat) (v : Int) :
    (memBytes host k v).length = k :=
  host.length_encode k _

/-- Reading a number that is in memory. -/
theorem readNumber_memBytes (host : Endian) (hv : InField signed k v) :
    readNumber signed k (host.decode (memBytes host k v)) = v := by
  rw [memBytes, host.decode_encode (emod_toNat_lt k v)]
  exact readNumber_emod hv

/-- Any `k` bytes are a number. -/
theorem memBytes_readNumber (host : Endian) {bs : List UInt8}
    (hlen : bs.length = k) :
    memBytes host k (readNumber signed k (host.decode bs)) = bs := by
  subst hlen
  rw [memBytes, readNumber_toNat (host.decode_lt bs)]
  exact host.encode_decode bs

/-- And no other number of the type has them. -/
theorem memBytes_inj (host : Endian) (hv : InField signed k v)
    (hw : InField signed k w) (h : memBytes host k v = memBytes host k w) :
    v = w := by
  rw [← readNumber_memBytes host hv, h, readNumber_memBytes host hw]

end Numbers

/-! ## Packing and unpacking -/

/-- What a packer writes for a number, from where an unpacker looks at it. -/
theorem numberBytes_swap (k : Nat) (host : Endian) (p q : Bool) (v : Int) :
    (if q then (numberBytes k host p v).reverse else numberBytes k host p v)
      = if p = q then memBytes host k v else (memBytes host k v).reverse := by
  have hbytes : numberBytes k host p v
      = if p then (memBytes host k v).reverse else memBytes host k v := by
    rw [numberBytes, truncRat_intCast, memBytes]
  rw [hbytes]
  cases p <;> cases q <;> simp

theorem Token.int?_width {t : Token} {signed : Bool} {k : Nat}
    (ht : Token.int? t = some (signed, k)) : 0 < k ∧ k ≤ 4 := by
  cases t <;> cases ht <;> decide

/-- The two swaps are one permutation of the bytes. -/
theorem swaps_agree {t : Token} {signed : Bool} {k : Nat}
    (ht : Token.int? t = some (signed, k)) {v : Int}
    (hv : InField signed k v) (host : Endian) (p q : Bool) {L : LuaState}
    {n : Nat} (hslot : L.slot n = .number v) {destsz : Int}
    (hroom : k ≤ destsz) (rest : List UInt8) :
    ∃ (bytes : List UInt8) (w : Int),
      t.pack host L n destsz p = .ok (k, bytes) ∧
      t.unpack host (bytes ++ rest) q = .ok (.number w, 1) ∧
      if p = q then w = v
      else InField signed k w ∧
        memBytes host k w = (memBytes host k v).reverse := by
  have hwidth := Token.int?_width ht
  have hlen := length_numberBytes k host p v
  have hpack : t.pack host L n destsz p
      = .ok (k, numberBytes k host p v) := by
    have hbytes : Token.bytes t host p L n = some (numberBytes k host p v) := by
      rw [Token.bytes, ht, luaToNumber, hslot]
    rw [Token.pack_eq, hbytes]
    simp only [hlen]
    rw [cInt_of_mem (by unfold intMax; omega) (by unfold intMax; omega),
      if_neg (by omega)]
  refine ⟨_, _, hpack, Token.unpack_int ht host q hlen rest, ?_⟩
  rw [numberBytes_swap]
  by_cases hsame : p = q
  · rw [if_pos hsame, if_pos hsame]
    exact readNumber_memBytes host hv
  · rw [if_neg hsame, if_neg hsame]
    have hrev : (memBytes host k v).reverse.length = k := by
      rw [List.length_reverse, length_memBytes]
    refine ⟨inField_readNumber ?_, memBytes_readNumber host hrev⟩
    have hlt := host.decode_lt (memBytes host k v).reverse
    rwa [hrev] at hlt

/-- A stack with the number -2. -/
def minusTwo : LuaState :=
  ⟨[.number ((-2 : Int) : Rat)], fun _ => [], fun _ => none⟩

theorem swaps_agree_minusTwo :
    ∃ (bytes : List UInt8) (w : Int),
      Token.pack .s16 .little minusTwo 1 2 true = .ok (2, bytes) ∧
      Token.unpack .s16 .little (bytes ++ [7]) false = .ok (.number w, 1) ∧
      if true = false then w = -2
      else InField true 2 w ∧
        memBytes .little 2 w = (memBytes .little 2 (-2)).reverse :=
  swaps_agree (t := .s16) (v := -2) rfl (by decide) .little true false rfl
    (by decide) [7]

end Aura.Proofs
