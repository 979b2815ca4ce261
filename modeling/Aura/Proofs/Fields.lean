import Mathlib.Tactic.IntervalCases
import Mathlib.Data.Rat.Lemmas
import Aura.Ref.Datahelpers

/-!
# One field, packed and unpacked

What each of the seven packers and unpackers does, stated once for all of
them. A packer has some bytes to write, which depend on the stack slot and
the byte order only; it writes them when they fit and reports their number
negatively when they do not (`Token.pack_eq`). An unpacker given the bytes of
an accepted argument pushes that argument back, whatever follows them
(`Token.unpack_eq`). What it returns as its advance is another matter: the
word unpackers all return 1.
-/

namespace Aura.Proofs

open Aura.Lib Aura.Ref

/-! ## The two byte swaps -/

theorem toNat_append_eq {m n : Nat} (x : BitVec m) (y : BitVec n) :
    (x ++ y).toNat = x.toNat * 2 ^ n + y.toNat := by
  rw [BitVec.toNat_append, ← Nat.shiftLeft_add_eq_or_of_lt y.isLt,
    Nat.shiftLeft_eq]

/-- `__swap16` does not see the promotion: sign bits are masked away. -/
theorem swap16_bytes {value : BitVec 32} {v : BitVec 16}
    (h : ∀ i (_ : i < 16), value[i] = v[i]) :
    (swap16 value).setWidth 16 = v.setWidth 8 ++ (v >>> 8).setWidth 8 := by
  apply BitVec.eq_of_getLsbD_eq
  intro i hi
  rw [swap16, BitVec.getLsbD_append]
  interval_cases i <;> simp [h]

theorem swap16_toNat (value : BitVec 32) {v : BitVec 16}
    (h : ∀ i (_ : i < 16), value[i] = v[i]) :
    ((swap16 value).setWidth 16).toNat = swapBytes 2 v.toNat := by
  rw [swap16_bytes h, toNat_append_eq]
  simp only [swapBytes, leBytes, ofLeBytes, List.reverse_cons,
    List.reverse_nil, List.nil_append, List.cons_append,
    UInt8.toNat_ofNat', BitVec.toNat_setWidth, BitVec.toNat_ushiftRight,
    Nat.shiftRight_eq_div_pow]
  omega

theorem swap32_bytes (v : BitVec 32) :
    swap32 v = v.setWidth 8 ++ (v >>> 8).setWidth 8 ++
      (v >>> 16).setWidth 8 ++ (v >>> 24).setWidth 8 := by
  apply BitVec.eq_of_getLsbD_eq
  intro i hi
  rw [swap32, BitVec.getLsbD_append, BitVec.getLsbD_append,
    BitVec.getLsbD_append]
  interval_cases i <;> simp

theorem swap32_toNat (v : BitVec 32) :
    (swap32 v).toNat = swapBytes 4 v.toNat := by
  rw [swap32_bytes, toNat_append_eq, toNat_append_eq, toNat_append_eq]
  simp only [swapBytes, leBytes, ofLeBytes, List.reverse_cons,
    List.reverse_nil, List.nil_append, List.cons_append,
    UInt8.toNat_ofNat', BitVec.toNat_setWidth, BitVec.toNat_ushiftRight,
    Nat.shiftRight_eq_div_pow, Nat.div_div_eq_div_mul, Nat.reduceMul,
    Nat.reducePow]
  omega

/-! ## What a packer writes -/

/-- Signedness and width of an integer field; strings have neither. -/
def Token.int? : Token → Option (Bool × Nat)
  | .string => none
  | .s8 => some (true, 1)
  | .u8 => some (false, 1)
  | .s16 => some (true, 2)
  | .u16 => some (false, 2)
  | .s32 => some (true, 4)
  | .u32 => some (false, 4)

/-- The bytes of a number in a `k`-byte field. -/
def numberBytes (k : Nat) (host : Endian) (swap : Bool) (q : Rat) :
    List UInt8 :=
  let bytes := host.encode k (truncRat q % 256 ^ k).toNat
  if swap then bytes.reverse else bytes

/-- The bytes a packer writes for stack slot `n`; `none` where it follows a
NULL instead. -/
def Token.bytes (f : Token) (host : Endian) (swap : Bool) (L : LuaState)
    (n : Nat) : Option (List UInt8) :=
  match Token.int? f with
  | none => (luaToString L n).map (· ++ [0])
  | some (_, k) => some (numberBytes k host swap (luaToNumber L n))

@[simp] theorem length_numberBytes (k : Nat) (host : Endian) (swap : Bool)
    (q : Rat) : (numberBytes k host swap q).length = k := by
  cases swap <;> simp [numberBytes]

/-- An `int` and its low byte are the number and its low byte. -/
theorem packByte_eq (host : Endian) (L : LuaState) (n : Nat) (destsz : Int)
    (swap : Bool) :
    packByte L n destsz = packWord 1 host L n destsz swap := by
  have hlow : toByte (cInt (truncRat (luaToNumber L n))) =
      UInt8.ofNat (truncRat (luaToNumber L n) % 256 ^ 1).toNat := by
    unfold toByte cInt
    congr 2
    omega
  unfold packByte packWord
  simp only [hlow]
  cases host <;> cases swap <;> rfl

/-- The one specification of all packers. What they compare and report is
the number of their bytes as an `int`. -/
theorem Token.pack_eq (f : Token) (host : Endian) (L : LuaState) (n : Nat)
    (destsz : Int) (swap : Bool) :
    f.pack host L n destsz swap =
      match Token.bytes f host swap L n with
      | none => .error .nullDeref
      | some bs =>
          if destsz < cInt bs.length then .ok (-cInt bs.length, [])
          else .ok (cInt bs.length, bs) := by
  have hword : ∀ k : Nat, k ≤ 4 → packWord k host L n destsz swap =
      if destsz < cInt (numberBytes k host swap (luaToNumber L n)).length then
        .ok (-cInt (numberBytes k host swap (luaToNumber L n)).length, [])
      else .ok (cInt (numberBytes k host swap (luaToNumber L n)).length,
        numberBytes k host swap (luaToNumber L n)) := by
    intro k hk
    rw [length_numberBytes, cInt_of_mem (by unfold intMax; omega)
      (by unfold intMax; omega)]
    rfl
  have hbyte := (packByte_eq host L n destsz swap).trans (hword 1 (by omega))
  cases f with
  | string =>
      simp only [Token.pack, urpcPackString, Token.bytes, Token.int?]
      cases luaToString L n with
      | none => rfl
      | some s =>
          simp only [Option.map_some, List.length_append, List.length_cons,
            List.length_nil]
          rfl
  | s8 => exact hbyte
  | u8 => exact hbyte
  | s16 => exact hword 2 (by omega)
  | u16 => exact hword 2 (by omega)
  | s32 => exact hword 4 (by omega)
  | u32 => exact hword 4 (by omega)

/-! ## What an unpacker reads -/

/-- A `k`-byte integer, from its unsigned value. -/
def readNumber (signed : Bool) (k m : Nat) : Int :=
  if signed ∧ 256 ^ k ≤ 2 * m then m - 256 ^ k else m

theorem natCast_256_pow (k : Nat) : ((256 ^ k : Nat) : Int) = 256 ^ k := by
  push_cast
  rfl

theorem emod_toNat_lt (k : Nat) (v : Int) : (v % 256 ^ k).toNat < 256 ^ k := by
  rw [← natCast_256_pow]
  have hpos : 0 < 256 ^ k := Nat.pow_pos (by decide)
  generalize 256 ^ k = p at *
  have hlt := Int.emod_lt_of_pos v (Int.ofNat_lt.mpr hpos)
  have hnonneg := Int.emod_nonneg v (show (p : Int) ≠ 0 by omega)
  omega

/-- The bytes of a number that was read are those it was read from. -/
theorem readNumber_toNat {signed : Bool} {k m : Nat} (hm : m < 256 ^ k) :
    (readNumber signed k m % 256 ^ k).toNat = m := by
  unfold readNumber
  rw [← natCast_256_pow]
  generalize 256 ^ k = p at *
  by_cases hneg : signed = true ∧ p ≤ 2 * m
  · rw [if_pos hneg, Int.sub_emod_right, Int.emod_eq_of_lt (by omega) (by omega),
      Int.toNat_natCast]
  · rw [if_neg hneg, Int.emod_eq_of_lt (by omega) (by omega), Int.toNat_natCast]

theorem loadWord_append {k : Nat} (host : Endian) {bs : List UInt8}
    (h : bs.length = k) (rest : List UInt8) :
    loadWord k host (bs ++ rest) = .ok (host.decode bs) := by
  rw [loadWord, if_pos (by rw [List.length_append]; omega),
    List.take_left' h]

theorem toInt_eq_readNumber {w k m : Nat} (v : BitVec w) (hw : 2 ^ w = 256 ^ k)
    (hv : v.toNat = m) : v.toInt = readNumber true k m := by
  rw [BitVec.toInt_eq_toNat_cond, hv, readNumber]
  have hcast : ((2 ^ w : Nat) : Int) = 256 ^ k := by
    rw [hw]
    exact natCast_256_pow k
  rw [hcast]
  by_cases hm : 2 * m < 2 ^ w
  · rw [if_pos hm, if_neg (by rw [← hw]; omega)]
  · rw [if_neg hm, if_pos (by rw [← hw]; exact ⟨rfl, by omega⟩)]

/-- The bytes a word unpacker ends up reading, once it has swapped. -/
theorem swapped_toNat {k w : Nat} (host : Endian) (swap : Bool)
    {bs : List UInt8} (hk : bs.length = k) (hw : 2 ^ w = 256 ^ k)
    {v s : BitVec w} (hv : v = BitVec.ofNat w (host.decode bs))
    (hs : s.toNat = swapBytes k v.toNat) :
    (if swap then s else v).toNat =
      host.decode (if swap then bs.reverse else bs) := by
  have hvn : v.toNat = host.decode bs := by
    rw [hv, BitVec.toNat_ofNat, hw, ← hk]
    exact Nat.mod_eq_of_lt (host.decode_lt bs)
  cases swap with
  | false => exact hvn
  | true =>
      show s.toNat = host.decode bs.reverse
      rw [hs, hvn, ← hk, host.swapBytes_decode]

/-- The one specification of the integer unpackers. Whatever the width, the
advance is 1. -/
theorem Token.unpack_int {t : Token} {signed : Bool} {k : Nat}
    (ht : Token.int? t = some (signed, k)) (host : Endian) (swap : Bool)
    {bs : List UInt8} (hk : bs.length = k) (rest : List UInt8) :
    t.unpack host (bs ++ rest) swap =
      .ok (.number (readNumber signed k
        (host.decode (if swap then bs.reverse else bs))), 1) := by
  have hone : bs.length = 1 → ∃ b, bs = [b] := fun h => List.length_eq_one_iff.mp h
  have hbyte : ∀ b : UInt8, host.decode (if swap then [b].reverse else [b])
      = b.toNat := by
    intro b
    cases swap <;> exact host.decode_singleton b
  cases t <;> cases ht
  case s8 =>
    obtain ⟨b, rfl⟩ := hone hk
    have hint : b.toBitVec.toInt = readNumber true 1 b.toNat :=
      toInt_eq_readNumber b.toBitVec (by norm_num) rfl
    rw [hbyte, ← hint]
    rfl
  case u8 =>
    obtain ⟨b, rfl⟩ := hone hk
    rw [hbyte]
    simp [readNumber, Token.unpack, urpcUnpackU8, loadByte]
  case s16 =>
    have hs := swap16_toNat (v := BitVec.ofNat 16 (host.decode bs))
      ((BitVec.ofNat 16 (host.decode bs)).signExtend 32)
      (fun i hi => by simp [BitVec.getElem_signExtend, hi])
    rw [← toInt_eq_readNumber _ (by norm_num)
      (swapped_toNat host swap hk (by norm_num) rfl hs)]
    simp only [Token.unpack, urpcUnpackS16, loadWord_append host hk]
    rfl
  case u16 =>
    have hs := swap16_toNat (v := BitVec.ofNat 16 (host.decode bs))
      ((BitVec.ofNat 16 (host.decode bs)).setWidth 32)
      (fun i hi => by simp [BitVec.getElem_setWidth, hi])
    simp only [Token.unpack, urpcUnpackU16, loadWord_append host hk, ok_bind,
      swapped_toNat host swap hk (by norm_num) rfl hs]
    simp [readNumber]
  case s32 =>
    have hs := swap32_toNat (BitVec.ofNat 32 (host.decode bs))
    rw [← toInt_eq_readNumber _ (by norm_num)
      (swapped_toNat host swap hk (by norm_num) rfl hs)]
    simp only [Token.unpack, urpcUnpackS32, loadWord_append host hk]
    rfl
  case u32 =>
    have hs := swap32_toNat (BitVec.ofNat 32 (host.decode bs))
    simp only [Token.unpack, urpcUnpackU32, loadWord_append host hk, ok_bind,
      swapped_toNat host swap hk (by norm_num) rfl hs]
    simp [readNumber]

/-! ## Accepted arguments -/

/-- The Lua values a token is for: strings a C string can hold, integers the
field can hold. -/
def Token.accepts (t : Token) (v : LuaValue) : Bool :=
  match Token.int? t, v with
  | none, .string s => decide (0 ∉ s)
  | some (signed, k), .number q =>
      q.den = 1 &&
        if signed then
          decide (-256 ^ k ≤ 2 * q.num) && decide (2 * q.num < 256 ^ k)
        else decide (0 ≤ q.num) && decide (q.num < 256 ^ k)
  | _, _ => false

/-- The bytes of an accepted argument. -/
def Token.encode (t : Token) (host : Endian) (swap : Bool) (v : LuaValue) :
    List UInt8 :=
  match Token.int? t, v with
  | none, .string s => s ++ [0]
  | some (_, k), .number q => numberBytes k host swap q
  | _, _ => []

/-- A string without NULs is all of it a C string. -/
theorem takeWhile_nonzero_append {s : List UInt8} (h : 0 ∉ s)
    (rest : List UInt8) :
    (s ++ rest).takeWhile (fun b => decide (b ≠ 0))
      = s ++ rest.takeWhile (fun b => decide (b ≠ 0)) := by
  apply List.takeWhile_append_of_pos
  intro b hb
  exact decide_eq_true (fun hz => h (hz ▸ hb))

theorem Token.bytes_eq_encode {t : Token} (host : Endian) (swap : Bool)
    {L : LuaState} {n : Nat} (h : Token.accepts t (L.slot n) = true) :
    Token.bytes t host swap L n
      = some (Token.encode t host swap (L.slot n)) := by
  unfold Token.accepts at h
  unfold Token.bytes Token.encode
  split at h
  · next s ht hv =>
      simp only [decide_eq_true_eq] at h
      have hnul : s.takeWhile (fun b => decide (b ≠ 0)) = s := by
        simpa using takeWhile_nonzero_append h []
      simp only [ht, hv, luaToString, hnul, Option.map_some]
  · next signed k q ht hv =>
      simp only [ht, hv, luaToNumber]
  · cases h

theorem cstrAt_append {s : List UInt8} (h : 0 ∉ s) (before rest : List UInt8) :
    cstrAt (before ++ (s ++ [0] ++ rest)) before.length = .ok s := by
  have hrun : (s ++ [0] ++ rest).takeWhile (fun b => decide (b ≠ 0)) = s := by
    rw [List.append_assoc, takeWhile_nonzero_append h]
    simp
  rw [cstrAt, List.drop_left, hrun]
  exact if_pos (by simp)

/-- What a field costs its unpacker: the return value. -/
def Token.advance (t : Token) (v : LuaValue) : Nat :=
  match Token.int? t, v with
  | none, .string s => s.length + 1
  | _, _ => 1

theorem readNumber_emod {signed : Bool} {k : Nat} {z : Int}
    (h : if signed then -256 ^ k ≤ 2 * z ∧ 2 * z < 256 ^ k
      else 0 ≤ z ∧ z < 256 ^ k) :
    readNumber signed k (z % 256 ^ k).toNat = z := by
  have hpos : (0 : Int) < 256 ^ k := by positivity
  have hcast : ((z % 256 ^ k).toNat : Int) = z % 256 ^ k :=
    Int.toNat_of_nonneg (Int.emod_nonneg z (by omega))
  have hle : 256 ^ k ≤ 2 * (z % 256 ^ k).toNat ↔
      (256 : Int) ^ k ≤ 2 * (z % 256 ^ k) := by
    rw [← hcast]; norm_cast
  simp only [readNumber, hle, hcast]
  generalize (256 : Int) ^ k = p at *
  cases signed with
  | false =>
      obtain ⟨hlo, hhi⟩ := h
      simp [Int.emod_eq_of_lt hlo hhi]
  | true =>
      obtain ⟨hlo, hhi⟩ := h
      by_cases hneg : z < 0
      · have hmod : z % p = z + p := by
          rw [← Int.add_emod_right, Int.emod_eq_of_lt (by omega) (by omega)]
        rw [hmod, if_pos ⟨rfl, by omega⟩]
        omega
      · rw [Int.emod_eq_of_lt (by omega) (by omega),
          if_neg (fun hc => absurd hc.2 (by omega))]

/-- Unpacking an accepted argument gives it back, whatever follows. -/
theorem Token.unpack_eq {t : Token} {v : LuaValue}
    (h : Token.accepts t v = true) (host : Endian) (swap : Bool)
    (rest : List UInt8) :
    t.unpack host (Token.encode t host swap v ++ rest) swap
      = .ok (v, Token.advance t v) := by
  unfold Token.accepts at h
  split at h
  · next s ht =>
      simp only [decide_eq_true_eq] at h
      have hstr : t = .string := by cases t <;> simp_all [Token.int?]
      subst hstr
      simp only [Token.unpack, urpcUnpackString, Token.encode, Token.int?,
        show cstrAt (s ++ [0] ++ rest) 0 = .ok s from cstrAt_append h [] rest]
      rfl
  · next signed k q ht =>
      simp only [Bool.and_eq_true, decide_eq_true_eq] at h
      obtain ⟨hden, hrange⟩ := h
      have hq : (q.num : Rat) = q := Rat.coe_int_num_of_den_eq_one hden
      have hb : Token.encode t host swap (.number q)
          = numberBytes k host swap q := by
        simp only [Token.encode, ht]
      have hread : host.decode (if swap then (numberBytes k host swap q).reverse
          else numberBytes k host swap q) = (q.num % 256 ^ k).toNat := by
        have htrunc : truncRat q = q.num := by
          rw [← hq, truncRat_intCast]; simp
        have hlt := emod_toNat_lt k q.num
        cases swap <;>
          simp only [numberBytes, htrunc, if_true, List.reverse_reverse,
            Bool.false_eq_true, if_false, host.decode_encode hlt]
      rw [hb, Token.unpack_int ht host swap (length_numberBytes k host swap q),
        hread, readNumber_emod (by cases signed <;> simpa using hrange), hq]
      simp only [Token.advance, ht]
  · cases h

end Aura.Proofs
