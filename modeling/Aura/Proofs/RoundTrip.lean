import Aura.Proofs.Argcache
import Aura.Proofs.PackLoop

/-!
# Unpacking what was packed

Each unpacker gives back the argument its packer wrote; whether a whole list
comes back turns on the advances. A string's is right and a byte's is right.
The two- and four-byte unpackers return 1, so whatever follows such a field is
read from the middle of it, and the round trip of a format holds exactly when
no such field is followed by another (`roundTrips_iff`).
-/

namespace Aura.Proofs

open Aura.Lib Aura.Ref

/-! ## Which formats survive -/

/-- A field of two or four bytes. -/
def Token.wide (t : Token) : Bool :=
  match Token.int? t with
  | some (_, k) => decide (1 < k)
  | none => false

/-- Only the last token may be wide. -/
def wideOnlyLast : List Token → Bool
  | [] => true
  | [_] => true
  | t :: u :: ts => !Token.wide t && wideOnlyLast (u :: ts)

/-- Whatever is on the stack below the arguments, whatever the parser's two
locals hold, whatever the fresh block contains: parse the format for both
directions, pack the arguments into a chunk that has room for them, unpack it
behind the reserved bytes, and they are back. -/
def RoundTrips (host : Endian) (swap : Bool) (ts : List Token)
    (vs : List LuaValue) : Prop :=
  ∀ (L : LuaState) (len : Int) (fmt : UInt8) (junk : Nat → UInt8)
    (grants : Nat → Grant) (fuel sz reserved : Nat),
    L.stack.drop 2 = vs → (sz : Int) ≤ intMax →
    reserved + spanAll ts vs ≤ sz → ts.length ≤ fuel →
    ∃ packs unpacks chunk,
      urpcArgcache len fmt (some (formatOf ts)) true = .ok (some packs) ∧
      urpcArgcache len fmt (some (formatOf ts)) false = .ok (some unpacks) ∧
      urpcPackData host (some junk) grants fuel L sz reserved (some packs) swap
        = .ok (some chunk) ∧
      urpcUnpackData host (chunk.data.drop reserved) (some unpacks) swap
        = .ok (vs, ts.length)

/-! ## One field of the unpacking loop -/

section Loop

variable {host : Endian} {swap : Bool}

theorem unpackLoop_accepted {t : Token} {v : LuaValue}
    (h : Token.accepts t v = true) (cache : List CacheFn) (rest : List UInt8)
    (pushed : List LuaValue) (i : Nat) :
    unpackLoop host swap (.unpack t :: cache)
        (Token.encode t host swap v ++ rest) pushed i
      = unpackLoop host swap cache
          ((Token.encode t host swap v ++ rest).drop (Token.advance t v))
          (pushed ++ [v]) (i + 1) := by
  simp only [unpackLoop, CacheFn.callUnpack, Token.unpack_eq h, ok_bind]

theorem Token.advance_eq_span {t : Token} {v : LuaValue}
    (h : Token.accepts t v = true) (hw : Token.wide t = false) :
    Token.advance t v = Token.span t v := by
  unfold Token.accepts at h
  unfold Token.wide at hw
  unfold Token.advance Token.span
  split at h
  · next s ht => simp only [ht]
  · next signed k q ht =>
      have hk : 0 < k := by cases t <;> cases ht <;> omega
      simp only [ht, decide_eq_false_iff_not] at hw ⊢
      omega
  · cases h

/-- Past a narrow field the pointer is where the next one starts. -/
theorem unpackLoop_narrow {t : Token} {v : LuaValue}
    (h : Token.accepts t v = true) (hw : Token.wide t = false)
    (cache : List CacheFn) (rest : List UInt8) (pushed : List LuaValue)
    (i : Nat) :
    unpackLoop host swap (.unpack t :: cache)
        (Token.encode t host swap v ++ rest) pushed i
      = unpackLoop host swap cache rest (pushed ++ [v]) (i + 1) := by
  rw [unpackLoop_accepted h, Token.advance_eq_span h hw,
    ← Token.length_encode h host swap, List.drop_left]

theorem encodeAll_cons (t : Token) (ts : List Token) (v : LuaValue)
    (vs : List LuaValue) :
    encodeAll host swap (t :: ts) (v :: vs)
      = Token.encode t host swap v ++ encodeAll host swap ts vs := rfl

/-- Every field but the last is narrow, so every pointer is right when it is
used. -/
theorem unpackLoop_encodeAll {ts : List Token} {vs : List LuaValue}
    (hm : Matches ts vs) (hw : wideOnlyLast ts = true) (rest : List UInt8)
    (pushed : List LuaValue) (i : Nat) :
    unpackLoop host swap (ts.map .unpack) (encodeAll host swap ts vs ++ rest)
        pushed i = .ok (pushed ++ vs, i + ts.length) := by
  induction hm generalizing pushed i with
  | nil =>
      rw [List.append_nil]
      rfl
  | @cons t v ts vs ht hm ih =>
      rw [encodeAll_cons, List.append_assoc, List.map_cons]
      cases ts with
      | nil =>
          cases hm
          rw [unpackLoop_accepted ht]
          rfl
      | cons u ts =>
          rw [wideOnlyLast, Bool.and_eq_true, Bool.not_eq_true'] at hw
          rw [unpackLoop_narrow ht hw.1, ih hw.2, List.append_assoc,
            Nat.add_assoc, Nat.add_comm 1]
          rfl

theorem unpackLoop_pushed {cache : List CacheFn} {data : List UInt8}
    {pushed out : List LuaValue} {i n : Nat}
    (h : unpackLoop host swap cache data pushed i = .ok (out, n)) :
    pushed <+: out := by
  induction cache generalizing data pushed i with
  | nil =>
      cases h
      exact List.prefix_refl out
  | cons fn cache ih =>
      rw [unpackLoop, bind_eq_ok] at h
      obtain ⟨⟨v, bytes⟩, _, h⟩ := h
      exact (List.prefix_append pushed [v]).trans (ih h)

end Loop

/-! ## A field read from the middle of the one before it -/

/-- A shortest argument. A number has no zero among its bytes. -/
def Token.sample (t : Token) : LuaValue :=
  match t with
  | .string => .string []
  | .s8 | .u8 => .number (1 : Int)
  | .s16 | .u16 => .number (257 : Int)
  | .s32 | .u32 => .number (16843009 : Int)

theorem Token.accepts_sample (t : Token) :
    Token.accepts t (Token.sample t) = true := by
  cases t <;> rfl

theorem Token.head?_encode_sample {t : Token} {signed : Bool} {k : Nat}
    (ht : Token.int? t = some (signed, k)) (host : Endian) (swap : Bool) :
    (Token.encode t host swap (Token.sample t)).head? ≠ some 0 := by
  cases t <;> cases ht <;> cases host <;> cases swap <;> decide

/-- A wide field that holds zero is zeros, at least two of them. -/
theorem Token.encode_zero {t : Token} (hw : Token.wide t = true)
    (host : Endian) (swap : Bool) :
    Token.accepts t (.number (0 : Int)) = true ∧
      ∃ j, Token.encode t host swap (.number (0 : Int))
        = 0 :: 0 :: List.replicate j 0 := by
  cases t <;> cases hw
  case s16 => exact ⟨rfl, 0, by cases host <;> cases swap <;> rfl⟩
  case u16 => exact ⟨rfl, 0, by cases host <;> cases swap <;> rfl⟩
  case s32 => exact ⟨rfl, 2, by cases host <;> cases swap <;> rfl⟩
  case u32 => exact ⟨rfl, 2, by cases host <;> cases swap <;> rfl⟩

theorem Token.encode_sample_wide {t : Token} (hw : Token.wide t = true)
    (host : Endian) (swap : Bool) :
    ∃ bs, Token.encode t host swap (Token.sample t) = 1 :: 1 :: bs := by
  cases t <;> cases hw
  case s16 => exact ⟨[], by cases host <;> cases swap <;> rfl⟩
  case u16 => exact ⟨[], by cases host <;> cases swap <;> rfl⟩
  case s32 => exact ⟨[1, 1], by cases host <;> cases swap <;> rfl⟩
  case u32 => exact ⟨[1, 1], by cases host <;> cases swap <;> rfl⟩

theorem readNumber_inj {signed : Bool} {k m n : Nat} (hm : m < 256 ^ k)
    (hn : n < 256 ^ k) (h : readNumber signed k m = readNumber signed k n) :
    m = n := by
  rw [← readNumber_toNat hm, h, readNumber_toNat hn]

theorem Token.unpack_inj {t : Token} {signed : Bool} {k : Nat}
    (ht : Token.int? t = some (signed, k)) {host : Endian} {swap : Bool}
    {bs cs rest rest' : List UInt8} (hb : bs.length = k) (hc : cs.length = k)
    {v : LuaValue} {a b : Nat}
    (h : t.unpack host (bs ++ rest) swap = .ok (v, a))
    (h' : t.unpack host (cs ++ rest') swap = .ok (v, b)) : bs = cs := by
  have hlen : ∀ ds : List UInt8, ds.length = k →
      (if swap then ds.reverse else ds).length = k := by
    intro ds hds
    cases swap <;> simpa using hds
  have hlt : ∀ ds : List UInt8, ds.length = k →
      host.decode (if swap then ds.reverse else ds) < 256 ^ k := by
    intro ds hds
    have hlt := host.decode_lt (if swap then ds.reverse else ds)
    rwa [hlen ds hds] at hlt
  rw [Token.unpack_int ht host swap hb] at h
  rw [Token.unpack_int ht host swap hc] at h'
  simp only [Except.ok.injEq, Prod.mk.injEq] at h h'
  have hnum : readNumber signed k
        (host.decode (if swap then bs.reverse else bs))
      = readNumber signed k
        (host.decode (if swap then cs.reverse else cs)) := by
    have hv := h.1.trans h'.1.symm
    rw [LuaValue.number.injEq] at hv
    exact_mod_cast hv
  have hdec := readNumber_inj (hlt bs hb) (hlt cs hc) hnum
  have heq : (if swap then bs.reverse else bs)
      = (if swap then cs.reverse else cs) := by
    rw [← host.encode_decode (if swap then bs.reverse else bs), hdec,
      hlen bs hb, ← hlen cs hc, host.encode_decode]
  cases swap with
  | false => exact heq
  | true => exact List.reverse_inj.mp heq

/-- Behind a byte that is not its own and not zero, no string is empty. -/
theorem urpcUnpackString_misaligned {b : UInt8} (hb : b ≠ 0)
    (rest : List UInt8) (n : Nat) :
    urpcUnpackString (b :: rest) ≠ .ok (.string [], n) := by
  intro h
  rw [urpcUnpackString, bind_eq_ok] at h
  obtain ⟨s, hs, hv⟩ := h
  simp only [cstrAt, List.drop_zero, List.takeWhile_cons, ne_eq, hb,
    not_false_eq_true, decide_true, if_true] at hs
  split at hs
  · cases hs
    simp at hv
  · cases hs

/-- Behind a zero that is not its own, no number is its sample. -/
theorem Token.unpack_misaligned {t : Token} {signed : Bool} {k : Nat}
    (ht : Token.int? t = some (signed, k)) (host : Endian) (swap : Bool)
    (zs rest : List UInt8) (b : Nat) :
    t.unpack host (0 :: (zs ++
        (Token.encode t host swap (Token.sample t) ++ rest))) swap
      ≠ .ok (Token.sample t, b) := by
  intro h
  have hok := Token.accepts_sample t
  have hright := Token.unpack_eq hok host swap rest
  have hlen := Token.length_encode hok host swap
  have hspan : Token.span t (Token.sample t) = k := by
    cases t <;> cases ht <;> rfl
  have hpos : 0 < k := by cases t <;> cases ht <;> omega
  rw [hspan] at hlen
  generalize hsrc : 0 :: (zs ++
    (Token.encode t host swap (Token.sample t) ++ rest)) = src at h
  have hk : k ≤ src.length := by
    rw [← hsrc]
    simp only [List.length_cons, List.length_append, hlen]
    omega
  rw [← List.take_append_drop k src] at h
  have heq := Token.unpack_inj ht (by rw [List.length_take]; omega) hlen h
    hright
  apply Token.head?_encode_sample ht host swap
  rw [← heq, ← hsrc]
  cases k with
  | zero => omega
  | succ k => rfl

/-- What a wide field has to hold to spoil the sample of the next field,
which is read one byte behind the wide field's start. -/
theorem Token.spoils {t : Token} (hw : Token.wide t = true) (u : Token)
    (host : Endian) (swap : Bool) :
    ∃ v, Token.accepts t v = true ∧ ∀ rest b,
      u.unpack host ((Token.encode t host swap v ++
        (Token.encode u host swap (Token.sample u) ++ rest)).drop 1) swap
          ≠ .ok (Token.sample u, b) := by
  cases hu : Token.int? u with
  | none =>
      have hstr : u = .string := by cases u <;> cases hu; rfl
      subst hstr
      obtain ⟨bs, hbs⟩ := Token.encode_sample_wide hw host swap
      refine ⟨Token.sample t, Token.accepts_sample t, ?_⟩
      intro rest b
      rw [hbs]
      exact urpcUnpackString_misaligned (by decide) _ b
  | some sk =>
      obtain ⟨ht, j, hz⟩ := Token.encode_zero hw host swap
      refine ⟨.number (0 : Int), ht, ?_⟩
      intro rest b
      rw [hz]
      exact Token.unpack_misaligned hu host swap (List.replicate j 0) rest b

/-- The least number of bytes arguments of a format can take. -/
def leastSpan (ts : List Token) : Nat := spanAll ts (ts.map Token.sample)

theorem Token.span_wide {t : Token} (hw : Token.wide t = true)
    (v : LuaValue) : Token.span t v = Token.span t (Token.sample t) := by
  cases t <;> cases hw <;> rfl

theorem spanAll_cons (t : Token) (ts : List Token) (v : LuaValue)
    (vs : List LuaValue) :
    spanAll (t :: ts) (v :: vs) = Token.span t v + spanAll ts vs := by
  simp only [spanAll, List.zipWith_cons_cons, List.sum_cons]

theorem matches_samples (ts : List Token) :
    Matches ts (ts.map Token.sample) := by
  induction ts with
  | nil => exact .nil
  | cons t ts ih => exact .cons (Token.accepts_sample t) ih

/-- A format with a wide field that another follows has arguments that do not
come back, among the shortest there are. -/
theorem unpackLoop_garbles (host : Endian) (swap : Bool) {ts : List Token}
    (h : wideOnlyLast ts = false) :
    ∃ vs, Matches ts vs ∧ spanAll ts vs = leastSpan ts ∧ ∀ rest pushed i n,
      unpackLoop host swap (ts.map .unpack)
        (encodeAll host swap ts vs ++ rest) pushed i
          ≠ .ok (pushed ++ vs, n) := by
  fun_induction wideOnlyLast ts with
  | case1 => cases h
  | case2 => cases h
  | case3 t u ts ih =>
      cases hw : Token.wide t with
      | false =>
          obtain ⟨vs, hm, hspan, hbad⟩ := ih (by simpa [hw] using h)
          have ht := Token.accepts_sample t
          refine ⟨Token.sample t :: vs, .cons ht hm, ?_, ?_⟩
          · rw [spanAll_cons, hspan]
            exact (spanAll_cons t (u :: ts) _ _).symm
          · intro rest pushed i n hok
            rw [encodeAll_cons, List.append_assoc, List.map_cons,
              unpackLoop_narrow ht hw] at hok
            apply hbad rest (pushed ++ [Token.sample t]) (i + 1) n
            rw [hok, List.append_assoc]
            rfl
      | true =>
          obtain ⟨v, ht, hspoil⟩ := Token.spoils hw u host swap
          refine ⟨v :: (u :: ts).map Token.sample,
            .cons ht (matches_samples (u :: ts)), ?_, ?_⟩
          · rw [spanAll_cons, Token.span_wide hw v]
            exact (spanAll_cons t (u :: ts) _ _).symm
          · intro rest pushed i n hok
            have hadv : Token.advance t v = 1 := by
              cases t <;> cases hw <;> rfl
            rw [List.map_cons (f := Token.sample), encodeAll_cons,
              List.append_assoc, List.map_cons, unpackLoop_accepted ht, hadv,
              encodeAll_cons, List.append_assoc, List.map_cons, unpackLoop,
              bind_eq_ok] at hok
            obtain ⟨⟨w, b⟩, hu, hrun⟩ := hok
            have hw : w = Token.sample u := by
              have hpre := unpackLoop_pushed hrun
              simp only [List.append_assoc, List.prefix_append_right_inj,
                List.cons_append, List.nil_append] at hpre
              simpa using hpre
            subst hw
            exact hspoil _ b hu

/-! ## The round trip -/

theorem drop_data_of_payload {c : AuraChunk} {reserved : Nat}
    {bs : List UInt8} (hle : reserved ≤ c.size)
    (h : c.payload.drop reserved = bs) :
    c.data.drop reserved = bs ++ c.data.drop c.size := by
  have hsplit := List.take_append_drop (c.size - reserved)
    (c.data.drop reserved)
  rw [List.drop_drop, Nat.add_sub_cancel' hle] at hsplit
  rw [← hsplit, ← h, AuraChunk.payload, List.drop_take]

theorem roundTrips_of_unpackLoop {host : Endian} {swap : Bool}
    {ts : List Token} {vs : List LuaValue} (hm : Matches ts vs)
    (h : ∀ rest, unpackLoop host swap (ts.map .unpack)
      (encodeAll host swap ts vs ++ rest) [] 0 = .ok (vs, ts.length)) :
    RoundTrips host swap ts vs := by
  intro L len fmt junk grants fuel sz reserved hL hmax hfit hfuel
  subst hL
  obtain ⟨chunk, hpack, _, hsize, hpay⟩ :=
    urpcPackData_plain host swap junk grants hm hmax hfit hfuel
  refine ⟨_, _, chunk, urpcArgcache_formatOf true ts len fmt,
    urpcArgcache_formatOf false ts len fmt, hpack, ?_⟩
  rw [drop_data_of_payload (by omega) hpay]
  exact h _

/-- A round trip there is room for ends in an unpacking of the encodings. -/
theorem unpackLoop_of_roundTrips {host : Endian} {swap : Bool}
    {ts : List Token} {vs : List LuaValue} (h : RoundTrips host swap ts vs)
    (hm : Matches ts vs) (hmax : (spanAll ts vs : Int) ≤ intMax) :
    ∃ rest, unpackLoop host swap (ts.map .unpack)
      (encodeAll host swap ts vs ++ rest) [] 0 = .ok (vs, ts.length) := by
  let L : LuaState := ⟨.nil :: .nil :: vs, fun _ => [], fun _ => none⟩
  obtain ⟨packs, unpacks, chunk, hp, hu, hpack, hunpack⟩ :=
    h L 0 0 (fun _ => 0) (fun _ => none) ts.length (spanAll ts vs) 0 rfl hmax
      (by omega) (Nat.le_refl _)
  rw [urpcArgcache_formatOf] at hp hu
  cases hp
  cases hu
  obtain ⟨d, hd, _, hsize, hpay⟩ := urpcPackData_plain host swap
    (fun _ => 0) (fun _ => none) (L := L) hm hmax
    (show 0 + spanAll ts vs ≤ spanAll ts vs by omega) (Nat.le_refl _)
  have hsame : chunk = d := by
    have hsome := hpack.symm.trans hd
    rw [Except.ok.injEq, Option.some.injEq] at hsome
    exact hsome
  subst hsame
  rw [drop_data_of_payload (Nat.zero_le _) hpay] at hunpack
  exact ⟨_, hunpack⟩

theorem leastSpan_le {ts : List Token} {vs : List LuaValue}
    (hm : Matches ts vs) : leastSpan ts ≤ spanAll ts vs := by
  induction hm with
  | nil => exact Nat.le_refl _
  | @cons t v ts vs ht hm ih =>
      have hone : Token.span t (Token.sample t) ≤ Token.span t v := by
        revert ht
        cases t <;> cases v <;>
          simp [Token.accepts, Token.span, Token.int?, Token.sample]
      have hcons : leastSpan (t :: ts)
          = Token.span t (Token.sample t) + leastSpan ts :=
        spanAll_cons t ts _ _
      rw [spanAll_cons, hcons]
      exact Nat.add_le_add hone ih

/-- Whatever the byte order and with the bytes swapped or not: the formats
whose arguments always survive packing and unpacking are those without a two-
or four-byte field in front of another field, and those no chunk has room
for. -/
theorem roundTrips_iff (host : Endian) (swap : Bool) (ts : List Token) :
    (∀ vs, Matches ts vs → RoundTrips host swap ts vs)
      ↔ wideOnlyLast ts = true ∨ intMax < leastSpan ts := by
  constructor
  · intro h
    by_contra hneg
    obtain ⟨hw, hmax⟩ := not_or.mp hneg
    obtain ⟨vs, hm, hspan, hbad⟩ := unpackLoop_garbles host swap
      (Bool.eq_false_iff.mpr hw)
    obtain ⟨rest, hrest⟩ := unpackLoop_of_roundTrips (h vs hm) hm
      (by rw [hspan]; omega)
    exact hbad rest [] 0 ts.length hrest
  · intro h vs hm
    rcases h with hw | hmax
    · apply roundTrips_of_unpackLoop hm
      intro rest
      rw [unpackLoop_encodeAll hm hw, Nat.zero_add]
      rfl
    · intro L len fmt junk grants fuel sz reserved hL hsz hfit
      have hleast := leastSpan_le hm
      omega

/-- 513 and 3 packed by `2u;1u;` come back as 513 and 2. -/
theorem roundTrips_2u_1u_fails :
    Matches [.u16, .u8] [.number (513 : Int), .number (3 : Int)] ∧
      ¬ RoundTrips .little false [.u16, .u8]
        [.number (513 : Int), .number (3 : Int)] := by
  have hm : Matches [.u16, .u8] [.number (513 : Int), .number (3 : Int)] :=
    .cons rfl (.cons rfl .nil)
  refine ⟨hm, ?_⟩
  intro h
  obtain ⟨rest, hrest⟩ := unpackLoop_of_roundTrips h hm (by decide)
  have hrun : unpackLoop .little false [.unpack .u16, .unpack .u8]
      (1 :: 2 :: 3 :: rest) [] 0
        = .ok ([.number (513 : Int), .number (2 : Int)], 2) := by
    simp [unpackLoop, CacheFn.callUnpack, Token.unpack, urpcUnpackU16,
      urpcUnpackU8, loadWord, loadByte, Endian.decode, ofLeBytes]
  have hbytes : encodeAll .little false [.u16, .u8]
      [.number (513 : Int), .number (3 : Int)] = [1, 2, 3] := by decide
  rw [hbytes] at hrest
  have hsame := hrun.symm.trans hrest
  simp at hsame

end Aura.Proofs
