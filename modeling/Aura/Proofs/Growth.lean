import Mathlib.Data.List.Forall2
import Aura.Proofs.RoundTrip

/-!
# Growing while packing

A packer that finds too little room is called again after the chunk has grown,
and the second call gets the next argument: the loop counts calls where it
should count fields. From then on every field is one argument ahead, and the
last one reads past the top of the stack, where `lua_tonumber` finds 0 and
`lua_tostring` finds NULL (`packLoop_astray`).

So an initial size does what every larger one does exactly when nothing has to
grow (`packsAlike_iff`).
-/

namespace Aura.Proofs

open Aura.Lib Aura.Ref

/-- Packing with the two initial sizes ends both times, in chunks of one size
with the same bytes behind the reserved ones, whatever the fresh blocks
contain. -/
def PacksAlike (host : Endian) (swap : Bool) (cache : List CacheFn)
    (L : LuaState) (reserved sz₁ sz₂ : Nat) : Prop :=
  ∀ (junk₁ junk₂ : Nat → UInt8) (fresh₁ fresh₂ : Nat → Nat → UInt8),
    ∃ n, ∀ fuel, n ≤ fuel → ∃ c₁ c₂,
      urpcPackData host (some junk₁) (fun i => some (fresh₁ i)) fuel L sz₁
        reserved (some cache) swap = .ok (some c₁) ∧
      urpcPackData host (some junk₂) (fun i => some (fresh₂ i)) fuel L sz₂
        reserved (some cache) swap = .ok (some c₂) ∧
      c₁.size = c₂.size ∧ c₁.payload.drop reserved = c₂.payload.drop reserved

section Astray

variable {host : Endian} {L : LuaState} {swap : Bool}

theorem slot_absent {n : Nat} (h : L.stack.length ≤ n) :
    L.slot (n + 1) = .nil := by
  rw [LuaState.slot, List.getD_eq_getElem?_getD,
    List.getElem?_eq_none h, Option.getD_none]

/-- What is written for an argument that is not there. -/
theorem Token.bytes_absent {t : Token} {n : Nat} {bs : List UInt8}
    (h : L.stack.length ≤ n)
    (hb : Token.bytes t host swap L (n + 1) = some bs) :
    ∃ signed k, Token.int? t = some (signed, k) ∧
      bs = numberBytes k host swap 0 := by
  unfold Token.bytes luaToString luaToNumber at hb
  rw [slot_absent h] at hb
  cases ht : Token.int? t with
  | none => simp [ht] at hb
  | some sk =>
      obtain ⟨signed, k⟩ := sk
      simp only [ht, Option.some.injEq] at hb
      exact ⟨signed, k, rfl, hb.symm⟩

/-- The fields `ts` are going to be packed from arguments that end too early:
either the arguments are one short already, or they are all there but do not
fit. -/
def Astray (L : LuaState) (ts : List Token) (n : Nat) (c : AuraChunk) : Prop :=
  L.stack.length < n + ts.length ∨
    (Matches ts (L.stack.drop n) ∧
      c.alloc < c.size + spanAll ts (L.stack.drop n))

/-- Past a field that was written, still astray. -/
theorem Astray.fits {t : Token} {ts : List Token} {n : Nat} {c : AuraChunk}
    {bs : List UInt8} (h : Astray L (t :: ts) n c)
    (hb : Token.bytes t host swap L (n + 1) = some bs)
    (hfit : c.size + bs.length ≤ c.alloc) :
    Astray L ts (n + 1) (pushBytes c bs) := by
  rcases h with hshort | ⟨hm, hspan⟩
  · left
    rw [List.length_cons] at hshort
    omega
  · right
    generalize hvs : L.stack.drop n = vs at *
    cases hm with
    | cons ht hm =>
        obtain ⟨hslot, hrest⟩ := slot_of_drop hvs
        rw [← hslot] at ht
        rw [Token.bytes_eq_encode host swap ht, Option.some.injEq] at hb
        have hlen := Token.length_encode ht host swap
        rw [hb, hslot] at hlen
        rw [spanAll_cons] at hspan
        rw [hrest, pushBytes_alloc hfit, pushBytes_size]
        exact ⟨hm, by omega⟩

theorem Astray.grows {t : Token} {ts : List Token} {n : Nat}
    {c c' : AuraChunk} (h : Astray L (t :: ts) n c) :
    Astray L (t :: ts) (n + 1) c' := by
  left
  rcases h with hshort | ⟨hm, _⟩
  · omega
  · have hlen := hm.length_eq
    rw [List.length_drop] at hlen
    rw [List.length_cons] at hlen ⊢
    omega

/-- A loop that is astray packs a zero last, or nothing. -/
theorem packLoop_astray {t : Token} {fuel : Nat} :
    ∀ (ts : List Token) {n : Nat} {grants : Nat → Grant} {c d : AuraChunk},
      c.size ≤ c.alloc → (c.alloc : Int) ≤ intMax →
      Astray L (ts ++ [t]) n c →
      packLoop host L swap fuel ((ts ++ [t]).map .pack) (n + 1) grants c
        = .ok d →
      ∃ signed k bs, Token.int? t = some (signed, k) ∧
        d.payload = bs ++ numberBytes k host swap 0 := by
  induction fuel with
  | zero =>
      intro ts n grants c d _ _ _ h
      cases ts <;> cases h
  | succ fuel ih =>
      intro ts n grants c d hle hmax hastray h
      cases ts with
      | nil =>
          obtain ⟨bs, hb, ⟨hfit, hrun⟩ | ⟨hno, c', hsize, hgrow, hmax', hrun⟩⟩
            := packLoop_eq_ok hle hmax h
          · have hlast := hastray.fits hb hfit
            rcases hlast with hshort | ⟨_, hspan⟩
            · rw [List.length_nil] at hshort
              obtain ⟨signed, k, ht, hbs⟩ := Token.bytes_absent
                (by omega) hb
              rw [List.map_nil, packLoop_done] at hrun
              cases hrun
              exact ⟨signed, k, c.payload, ht,
                by rw [pushBytes_payload hfit, hbs]⟩
            · rw [pushBytes_alloc hfit, pushBytes_size] at hspan
              exact absurd hspan (by simp [spanAll]; omega)
          · exact ih [] (by omega) hmax' (Astray.grows hastray) hrun
      | cons u ts =>
          obtain ⟨bs, hb, ⟨hfit, hrun⟩ | ⟨hno, c', hsize, hgrow, hmax', hrun⟩⟩
            := packLoop_eq_ok hle hmax h
          · exact ih ts (by rw [pushBytes_alloc hfit]; exact hfit)
              (by rw [pushBytes_alloc hfit]; exact hmax)
              (hastray.fits hb hfit) hrun
          · exact ih (u :: ts) (by omega) hmax'
              (Astray.grows hastray) hrun

theorem urpcPackData_astray {ts : List Token} {t : Token} {fuel : Nat}
    {junk : Nat → UInt8} {grants : Nat → Grant} {sz reserved : Nat}
    {d : AuraChunk} (hres : reserved ≤ sz) (hsz : (sz : Int) ≤ intMax)
    (hm : Matches (ts ++ [t]) (L.stack.drop 2))
    (hspan : sz < reserved + spanAll (ts ++ [t]) (L.stack.drop 2))
    (h : urpcPackData host (some junk) grants fuel L sz reserved
      (some ((ts ++ [t]).map .pack)) swap = .ok (some d)) :
    ∃ signed k bs, Token.int? t = some (signed, k) ∧
      d.payload = bs ++ numberBytes k host swap 0 := by
  have hcint : cInt sz = sz := cInt_of_mem (by unfold intMax; omega) hsz
  obtain ⟨c, hc, halloc⟩ := auraChunkAllocate_granted junk
    (Int.natCast_nonneg sz)
  rw [Int.toNat_natCast] at halloc
  rw [urpcPackData_of_allocated (hcint ▸ hc)] at h
  cases hrun : packLoop host L swap fuel ((ts ++ [t]).map .pack) stackStart
      grants { c with size := reserved } with
  | error e =>
      rw [hrun] at h
      cases h
  | ok d' =>
      rw [hrun] at h
      cases h
      have hstart : ({ c with size := reserved } : AuraChunk).alloc = sz :=
        halloc
      exact packLoop_astray ts (c := { c with size := reserved })
        (by rw [hstart]; exact hres) (by rw [hstart]; exact hsz)
        (.inr ⟨hm, by rw [hstart]; exact hspan⟩) hrun

/-- In a chunk of the largest size there is no growing: what is packed had its
room. -/
theorem packLoop_full {ts : List Token} {vs : List LuaValue}
    (hm : Matches ts vs) {fuel n : Nat} {grants : Nat → Grant}
    {c d : AuraChunk} (hL : L.stack.drop n = vs) (hle : c.size ≤ c.alloc)
    (hmax : (c.alloc : Int) = intMax)
    (h : packLoop host L swap fuel (ts.map .pack) (n + 1) grants c = .ok d) :
    c.size + spanAll ts vs ≤ c.alloc := by
  induction hm generalizing n fuel c with
  | nil => exact hle
  | @cons t v ts vs ht _ ih =>
      cases fuel with
      | zero => cases h
      | succ fuel =>
          obtain ⟨hslot, hrest⟩ := slot_of_drop hL
          rw [List.map_cons, packLoop_iter] at h
          obtain ⟨s, hs, h⟩ := bind_eq_ok.mp h
          obtain ⟨bs, hb, ⟨hfit, rfl⟩ | ⟨hshort, hgrow, _⟩⟩ :=
            packIter_eq_ok hle (Int.le_of_eq hmax) hs
          · rw [Token.bytes_eq_encode host swap (hslot ▸ ht), hslot,
              Option.some.injEq] at hb
            have hlen := Token.length_encode ht host swap
            rw [hb] at hlen
            have halloc := pushBytes_alloc hfit
            have hroom := ih hrest (by rw [halloc]; exact hfit)
              (by rw [halloc]; exact hmax) h
            rw [halloc, pushBytes_size] at hroom
            rw [spanAll_cons]
            omega
          · omega

theorem urpcPackData_full {ts : List Token} {fuel : Nat} {junk : Nat → UInt8}
    {grants : Nat → Grant} {sz reserved : Nat} {d : AuraChunk}
    (hm : Matches ts (L.stack.drop 2)) (hres : reserved ≤ sz)
    (hsz : (sz : Int) = intMax)
    (h : urpcPackData host (some junk) grants fuel L sz reserved
      (some (ts.map .pack)) swap = .ok (some d)) :
    reserved + spanAll ts (L.stack.drop 2) ≤ sz := by
  have hcint : cInt sz = sz :=
    cInt_of_mem (by unfold intMax; omega) (Int.le_of_eq hsz)
  obtain ⟨c, hc, halloc⟩ := auraChunkAllocate_granted junk
    (Int.natCast_nonneg sz)
  rw [Int.toNat_natCast] at halloc
  rw [urpcPackData_of_allocated (hcint ▸ hc)] at h
  obtain ⟨d', hrun, _⟩ := map_eq_ok.mp h
  have hstart : ({ c with size := reserved } : AuraChunk).alloc = sz := halloc
  rw [← hstart]
  exact packLoop_full hm (n := 2) (c := { c with size := reserved }) rfl
    (by rw [hstart]; exact hres) (by rw [hstart]; exact hsz) hrun

end Astray

/-! ## When growing makes no difference -/

/-- An argument of the same width that is no zero. -/
def orOne : LuaValue → LuaValue
  | .number _ => .number (1 : Int)
  | v => v

/-- The arguments with every number replaced by 1. -/
def withOnes (vs : List LuaValue) : List LuaValue := vs.map orOne

theorem withOnes_matches {ts : List Token} {vs : List LuaValue}
    (hm : Matches ts vs) : Matches ts (withOnes vs) := by
  induction hm with
  | nil => exact .nil
  | @cons t v ts vs ht hm ih =>
      refine .cons ?_ ih
      revert ht
      cases t <;> cases v <;> simp [Token.accepts, Token.int?, orOne]

theorem withOnes_spans {ts : List Token} {vs : List LuaValue}
    (hm : Matches ts vs) :
    List.zipWith Token.span ts (withOnes vs)
      = List.zipWith Token.span ts vs := by
  induction hm with
  | nil => rfl
  | @cons t v ts vs ht hm ih =>
      have hone : ∀ q r : Rat,
          Token.span t (.number q) = Token.span t (.number r) := by
        cases t <;> intros <;> rfl
      cases v with
      | number q => exact congrArg₂ List.cons (hone _ _) ih
      | nil => exact congrArg₂ List.cons rfl ih
      | boolean b => exact congrArg₂ List.cons rfl ih
      | string s => exact congrArg₂ List.cons rfl ih
      | other => exact congrArg₂ List.cons rfl ih

/-- The last of such arguments, encoded, is not a zero. -/
theorem encodeAll_withOnes (host : Endian) (swap : Bool) {ts : List Token}
    {t : Token} {vs : List LuaValue} {signed : Bool} {k : Nat}
    (hm : Matches (ts ++ [t]) vs) (ht : Token.int? t = some (signed, k)) :
    ∃ bs, encodeAll host swap (ts ++ [t]) (withOnes vs)
      = bs ++ numberBytes k host swap (1 : Int) := by
  induction ts generalizing vs with
  | nil =>
      cases hm with
      | @cons _ v _ _ hv hm =>
          cases hm
          cases v with
          | number q =>
              refine ⟨[], ?_⟩
              simp [encodeAll, withOnes, orOne, Token.encode, ht]
          | nil => simp [Token.accepts, ht] at hv
          | boolean b => simp [Token.accepts, ht] at hv
          | string s => simp [Token.accepts, ht] at hv
          | other => simp [Token.accepts, ht] at hv
  | cons u ts ih =>
      cases hm with
      | @cons _ v _ vs _ hm =>
          obtain ⟨bs, hbs⟩ := ih hm
          refine ⟨Token.encode u host swap (orOne v) ++ bs, ?_⟩
          rw [List.append_assoc, ← hbs]
          rfl

theorem numberBytes_one_ne_zero {t : Token} {signed : Bool} {k : Nat}
    (ht : Token.int? t = some (signed, k)) (host : Endian) (swap : Bool) :
    numberBytes k host swap 0 ≠ numberBytes k host swap (1 : Int) := by
  cases t <;> cases ht <;> cases host <;> cases swap <;> decide

section Alike

variable {host : Endian} {swap : Bool} {ts : List Token} {vs : List LuaValue}

/-- Too small a size: the last field comes out of it as zero, and out of one
with room for all as what it is. -/
theorem packsAlike_short {us : List Token} {t : Token}
    (hm : Matches (us ++ [t]) vs) {reserved sz : Nat} (hres : reserved ≤ sz)
    (hmax : ((reserved + spanAll (us ++ [t]) vs : Nat) : Int) ≤ intMax)
    (hshort : sz < reserved + spanAll (us ++ [t]) vs) :
    ¬ PacksAlike host swap ((us ++ [t]).map .pack)
      ⟨.nil :: .nil :: withOnes vs, fun _ => [], fun _ => none⟩ reserved sz
      (reserved + spanAll (us ++ [t]) vs) := by
  intro h
  let L : LuaState :=
    ⟨.nil :: .nil :: withOnes vs, fun _ => [], fun _ => none⟩
  have hspan : spanAll (us ++ [t]) (withOnes vs) = spanAll (us ++ [t]) vs :=
    congrArg List.sum (withOnes_spans hm)
  have hones := withOnes_matches hm
  obtain ⟨n, hn⟩ := h (fun _ => 0) (fun _ => 0) (fun _ _ => 0) (fun _ _ => 0)
  obtain ⟨c₁, c₂, h₁, h₂, hsize, hpay⟩ :=
    hn (max n (us ++ [t]).length) (Nat.le_max_left _ _)
  -- the larger size packs plainly, and ends with a one
  obtain ⟨c, hc, _, hcs, hcp⟩ := urpcPackData_plain host swap
    (fun _ => 0) (fun _ => some fun _ => 0) (L := L) hones hmax
    (show reserved + spanAll (us ++ [t]) (withOnes vs)
      ≤ reserved + spanAll (us ++ [t]) vs by omega)
    (Nat.le_max_right n (us ++ [t]).length)
  have hsame : c₂ = c := by
    have hsome := h₂.symm.trans hc
    rw [Except.ok.injEq, Option.some.injEq] at hsome
    exact hsome
  subst hsame
  -- the smaller one goes astray, and ends with a zero
  obtain ⟨signed, k, bs, ht, hzero⟩ := urpcPackData_astray (L := L) hres
    (by omega) hones (show sz < reserved + spanAll (us ++ [t]) (withOnes vs) by
      omega) h₁
  obtain ⟨cs, hone⟩ := encodeAll_withOnes host swap hm ht
  have hdrop : L.stack.drop 2 = withOnes vs := rfl
  rw [hcp, hdrop, hone, hzero] at hpay
  have hpos : 0 < k := by cases t <;> cases ht <;> omega
  have hlen := congrArg List.length hpay
  simp only [List.length_drop, List.length_append,
    length_numberBytes] at hlen
  rw [List.drop_append_of_le_length (by omega)] at hpay
  exact numberBytes_one_ne_zero ht host swap
    (List.append_inj_right' hpay (by simp))

/-- Initial sizes that agree with every larger one are those with room for all
of the arguments, as far as their widths can tell. -/
theorem packsAlike_iff (host : Endian) (swap : Bool) {len : Int} {fmt : UInt8}
    {format : Option (List UInt8)} {cache : List CacheFn}
    (hcache : urpcArgcache len fmt format true = .ok (some cache))
    {vs : List LuaValue} (hm : Matches (tokensOf cache) vs)
    {reserved sz : Nat} (hres : reserved ≤ sz) (hsz : (sz : Int) ≤ intMax) :
    (∀ (L : LuaState) (sz' : Nat), Matches (tokensOf cache) (L.stack.drop 2) →
      List.zipWith Token.span (tokensOf cache) (L.stack.drop 2)
        = List.zipWith Token.span (tokensOf cache) vs →
      sz ≤ sz' → (sz' : Int) ≤ intMax →
      PacksAlike host swap cache L reserved sz sz')
    ↔ reserved + spanAll (tokensOf cache) vs ≤ sz := by
  have hts := urpcArgcache_pack hcache
  generalize tokensOf cache = ts at *
  subst hts
  constructor
  · intro h
    by_contra hshort
    by_cases hmax : ((reserved + spanAll ts vs : Nat) : Int) ≤ intMax
    · rcases List.eq_nil_or_concat ts with rfl | ⟨us, t, rfl⟩
      · simp [spanAll] at hshort
        omega
      · rw [List.concat_eq_append] at *
        exact packsAlike_short hm hres hmax (by omega)
          (h _ _ (withOnes_matches hm) (withOnes_spans hm) (by omega) hmax)
    · -- no size has room for them
      let L : LuaState := ⟨.nil :: .nil :: vs, fun _ => [], fun _ => none⟩
      obtain ⟨n, hn⟩ := h L 2147483647 hm rfl (by unfold intMax at hsz; omega)
        (by decide) (fun _ => 0) (fun _ => 0) (fun _ _ => 0) (fun _ _ => 0)
      obtain ⟨c₁, c₂, _, h₂, _⟩ := hn n (Nat.le_refl n)
      have hroom : reserved + spanAll ts vs ≤ 2147483647 :=
        urpcPackData_full (L := L) hm (by unfold intMax at hsz; omega) rfl h₂
      unfold intMax at hmax
      omega
  · intro hfit L sz' hL hspans hle hsz' junk₁ junk₂ fresh₁ fresh₂
    have hspan : spanAll ts (L.stack.drop 2) = spanAll ts vs :=
      congrArg List.sum hspans
    refine ⟨ts.length, fun fuel hfuel => ?_⟩
    obtain ⟨c₁, h₁, _, hs₁, hp₁⟩ := urpcPackData_plain host swap junk₁
      (fun i => some (fresh₁ i)) hL hsz (hspan ▸ hfit) hfuel
    obtain ⟨c₂, h₂, _, hs₂, hp₂⟩ := urpcPackData_plain host swap junk₂
      (fun i => some (fresh₂ i)) hL hsz' (hspan ▸ Nat.le_trans hfit hle) hfuel
    exact ⟨c₁, c₂, h₁, h₂, by rw [hs₁, hs₂], by rw [hp₁, hp₂]⟩

end Alike

/-- Two one-byte numbers, 7 and 9, and nothing else on the stack. -/
def stack79 : LuaState :=
  ⟨[.nil, .nil, .number (7 : Int), .number (9 : Int)], fun _ => [],
    fun _ => none⟩

/-- A format that fits a chunk of two bytes: packing into one byte and growing
differs for some arguments of these widths. -/
theorem packsAlike_iff_1u_1u :
    ¬ ∀ (L : LuaState) (sz' : Nat), Matches [.u8, .u8] (L.stack.drop 2) →
      List.zipWith Token.span [.u8, .u8] (L.stack.drop 2)
        = List.zipWith Token.span [.u8, .u8]
            [.number (7 : Int), .number (9 : Int)] →
      1 ≤ sz' → (sz' : Int) ≤ intMax →
      PacksAlike .little false [.pack .u8, .pack .u8] L 0 1 sz' := by
  have hcache : urpcArgcache 0 0 (some (formatOf [.u8, .u8])) true
      = .ok (some [.pack .u8, .pack .u8]) := by decide
  have hm : Matches [.u8, .u8] [.number (7 : Int), .number (9 : Int)] :=
    .cons rfl (.cons rfl .nil)
  have h := packsAlike_iff .little false hcache hm (Nat.zero_le 1) (by decide)
  exact fun hall => absurd (h.mp hall) (by decide)

/-- With one byte to start from, the 9 is lost. -/
theorem packsAlike_1u_1u_fails :
    Matches [.u8, .u8] (stack79.stack.drop 2) ∧
      ¬ PacksAlike .little false [.pack .u8, .pack .u8] stack79 0 1 2 := by
  refine ⟨.cons rfl (.cons rfl .nil), fun h => ?_⟩
  obtain ⟨n, hn⟩ := h (fun _ => 0) (fun _ => 0) (fun _ _ => 0) (fun _ _ => 0)
  obtain ⟨c₁, c₂, h₁, h₂, _, hpay⟩ := hn (n + 4) (by omega)
  have hgrown : urpcPackData .little (some fun _ => 0)
      (fun _ => some fun _ => 0) (n + 4) stack79 1 0
      (some [.pack .u8, .pack .u8]) false = .ok (some ⟨[7, 0, 0], 2⟩) := by
    rfl
  have hplain : urpcPackData .little (some fun _ => 0)
      (fun _ => some fun _ => 0) (n + 4) stack79 2 0
      (some [.pack .u8, .pack .u8]) false = .ok (some ⟨[7, 9], 2⟩) := by
    rfl
  rw [hgrown] at h₁
  rw [hplain] at h₂
  cases h₁
  cases h₂
  exact absurd hpay (by decide)

end Aura.Proofs
