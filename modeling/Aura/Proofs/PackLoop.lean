import Aura.Proofs.Fields

/-!
# The packing loop

An iteration of `urpc_pack_data` does one of five things with the field it is
at: it writes it (`packIter_fits`), grows the chunk and tries again with the
next argument (`packIter_grows`), or runs into a NULL string, an `int` that
overflows or a copy past the block. These are the only lemmas that unfold it.

When everything fits from the start, the first case is the only one and the
loop appends the encodings of its arguments (`packLoop_plain`).
-/

namespace Aura.Proofs

open Aura.Lib Aura.Ref

/-! ## Appending to a chunk -/

/-- A chunk with `bs` written behind its payload. -/
def pushBytes (c : AuraChunk) (bs : List UInt8) : AuraChunk :=
  { data := c.data.take c.size ++ bs ++ c.data.drop (c.size + bs.length)
    size := c.size + bs.length }

@[simp] theorem pushBytes_size (c : AuraChunk) (bs : List UInt8) :
    (pushBytes c bs).size = c.size + bs.length := rfl

theorem pushBytes_alloc {c : AuraChunk} {bs : List UInt8}
    (h : c.size + bs.length ≤ c.alloc) : (pushBytes c bs).alloc = c.alloc := by
  unfold AuraChunk.alloc at *
  simp only [pushBytes, List.length_append, List.length_take,
    List.length_drop]
  omega

theorem pushBytes_payload {c : AuraChunk} {bs : List UInt8}
    (h : c.size + bs.length ≤ c.alloc) :
    (pushBytes c bs).payload = c.payload ++ bs := by
  have hlen : (c.data.take c.size ++ bs).length = c.size + bs.length := by
    unfold AuraChunk.alloc at h
    rw [List.length_append, List.length_take]
    omega
  exact List.take_left' hlen

theorem payload_length {c : AuraChunk} (h : c.size ≤ c.alloc) :
    c.payload.length = c.size := by
  unfold AuraChunk.alloc at h
  rw [AuraChunk.payload, List.length_take]
  omega

@[simp] theorem packed_nil (c : AuraChunk) : c.packed [] = .ok c := rfl

theorem packed_of_fits {c : AuraChunk} {bs : List UInt8}
    (h : c.size + bs.length ≤ c.alloc) :
    c.packed bs = .ok { pushBytes c bs with size := c.size } := by
  cases bs with
  | nil =>
      simp only [packed_nil, pushBytes, List.append_nil, List.length_nil,
        Nat.add_zero, List.take_append_drop]
  | cons b bs =>
      exact AuraChunk.store_eq_ok.mpr ⟨storeBytes_eq_ok.mpr ⟨h, rfl⟩, rfl⟩

theorem packed_of_not_fits {c : AuraChunk} {bs : List UInt8}
    (hle : c.size ≤ c.alloc) (h : c.alloc < c.size + bs.length) :
    c.packed bs = .error .outOfBounds := by
  have hne : bs ≠ [] := by
    rintro rfl
    simp only [List.length_nil] at h
    omega
  rw [AuraChunk.packed, if_neg hne, AuraChunk.store, storeBytes,
    if_neg (by unfold AuraChunk.alloc at h; omega)]
  rfl

/-! ## One iteration -/

/-- The loop as it passes `retry`: the fields to come, the next argument, the
allocator's answers to come and the chunk. -/
structure PackState where
  cache : List CacheFn
  luaArg : Nat
  grants : Nat → Grant
  chunk : AuraChunk

/-- From one `retry` to the next, with `fn` the field at hand. -/
def packIter (host : Endian) (L : LuaState) (swap : Bool) (fn : CacheFn)
    (cache : List CacheFn) (luaArg : Nat) (grants : Nat → Grant)
    (chunk : AuraChunk) : Res PackState := do
  let (n, bytes) ← fn.callPack host L luaArg (chunk.alloc - chunk.size) swap
  let chunk ← chunk.packed bytes
  if n < 0 then
    let extra ← intArith (-n * 2)
    let (_, chunk) ← auraChunkRealloc (grants 0) chunk extra
    pure ⟨fn :: cache, luaArg + 1, fun i => grants (i + 1), chunk⟩
  else
    pure ⟨cache, luaArg + 1, grants,
      { chunk with size := chunk.size + n.toNat }⟩

section Iteration

variable {host : Endian} {L : LuaState} {swap : Bool} {t : Token}
  {cache : List CacheFn} {n fuel : Nat} {grants : Nat → Grant}
  {c : AuraChunk} {bs : List UInt8}

theorem packLoop_done :
    packLoop host L swap fuel [] n grants c = .ok c := by
  cases fuel <;> rfl

/-- The loop is its iterations. -/
theorem packLoop_iter (fuel : Nat) (fn : CacheFn) :
    packLoop host L swap (fuel + 1) (fn :: cache) n grants c
      = packIter host L swap fn cache n grants c >>= fun s =>
          packLoop host L swap fuel s.cache s.luaArg s.grants s.chunk := by
  simp only [packLoop, packIter]
  cases fn.callPack host L n (c.alloc - c.size) swap with
  | error e => rfl
  | ok r =>
      simp only [ok_bind]
      cases c.packed r.2 with
      | error e => rfl
      | ok d =>
          simp only [ok_bind]
          by_cases hneg : r.1 < 0
          · rw [if_pos hneg, if_pos hneg]
            cases intArith (-r.1 * 2) with
            | error e => rfl
            | ok extra =>
                simp only [ok_bind]
                cases auraChunkRealloc (grants 0) d extra <;> rfl
          · rw [if_neg hneg, if_neg hneg]
            rfl

theorem packIter_null (hb : Token.bytes t host swap L n = none) :
    packIter host L swap (.pack t) cache n grants c
      = .error .nullDeref := by
  simp only [packIter, CacheFn.callPack, Token.pack_eq, hb]
  rfl

/-- The field fits, and is one an `int` can count. -/
theorem packIter_fits (hb : Token.bytes t host swap L n = some bs)
    (hmax : (c.alloc : Int) ≤ intMax) (hfit : c.size + bs.length ≤ c.alloc) :
    packIter host L swap (.pack t) cache n grants c
      = .ok ⟨cache, n + 1, grants, pushBytes c bs⟩ := by
  have hw : cInt bs.length = bs.length :=
    cInt_of_mem (by unfold intMax; omega) (by omega)
  have hpack : t.pack host L n (c.alloc - c.size) swap
      = .ok ((bs.length : Int), bs) := by
    simp only [Token.pack_eq, hb, hw]
    exact if_neg (by omega)
  simp only [packIter, CacheFn.callPack, hpack, ok_bind, packed_of_fits hfit]
  rw [if_neg (by omega)]
  rfl

theorem packIter_overruns (hb : Token.bytes t host swap L n = some bs)
    (hle : c.size ≤ c.alloc) (hint : c.size + cInt bs.length ≤ c.alloc)
    (hover : c.alloc < c.size + bs.length) :
    packIter host L swap (.pack t) cache n grants c
      = .error .outOfBounds := by
  have hpack : t.pack host L n (c.alloc - c.size) swap
      = .ok (cInt bs.length, bs) := by
    simp only [Token.pack_eq, hb]
    exact if_neg (by omega)
  simp only [packIter, CacheFn.callPack, hpack, ok_bind,
    packed_of_not_fits hle hover, error_bind]

theorem packIter_short (cache : List CacheFn) (grants : Nat → Grant)
    (hb : Token.bytes t host swap L n = some bs)
    (hle : c.size ≤ c.alloc) (hshort : c.alloc < c.size + cInt bs.length) :
    packIter host L swap (.pack t) cache n grants c = (do
      let extra ← intArith (cInt bs.length * 2)
      let (_, c) ← auraChunkRealloc (grants 0) c extra
      pure ⟨.pack t :: cache, n + 1, fun i => grants (i + 1), c⟩) := by
  have hpack : t.pack host L n (c.alloc - c.size) swap
      = .ok (-cInt bs.length, []) := by
    simp only [Token.pack_eq, hb]
    exact if_pos (by omega)
  generalize cInt bs.length = w at *
  have hneg : -w < 0 := by omega
  rw [packIter, CacheFn.callPack, hpack, ok_bind]
  show (c.packed [] >>= _) = _
  rw [packed_nil, ok_bind, if_pos hneg, Int.neg_neg]

/-- The new block, if there is one, keeps what was in the old. -/
theorem packIter_grows (grants : Nat → Grant)
    (hb : Token.bytes t host swap L n = some bs)
    (hle : c.size ≤ c.alloc) (hshort : c.alloc < c.size + cInt bs.length)
    (hmax : c.alloc + 2 * cInt bs.length ≤ intMax) :
    ∃ d : AuraChunk, d.size = c.size ∧
      (d.alloc : Int) = c.alloc +
        (if (grants 0).isSome then 2 * cInt bs.length else 0) ∧
      d.data.take c.alloc = c.data ∧
      ∀ cache, packIter host L swap (.pack t) cache n grants c
        = .ok ⟨.pack t :: cache, n + 1, fun i => grants (i + 1), d⟩ := by
  have hrun := fun cache => packIter_short cache grants hb hle hshort
  rw [intArith_of_mem (by unfold intMax; omega) (by omega)] at hrun
  generalize cInt bs.length = w at *
  cases hg : grants 0 with
  | none =>
      refine ⟨c, rfl, by simp, List.take_length, fun cache => ?_⟩
      rw [hrun, ok_bind, hg, auraChunkRealloc,
        intArith_of_mem (by unfold intMax; omega) (by omega)]
      rfl
  | some junk =>
      obtain ⟨d, hd, hsize, halloc, hkeep⟩ := auraChunkRealloc_granted junk
        (show 0 ≤ w * 2 by omega) (show c.alloc + w * 2 ≤ intMax by omega)
      refine ⟨d, hsize, ?_, hkeep, fun cache => ?_⟩
      · rw [halloc, Option.isSome_some, if_pos rfl]
        omega
      · rw [hrun, ok_bind, hg, hd]
        rfl

theorem packIter_overflows (hb : Token.bytes t host swap L n = some bs)
    (hle : c.size ≤ c.alloc) (hshort : c.alloc < c.size + cInt bs.length)
    (hmax : intMax < c.alloc + 2 * cInt bs.length) :
    packIter host L swap (.pack t) cache n grants c
      = .error .intOverflow := by
  rw [packIter_short _ _ hb hle hshort]
  generalize cInt bs.length = w at *
  by_cases hw : w * 2 ≤ intMax
  · rw [intArith_of_mem (by unfold intMax; omega) hw, ok_bind,
      auraChunkRealloc, intArith, if_neg (by omega), error_bind, error_bind]
  · rw [intArith, if_neg (by omega), error_bind]

/-! ### and the loop -/

theorem packLoop_null (hb : Token.bytes t host swap L n = none) :
    packLoop host L swap (fuel + 1) (.pack t :: cache) n grants c
      = .error .nullDeref := by
  rw [packLoop_iter, packIter_null hb, error_bind]

theorem packLoop_fits (hb : Token.bytes t host swap L n = some bs)
    (hmax : (c.alloc : Int) ≤ intMax) (hfit : c.size + bs.length ≤ c.alloc) :
    packLoop host L swap (fuel + 1) (.pack t :: cache) n grants c
      = packLoop host L swap fuel cache (n + 1) grants (pushBytes c bs) := by
  rw [packLoop_iter, packIter_fits hb hmax hfit, ok_bind]

theorem packLoop_overruns (hb : Token.bytes t host swap L n = some bs)
    (hle : c.size ≤ c.alloc) (hint : c.size + cInt bs.length ≤ c.alloc)
    (hover : c.alloc < c.size + bs.length) :
    packLoop host L swap (fuel + 1) (.pack t :: cache) n grants c
      = .error .outOfBounds := by
  rw [packLoop_iter, packIter_overruns hb hle hint hover, error_bind]

theorem packLoop_overflows (hb : Token.bytes t host swap L n = some bs)
    (hle : c.size ≤ c.alloc) (hshort : c.alloc < c.size + cInt bs.length)
    (hmax : intMax < c.alloc + 2 * cInt bs.length) :
    packLoop host L swap (fuel + 1) (.pack t :: cache) n grants c
      = .error .intOverflow := by
  rw [packLoop_iter, packIter_overflows hb hle hshort hmax, error_bind]

/-- The two ways an iteration goes on. -/
theorem packIter_eq_ok {s : PackState} (hle : c.size ≤ c.alloc)
    (hmax : (c.alloc : Int) ≤ intMax)
    (h : packIter host L swap (.pack t) cache n grants c = .ok s) :
    ∃ bs, Token.bytes t host swap L n = some bs ∧
      ((c.size + bs.length ≤ c.alloc ∧
        s = ⟨cache, n + 1, grants, pushBytes c bs⟩) ∨
      (c.alloc < c.size + cInt bs.length ∧
        c.alloc + 2 * cInt bs.length ≤ intMax ∧
        ∃ d : AuraChunk,
          s = ⟨.pack t :: cache, n + 1, fun i => grants (i + 1), d⟩ ∧
          d.size = c.size ∧ (d.alloc : Int) = c.alloc +
            (if (grants 0).isSome then 2 * cInt bs.length else 0) ∧
          d.data.take c.alloc = c.data)) := by
  cases hb : Token.bytes t host swap L n with
  | none =>
      rw [packIter_null hb] at h
      cases h
  | some bs =>
      refine ⟨bs, rfl, ?_⟩
      by_cases hfit : c.size + bs.length ≤ c.alloc
      · rw [packIter_fits hb hmax hfit] at h
        cases h
        exact .inl ⟨hfit, rfl⟩
      · by_cases hint : c.size + cInt bs.length ≤ c.alloc
        · rw [packIter_overruns hb hle hint (by omega)] at h
          cases h
        · by_cases hgrow : c.alloc + 2 * cInt bs.length ≤ intMax
          · obtain ⟨d, hsize, halloc, hkeep, hrun⟩ :=
              packIter_grows grants hb hle (by omega) hgrow
            rw [hrun] at h
            cases h
            exact .inr ⟨by omega, hgrow, d, rfl, hsize, halloc, hkeep⟩
          · rw [packIter_overflows hb hle (by omega) (by omega)] at h
            cases h

theorem packLoop_eq_ok {d : AuraChunk} (hle : c.size ≤ c.alloc)
    (hmax : (c.alloc : Int) ≤ intMax)
    (h : packLoop host L swap (fuel + 1) (.pack t :: cache) n grants c
      = .ok d) :
    ∃ bs, Token.bytes t host swap L n = some bs ∧
      ((c.size + bs.length ≤ c.alloc ∧
        packLoop host L swap fuel cache (n + 1) grants (pushBytes c bs)
          = .ok d) ∨
      (c.alloc < c.size + bs.length ∧ ∃ c' : AuraChunk, c'.size = c.size ∧
        c.alloc ≤ c'.alloc ∧ (c'.alloc : Int) ≤ intMax ∧
        packLoop host L swap fuel (.pack t :: cache) (n + 1)
          (fun i => grants (i + 1)) c' = .ok d)) := by
  rw [packLoop_iter] at h
  obtain ⟨s, hs, h⟩ := bind_eq_ok.mp h
  obtain ⟨bs, hb, ⟨hfit, rfl⟩ | ⟨hshort, hgrow, c', rfl, hsize, halloc, _⟩⟩ :=
    packIter_eq_ok hle hmax hs
  · exact ⟨bs, hb, .inl ⟨hfit, h⟩⟩
  · refine ⟨bs, hb, .inr ⟨?_, c', hsize, ?_, ?_, h⟩⟩
    · have hpos : cInt bs.length ≤ bs.length := cInt_natCast_le _
      omega
    · split at halloc <;> omega
    · split at halloc <;> omega

end Iteration

/-! ## Everything fits -/

/-- The encodings of the arguments, one behind the other. -/
def encodeAll (host : Endian) (swap : Bool) (ts : List Token)
    (vs : List LuaValue) : List UInt8 :=
  (List.zipWith (fun t v => Token.encode t host swap v) ts vs).flatten

/-- How many bytes an accepted argument takes. -/
def Token.span (t : Token) (v : LuaValue) : Nat :=
  match Token.int? t, v with
  | none, .string s => s.length + 1
  | some (_, k), _ => k
  | _, _ => 0

/-- How many bytes an accepted argument list takes. -/
def spanAll (ts : List Token) (vs : List LuaValue) : Nat :=
  (List.zipWith Token.span ts vs).sum

/-- An argument list matches a format. -/
abbrev Matches (ts : List Token) (vs : List LuaValue) : Prop :=
  List.Forall₂ (fun t v => Token.accepts t v = true) ts vs

theorem Token.length_encode {t : Token} {v : LuaValue}
    (h : Token.accepts t v = true) (host : Endian) (swap : Bool) :
    (Token.encode t host swap v).length = Token.span t v := by
  unfold Token.accepts at h
  unfold Token.encode Token.span
  split at h
  · next s ht => simp only [ht, List.length_append, List.length_singleton]
  · next signed k q ht => simp only [ht, length_numberBytes]
  · cases h

/-- Slot `n` and the ones behind it. -/
theorem slot_of_drop {L : LuaState} {n : Nat} {v : LuaValue}
    {vs : List LuaValue} (h : L.stack.drop n = v :: vs) :
    L.slot (n + 1) = v ∧ L.stack.drop (n + 1) = vs := by
  constructor
  · have hget : L.stack[n]? = some v := by
      rw [← List.head?_drop, h, List.head?_cons]
    rw [LuaState.slot, List.getD_eq_getElem?_getD, hget, Option.getD_some]
  · rw [← List.tail_drop, h, List.tail_cons]

theorem slot_of_prefix {L : LuaState} {n : Nat} {v : LuaValue}
    {vs : List LuaValue} (h : v :: vs <+: L.stack.drop n) :
    L.slot (n + 1) = v ∧ vs <+: L.stack.drop (n + 1) := by
  obtain ⟨rest, hrest⟩ := h
  obtain ⟨hslot, hdrop⟩ := slot_of_drop hrest.symm
  exact ⟨hslot, rest, hdrop.symm⟩

/-- With room for all of its arguments, the loop appends their encodings and
does nothing else. -/
theorem packLoop_plain (host : Endian) {L : LuaState} (swap : Bool)
    {ts : List Token} {vs : List LuaValue} {n fuel : Nat}
    (grants : Nat → Grant) {c : AuraChunk} (hm : Matches ts vs)
    (hL : vs <+: L.stack.drop n) (hmax : (c.alloc : Int) ≤ intMax)
    (hfit : c.size + spanAll ts vs ≤ c.alloc) (hfuel : ts.length ≤ fuel) :
    ∃ d, packLoop host L swap fuel (ts.map .pack) (n + 1) grants c = .ok d ∧
      d.alloc = c.alloc ∧ d.size = c.size + spanAll ts vs ∧
      d.payload = c.payload ++ encodeAll host swap ts vs := by
  induction hm generalizing n fuel c with
  | nil =>
      refine ⟨c, ?_, rfl, rfl, (List.append_nil _).symm⟩
      rw [List.map_nil, packLoop_done]
  | @cons t v ts vs ht _ ih =>
      obtain ⟨hslot, hrest⟩ := slot_of_prefix hL
      have hspan : spanAll (t :: ts) (v :: vs)
          = Token.span t v + spanAll ts vs := by
        simp only [spanAll, List.zipWith_cons_cons, List.sum_cons]
      have hlen := Token.length_encode ht host swap
      have hb := Token.bytes_eq_encode host swap
        (hslot ▸ ht : Token.accepts t (L.slot (n + 1)) = true)
      rw [hslot] at hb
      have hfits : c.size + (Token.encode t host swap v).length ≤ c.alloc := by
        omega
      cases fuel with
      | zero => simp at hfuel
      | succ fuel =>
          have halloc := pushBytes_alloc hfits
          obtain ⟨d, hd, hda, hds, hdp⟩ := ih hrest
            (show ((pushBytes c (Token.encode t host swap v)).alloc : Int)
                ≤ intMax by rw [halloc]; exact hmax)
            (by rw [halloc, pushBytes_size]; omega)
            (show ts.length ≤ fuel by simpa using hfuel)
          refine ⟨d, ?_, by rw [hda, halloc], ?_, ?_⟩
          · rw [List.map_cons, packLoop_fits hb hmax hfits, hd]
          · rw [hds, pushBytes_size, hspan, hlen, Nat.add_assoc]
          · rw [hdp, pushBytes_payload hfits, List.append_assoc]
            rfl

/-- It goes round once for each field, so a loop that came to its end had the
fuel for that. -/
theorem packLoop_plain_fuel (host : Endian) {L : LuaState} (swap : Bool)
    {ts : List Token} {vs : List LuaValue} {n fuel : Nat}
    (grants : Nat → Grant) {c d : AuraChunk} (hm : Matches ts vs)
    (hL : L.stack.drop n = vs) (hmax : (c.alloc : Int) ≤ intMax)
    (hfit : c.size + spanAll ts vs ≤ c.alloc)
    (h : packLoop host L swap fuel (ts.map .pack) (n + 1) grants c = .ok d) :
    ts.length ≤ fuel := by
  induction hm generalizing n fuel c with
  | nil => exact Nat.zero_le fuel
  | @cons t v ts vs ht _ ih =>
      cases fuel with
      | zero => cases h
      | succ fuel =>
          obtain ⟨hslot, hrest⟩ := slot_of_drop hL
          have hlen := Token.length_encode ht host swap
          have hb := Token.bytes_eq_encode host swap
            (hslot ▸ ht : Token.accepts t (L.slot (n + 1)) = true)
          rw [hslot] at hb
          have hspan : spanAll (t :: ts) (v :: vs)
              = Token.span t v + spanAll ts vs := by
            simp only [spanAll, List.zipWith_cons_cons, List.sum_cons]
          have hfits : c.size + (Token.encode t host swap v).length
              ≤ c.alloc := by omega
          have halloc := pushBytes_alloc hfits
          rw [List.map_cons, packLoop_fits hb hmax hfits] at h
          have hle := ih hrest (by rw [halloc]; exact hmax)
            (by rw [halloc, pushBytes_size]; omega) h
          rw [List.length_cons]
          omega

theorem urpcPackData_of_allocated {host : Endian} {mem : Grant}
    {grants : Nat → Grant} {fuel sz reserved : Nat} {L : LuaState}
    {fns : List CacheFn} {swap : Bool} {c : AuraChunk}
    (h : auraChunkAllocate mem (cInt sz) = some c) :
    urpcPackData host mem grants fuel L sz reserved (some fns) swap
      = some <$> packLoop host L swap fuel fns stackStart grants
          { c with size := reserved } := by
  rw [urpcPackData, h]

/-- Arguments that fit, with anything behind them. -/
theorem urpcPackData_fits (host : Endian) {L : LuaState} (swap : Bool)
    (junk : Nat → UInt8) (grants : Nat → Grant) {ts : List Token}
    {vs : List LuaValue} {fuel sz reserved : Nat} (hm : Matches ts vs)
    (hL : vs <+: L.stack.drop 2) (hmax : (sz : Int) ≤ intMax)
    (hfit : reserved + spanAll ts vs ≤ sz) (hfuel : ts.length ≤ fuel) :
    ∃ d, urpcPackData host (some junk) grants fuel L sz reserved
        (some (ts.map .pack)) swap = .ok (some d) ∧
      d.alloc = sz ∧ d.size = reserved + spanAll ts vs ∧
      d.payload.drop reserved = encodeAll host swap ts vs := by
  have hsz : cInt sz = sz := cInt_of_mem (by unfold intMax; omega) hmax
  obtain ⟨c, hc, hcalloc⟩ := auraChunkAllocate_granted junk
    (Int.natCast_nonneg sz)
  rw [Int.toNat_natCast] at hcalloc
  have hstart : ({ c with size := reserved } : AuraChunk).alloc = sz := hcalloc
  obtain ⟨d, hd, hda, hds, hdp⟩ := packLoop_plain host swap grants
    (c := { c with size := reserved }) (n := 2) hm hL
    (by rw [hstart]; exact hmax) (by rw [hstart]; exact hfit) hfuel
  refine ⟨d, ?_, by rw [hda, hstart], hds, ?_⟩
  · rw [urpcPackData_of_allocated (hsz ▸ hc), show stackStart = 2 + 1 from rfl,
      hd]
    rfl
  · rw [hdp]
    apply List.drop_left'
    apply payload_length
    rw [hstart]
    exact Nat.le_trans (Nat.le_add_right reserved _) hfit

theorem urpcPackData_plain (host : Endian) {L : LuaState} (swap : Bool)
    (junk : Nat → UInt8) (grants : Nat → Grant) {ts : List Token}
    {fuel sz reserved : Nat} (hm : Matches ts (L.stack.drop 2))
    (hmax : (sz : Int) ≤ intMax)
    (hfit : reserved + spanAll ts (L.stack.drop 2) ≤ sz)
    (hfuel : ts.length ≤ fuel) :
    ∃ d, urpcPackData host (some junk) grants fuel L sz reserved
        (some (ts.map .pack)) swap = .ok (some d) ∧
      d.alloc = sz ∧ d.size = reserved + spanAll ts (L.stack.drop 2) ∧
      d.payload.drop reserved
        = encodeAll host swap ts (L.stack.drop 2) :=
  urpcPackData_fits host swap junk grants hm List.prefix_rfl hmax hfit hfuel

end Aura.Proofs
