import Aura.Proofs.Layout

/-!
# What the packing loop writes, and where

Whatever the allocator answers, an iteration writes behind what is packed
already, and it stays inside the block as long as an `int` says how wide the
field is (`packing_inside_iff`). A chunk of an `int` size with room for all
arguments ends up holding their encodings, each taken from its own slot of the
stack (`packed_layout`).
-/

namespace Aura.Proofs

open Aura.Lib Aura.Ref

/-! ## Inside the chunk -/

/-- In every iteration from `s₀` on, what is reserved lies inside what is used
and that inside the block, a packer writes inside the block and behind what is
used, nothing but a NULL string stops it, and what is used stays as it is. -/
structure StaysInside (host : Endian) (L : LuaState) (swap : Bool)
    (reserved : Nat) (s₀ : PackState) : Prop where
  bounds : ∀ s, Passes host L swap s₀ s →
    reserved ≤ s.chunk.size ∧ s.chunk.size ≤ s.chunk.alloc
  writes : ∀ s fn cache n bytes, Passes host L swap s₀ s →
    s.cache = fn :: cache →
    fn.callPack host L s.luaArg (s.chunk.alloc - s.chunk.size) swap
      = .ok (n, bytes) →
    bytes = [] ∨ s.chunk.size + bytes.length ≤ s.chunk.alloc
  defined : ∀ s fn cache e, Passes host L swap s₀ s → s.cache = fn :: cache →
    packIter host L swap fn cache s.luaArg s.grants s.chunk = .error e →
    e = .nullDeref
  kept : ∀ s t, Passes host L swap s₀ s → Passes host L swap s t →
    t.chunk.data.take s.chunk.size = s.chunk.data.take s.chunk.size

/-- The state in which `urpc_pack_data` enters its loop. -/
def packStart (fns : List CacheFn) (grants : Nat → Grant) (c : AuraChunk)
    (reserved : Nat) : PackState :=
  ⟨fns, stackStart, grants, { c with size := reserved }⟩

/-- The layout it starts with. -/
def startLayout (ts : List Token) (grants : Nat → Grant) (sz : Nat)
    (reserved : Nat) : Layout :=
  ⟨(cInt sz).toNat, reserved, ts, stackStart, fun i => (grants i).isSome⟩

section Inside

variable {host : Endian} {L : LuaState} {swap : Bool}

theorem auraChunkAllocate_alloc {g : Grant} {sz : Int} {c : AuraChunk}
    (h : auraChunkAllocate g sz = some c) : (c.alloc : Int) = sz := by
  cases g with
  | none => cases h
  | some junk =>
      rw [auraChunkAllocate] at h
      by_cases hneg : sz < 0
      · rw [if_pos hneg] at h
        cases h
      · rw [if_neg hneg] at h
        cases h
        rw [AuraChunk.alloc, List.length_map, List.length_range]
        exact Int.toNat_of_nonneg (not_lt.mp hneg)

/-- At a closed layout the next iteration fails, and not for want of a
string. -/
theorem packIter_closed {ts : List Token} {s : PackState} (hs : Packing ts s)
    (h : ¬ (s.layout ts).Open L) :
    ∃ fn cache e, s.cache = fn :: cache ∧
      packIter host L swap fn cache s.luaArg s.grants s.chunk = .error e ∧
      e ≠ .nullDeref := by
  cases ts with
  | nil => exact absurd (fun t ht => nomatch ht) h
  | cons t ts =>
      refine ⟨.pack t, ts.map .pack, ?_⟩
      unfold Layout.Open PackState.layout layoutOf at h
      simp only [List.head?_cons, Option.mem_def, Option.some.injEq] at h
      push Not at h
      obtain ⟨_, rfl, w, hw, hno, hgrow⟩ := h
      rw [← Token.map_length_bytes t host swap, Option.map_eq_some_iff] at hw
      obtain ⟨bs, hb, rfl⟩ := hw
      by_cases hint : s.chunk.size + cInt bs.length ≤ s.chunk.alloc
      · exact ⟨_, hs.cache, packIter_overruns hb hs.inside hint hno, nofun⟩
      · exact ⟨_, hs.cache, packIter_overflows hb hs.inside (by omega)
          (hgrow (by omega)), nofun⟩

/-- At an open one it goes through, or finds no string. -/
theorem packIter_open {ts : List Token} {s : PackState} {fn : CacheFn}
    {cache : List CacheFn} {e : Fault} (hs : Packing ts s)
    (h : (s.layout ts).Open L) (hcache : s.cache = fn :: cache)
    (he : packIter host L swap fn cache s.luaArg s.grants s.chunk
      = .error e) : e = .nullDeref := by
  cases ts with
  | nil =>
      rw [hs.cache] at hcache
      cases hcache
  | cons t ts =>
      rw [hs.cache] at hcache
      cases hcache
      cases hb : Token.bytes t host swap L s.luaArg with
      | none =>
          rw [packIter_null hb] at he
          cases he
          rfl
      | some bs =>
          have hw : Token.width t L s.luaArg = some bs.length := by
            rw [← Token.map_length_bytes t host swap, hb]
            rfl
          rcases h t rfl _ hw with hfit | ⟨hshort, hmax⟩
          · rw [packIter_fits hb hs.small hfit] at he
            cases he
          · obtain ⟨d, _, _, _, hrun⟩ :=
              packIter_grows s.grants hb hs.inside hshort hmax
            rw [hrun] at he
            cases he

/-- What a packer writes at an open layout, it writes into the block. -/
theorem callPack_open {ts : List Token} {s : PackState} {fn : CacheFn}
    {cache : List CacheFn} {n : Int} {bytes : List UInt8} (hs : Packing ts s)
    (h : (s.layout ts).Open L) (hcache : s.cache = fn :: cache)
    (hcall : fn.callPack host L s.luaArg (s.chunk.alloc - s.chunk.size) swap
      = .ok (n, bytes)) :
    bytes = [] ∨ s.chunk.size + bytes.length ≤ s.chunk.alloc := by
  cases ts with
  | nil =>
      rw [hs.cache] at hcache
      cases hcache
  | cons t ts =>
      rw [hs.cache] at hcache
      cases hcache
      simp only [CacheFn.callPack, Token.pack_eq] at hcall
      cases hb : Token.bytes t host swap L s.luaArg with
      | none =>
          rw [hb] at hcall
          cases hcall
      | some bs =>
          have hw : Token.width t L s.luaArg = some bs.length := by
            rw [← Token.map_length_bytes t host swap, hb]
            rfl
          have hopen : s.chunk.size + bs.length ≤ s.chunk.alloc ∨
              ((s.chunk.alloc : Int) < s.chunk.size + cInt bs.length ∧ _) :=
            h t rfl _ hw
          rw [hb] at hcall
          simp only at hcall
          generalize cInt bs.length = w at *
          by_cases hroom : (s.chunk.alloc : Int) - s.chunk.size < w
          · rw [if_pos hroom] at hcall
            cases hcall
            exact .inl rfl
          · rw [if_neg hroom] at hcall
            cases hcall
            rcases hopen with hfit | ⟨hshort, _⟩
            · exact .inr hfit
            · omega

end Inside

/-- The packing loop stays inside the chunk exactly when the reserved bytes do
and every field it comes to is as wide as an `int` says, or short of room and
narrow enough for the growth to be an `int`. -/
theorem packing_inside_iff (host : Endian) (L : LuaState) (swap : Bool)
    (ts : List Token) (mem : Grant) (grants : Nat → Grant)
    (sz reserved : Nat) :
    (∀ c, auraChunkAllocate mem (cInt sz) = some c →
      StaysInside host L swap reserved
        (packStart (ts.map .pack) grants c reserved)) ↔
    ∀ c, auraChunkAllocate mem (cInt sz) = some c →
      reserved ≤ cInt sz ∧
        ∀ l, Reaches L (startLayout ts grants sz reserved) l → l.Open L := by
  refine forall₂_congr fun c hc => ?_
  have halloc := auraChunkAllocate_alloc hc
  have hmax : (c.alloc : Int) ≤ intMax := halloc ▸ cInt_le sz
  have hlayout : (packStart (ts.map .pack) grants c reserved).layout ts
      = startLayout ts grants sz reserved := by
    rw [startLayout, ← halloc]
    rfl
  rw [← hlayout, ← halloc]
  constructor
  · intro h
    have hres : reserved ≤ c.alloc := (h.bounds _ .refl).2
    refine ⟨by omega, fun l hl => ?_⟩
    by_contra hclosed
    have hstart : Packing ts (packStart (ts.map .pack) grants c reserved) :=
      ⟨rfl, hres, hmax⟩
    obtain ⟨us, s, hpass, hs, rfl⟩ := reaches_passes host swap hstart hl
    obtain ⟨fn, cache, e, hcache, he, hne⟩ := packIter_closed hs hclosed
    exact hne (h.defined s fn cache e hpass hcache he)
  · rintro ⟨hres, hopen⟩
    have hstart : Packing ts (packStart (ts.map .pack) grants c reserved) :=
      ⟨rfl, show reserved ≤ c.alloc by omega, hmax⟩
    constructor
    · intro s hpass
      obtain ⟨us, hs, _, hsize, _⟩ := passes_reaches hstart hpass
      exact ⟨hsize, hs.inside⟩
    · intro s fn cache n bytes hpass hcache hcall
      obtain ⟨us, hs, hreach, _⟩ := passes_reaches hstart hpass
      exact callPack_open hs (hopen _ hreach) hcache hcall
    · intro s fn cache e hpass hcache he
      obtain ⟨us, hs, hreach, _⟩ := passes_reaches hstart hpass
      exact packIter_open hs (hopen _ hreach) hcache he
    · intro s t hpass hpass'
      obtain ⟨us, hs, _⟩ := passes_reaches hstart hpass
      obtain ⟨_, _, _, _, hkeep⟩ := passes_reaches hs hpass'
      exact hkeep

/-- One string of `n` letters, and nothing else to pack. -/
def longString (n : Nat) : LuaState :=
  ⟨[.nil, .nil, .string (List.replicate n 97)], fun _ => [], fun _ => none⟩

theorem luaToString_longString (n : Nat) :
    luaToString (longString n) stackStart = some (List.replicate n 97) := by
  simp [luaToString, LuaState.slot, longString, stackStart]

/-- A string of 2^31-1 letters: its width with the NUL is negative as an `int`,
so nothing keeps it out of a chunk of 256 bytes. -/
theorem packing_escapes : ¬ ∀ (L : LuaState) (ts : List Token)
    (sz reserved : Nat) (c : AuraChunk), reserved ≤ sz →
    auraChunkAllocate (some fun _ => 0) (cInt sz) = some c →
    (∀ s cache, Passes .little L false
        (packStart (ts.map .pack) (fun _ => none) c reserved) s →
      s.cache = .pack .string :: cache → luaToString L s.luaArg ≠ none) →
    StaysInside .little L false reserved
      (packStart (ts.map .pack) (fun _ => none) c reserved) := by
  intro h
  obtain ⟨n, hn⟩ : ∃ n, n = 2147483647 := ⟨_, rfl⟩
  obtain ⟨c, hc, halloc⟩ := auraChunkAllocate_granted (fun _ => 0)
    (show (0 : Int) ≤ 256 by omega)
  have hstr := luaToString_longString n
  have hb : Token.bytes .string .little false (longString n) stackStart
      = some (List.replicate n 97 ++ [0]) := by
    rw [Token.bytes, Token.int?, hstr]
    rfl
  have hlen : (List.replicate n (97 : UInt8) ++ [0]).length = n + 1 := by
    simp
  have hover : ∀ cache grants, packIter .little (longString n) false
      (.pack .string) cache stackStart grants { c with size := 0 }
      = .error .outOfBounds := by
    intro cache grants
    have hblock : ({ c with size := 0 } : AuraChunk).alloc = 256 := halloc
    have hneg : cInt ((n + 1 : Nat) : Int) ≤ 0 := by
      rw [hn]
      decide
    apply packIter_overruns hb (Nat.zero_le _)
    · rw [hlen, hblock]
      show (0 : Int) + cInt ((n + 1 : Nat) : Int) ≤ (256 : Nat)
      omega
    · rw [hlen, hblock]
      show 256 < 0 + (n + 1)
      omega
  have hinside := h (longString n) [.string] 256 0 c (Nat.zero_le _) hc ?_
  · cases hinside.defined _ (.pack .string) [] _ .refl rfl (hover _ _)
  · intro s cache hpass _
    rcases Relation.ReflTransGen.cases_head hpass with rfl | ⟨t, hiter, _⟩
    · show luaToString (longString n) stackStart ≠ none
      rw [hstr]
      exact Option.some_ne_none _
    · obtain ⟨fn, cache, hcache, hrun⟩ := hiter
      cases hcache
      cases (hover _ _).symm.trans hrun

/-! ## The slots -/

/-- The next argument is the one the next token is for, and there is room for
all that is left. -/
def Roomy (L : LuaState) (ts : List Token) (s : PackState) : Prop :=
  ∃ n vs, s.luaArg = n + 1 ∧ Matches ts vs ∧ vs <+: L.stack.drop n ∧
    s.chunk.size + spanAll ts vs ≤ s.chunk.alloc

section Slots

variable {host : Endian} {L : LuaState} {swap : Bool}

theorem roomy_step {ts : List Token} {s t : PackState} (hs : Packing ts s)
    (hroomy : Roomy L ts s) (h : Iterates host L swap s t) :
    ∃ us, Packing us t ∧ Roomy L us t ∧
      t.luaArg + t.cache.length = s.luaArg + s.cache.length := by
  obtain ⟨fn, cache, hcache, hiter⟩ := h
  obtain ⟨hts, hle, hmax⟩ := hs
  obtain ⟨n, vs, hn, hm, hL, hfit⟩ := hroomy
  cases hm with
  | nil =>
      rw [hts] at hcache
      cases hcache
  | @cons tok v ts vs ht hm =>
      obtain ⟨hslot, hrest⟩ := slot_of_prefix hL
      have hlen := Token.length_encode ht host swap
      have hb := Token.bytes_eq_encode host swap
        (hslot ▸ ht : Token.accepts tok (L.slot (n + 1)) = true)
      rw [hslot] at hb
      rw [spanAll_cons] at hfit
      have hfits : s.chunk.size + (Token.encode tok host swap v).length
          ≤ s.chunk.alloc := by omega
      have hfields : fn = .pack tok ∧ cache = ts.map .pack := by
        rw [hts] at hcache
        cases hcache
        exact ⟨rfl, rfl⟩
      obtain ⟨rfl, rfl⟩ := hfields
      rw [hn, packIter_fits hb hmax hfits] at hiter
      cases hiter
      refine ⟨ts, ⟨rfl, ?_, ?_⟩, ⟨n + 1, vs, rfl, hm, hrest, ?_⟩, ?_⟩
      · rw [pushBytes_alloc hfits]
        exact hfits
      · rw [pushBytes_alloc hfits]
        exact hmax
      · rw [pushBytes_alloc hfits, pushBytes_size]
        omega
      · rw [hcache, hn, List.length_cons, Nat.add_right_comm, ← Nat.add_assoc]

/-- With room for everything every token is packed from its own slot. -/
theorem roomy_passes {ts : List Token} {s t : PackState} (hs : Packing ts s)
    (hroomy : Roomy L ts s) (h : Passes host L swap s t) :
    t.luaArg + t.cache.length = s.luaArg + s.cache.length := by
  suffices hinv : ∃ us, Packing us t ∧ Roomy L us t ∧
      t.luaArg + t.cache.length = s.luaArg + s.cache.length by
    obtain ⟨_, _, _, hslots⟩ := hinv
    exact hslots
  induction h with
  | refl => exact ⟨ts, hs, hroomy, rfl⟩
  | tail _ hstep ih =>
      obtain ⟨us, hu, hru, hslots⟩ := ih
      obtain ⟨us', hu', hru', hslots'⟩ := roomy_step hu hru hstep
      exact ⟨us', hu', hru', hslots'.trans hslots⟩

end Slots

/-- The packed layout, for a format and arguments that match it: the size, the
bytes behind the reserved ones, and the slot each token is packed from (with
`k` fields still to come, the next is packed from slot 3 plus the number of
those before it). -/
structure PackedLayout (host : Endian) (L : LuaState) (swap : Bool)
    (ts : List Token) (vs : List LuaValue) (mem : Grant)
    (grants : Nat → Grant) (sz reserved : Nat) (cache : List CacheFn) :
    Prop where
  packed : ∀ fuel, ts.length ≤ fuel → ∃ d,
    urpcPackData host mem grants fuel L sz reserved (some cache) swap
      = .ok (some d) ∧
    d.size = reserved + spanAll ts vs ∧
    d.payload.drop reserved = encodeAll host swap ts vs
  slots : ∀ c s, auraChunkAllocate mem (cInt sz) = some c →
    Passes host L swap (packStart cache grants c reserved) s →
    s.luaArg + s.cache.length = 3 + ts.length

/-- Every format of the grammar packs every matching argument list as laid
out, in a chunk of an `int` size with room for it. -/
theorem packed_layout (host : Endian) (swap : Bool) (len : Int) (fmt : UInt8)
    (junk : Nat → UInt8) (grants : Nat → Grant) {L : LuaState}
    {ts : List Token} {vs : List LuaValue} {sz reserved : Nat}
    (hm : Matches ts vs) (hL : vs <+: L.stack.drop 2)
    (hsz : (sz : Int) ≤ intMax) (hfit : reserved + spanAll ts vs ≤ sz) :
    ∃ cache,
      urpcArgcache len fmt (some (formatOf ts)) true = .ok (some cache) ∧
      PackedLayout host L swap ts vs (some junk) grants sz reserved cache := by
  refine ⟨ts.map .pack, urpcArgcache_formatOf true ts len fmt, ?_, ?_⟩
  · intro fuel hfuel
    obtain ⟨d, hd, _, hsize, hpay⟩ :=
      urpcPackData_fits host swap junk grants hm hL hsz hfit hfuel
    exact ⟨d, hd, hsize, hpay⟩
  · intro c s hc hpass
    have hint : cInt sz = sz := cInt_of_mem (by unfold intMax; omega) hsz
    have halloc := auraChunkAllocate_alloc hc
    have hroom : reserved + spanAll ts vs ≤ c.alloc := by omega
    have hslots := roomy_passes
      (show Packing ts (packStart (ts.map .pack) grants c reserved) from
        ⟨rfl, Nat.le_trans (Nat.le_add_right _ _) hroom, by
          show (c.alloc : Int) ≤ intMax
          omega⟩)
      ⟨2, vs, rfl, hm, hL, hroom⟩ hpass
    rw [hslots]
    show stackStart + (ts.map CacheFn.pack).length = 3 + ts.length
    rw [List.length_map]
    rfl

/-- A string, a signed and an unsigned number. -/
def stackMixed : LuaState :=
  ⟨[.nil, .nil, .string [104, 105], .number (-2 : Int), .number (513 : Int)],
    fun _ => [], fun _ => none⟩

theorem packed_layout_mixed : ∃ cache,
    urpcArgcache 0 0 (some (formatOf [.string, .s16, .u32])) true
      = .ok (some cache) ∧
    PackedLayout .little stackMixed true [.string, .s16, .u32]
      [.string [104, 105], .number (-2 : Int), .number (513 : Int)]
      (some fun _ => 0) (fun _ => none) 256 3 cache :=
  packed_layout .little true 0 0 (fun _ => 0) (fun _ => none)
    (.cons rfl (.cons rfl (.cons rfl .nil))) List.prefix_rfl (by decide)
    (by decide)

/-- A size of 2^32 is an allocation of no bytes: the field is packed from the
slot behind its own. -/
theorem packed_layout_truncated : ¬ ∀ (L : LuaState) (ts : List Token)
    (vs : List LuaValue) (sz reserved : Nat), Matches ts vs →
    vs <+: L.stack.drop 2 → reserved + spanAll ts vs ≤ sz → ∃ cache,
      urpcArgcache 0 0 (some (formatOf ts)) true = .ok (some cache) ∧
      PackedLayout .little L false ts vs (some fun _ => 0)
        (fun _ => some fun _ => 0) sz reserved cache := by
  intro h
  obtain ⟨cache, hcache, hpacked, _⟩ := h
    ⟨[.nil, .nil, .number (7 : Int)], fun _ => [], fun _ => none⟩ [.u8]
    [.number (7 : Int)] 4294967296 0 (.cons rfl .nil) List.prefix_rfl
    (by decide)
  have hone : urpcArgcache 0 0 (some (formatOf [.u8])) true
      = .ok (some [.pack .u8]) := urpcArgcache_formatOf true [.u8] 0 0
  rw [hone] at hcache
  cases hcache
  obtain ⟨d, hd, _, hpay⟩ := hpacked 2 (by decide)
  have hzero : urpcPackData .little (some fun _ => 0)
      (fun _ => some fun _ => 0) 2
      ⟨[.nil, .nil, .number (7 : Int)], fun _ => [], fun _ => none⟩ 4294967296
      0 (some [.pack .u8]) false = .ok (some ⟨[0, 0], 1⟩) := by
    decide +kernel
  rw [hzero] at hd
  cases hd
  exact absurd hpay (by decide)

end Aura.Proofs
