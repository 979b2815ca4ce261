import Aura.Ref.Mem

/-!
# Chunks (chunk.c, chunk.h)

A chunk owns a block of `alloc` bytes of which the first `size` are in use.
The block is the list of its bytes, so `alloc` is that list's length and no
chunk disagrees with its own block. The reference count has no reader besides
the code that frees at zero, and is left out.
-/

namespace Aura.Ref

/-- `struct aura_chunk`. -/
structure AuraChunk where
  data : List UInt8
  size : Nat
  deriving DecidableEq, Repr

/-- The `alloc` field: how many bytes `data` points at. -/
def AuraChunk.alloc (c : AuraChunk) : Nat := c.data.length

/-- `data[0..size)`. -/
def AuraChunk.payload (c : AuraChunk) : List UInt8 := c.data.take c.size

/-- `malloc` twice, the block second; a negative `int` is a `size_t` no
allocator grants. -/
def auraChunkAllocate (g : Grant) (sz : Int) : Option AuraChunk :=
  match g with
  | none => none
  | some junk =>
      if sz < 0 then none
      else some { data := (List.range sz.toNat).map junk, size := 0 }

/-- `realloc` keeps what fits of the old bytes and leaves the rest as found.
The return code is 0, or -1 with the chunk untouched. -/
def auraChunkRealloc (g : Grant) (c : AuraChunk) (extra : Int) :
    Res (Int × AuraChunk) := do
  let sz ← intArith (c.alloc + extra)
  match g with
  | none => pure (-1, c)
  | some junk =>
      if sz < 0 then pure (-1, c)
      else
        let fresh := ((List.range sz.toNat).drop c.alloc).map junk
        pure (0, { c with data := c.data.take sz.toNat ++ fresh })

/-- Storing inside the block of a chunk. -/
def AuraChunk.store (c : AuraChunk) (off : Nat) (bs : List UInt8) :
    Res AuraChunk := do
  let data ← storeBytes c.data off bs
  pure { c with data }

theorem AuraChunk.store_eq_ok {c d : AuraChunk} {off : Nat}
    {bs : List UInt8} :
    c.store off bs = .ok d ↔
      storeBytes c.data off bs = .ok d.data ∧ d.size = c.size := by
  unfold AuraChunk.store
  cases h : storeBytes c.data off bs with
  | error e => simp
  | ok data =>
      obtain ⟨ddata, dsize⟩ := d
      simp only [Aura.Lib.ok_bind, Aura.Lib.pure_eq_ok, Except.ok.injEq,
        AuraChunk.mk.injEq, eq_comm]

theorem auraChunkAllocate_granted (junk : Nat → UInt8) {sz : Int}
    (hsz : 0 ≤ sz) :
    ∃ c, auraChunkAllocate (some junk) sz = some c ∧ c.alloc = sz.toNat := by
  refine ⟨⟨(List.range sz.toNat).map junk, 0⟩, ?_, ?_⟩
  · rw [auraChunkAllocate, if_neg (by omega)]
  · rw [AuraChunk.alloc, List.length_map, List.length_range]

/-- A grow that the allocator granted and no `int` overflowed in. -/
theorem auraChunkRealloc_granted (junk : Nat → UInt8) {c : AuraChunk}
    {extra : Int} (hpos : 0 ≤ extra) (hle : c.alloc + extra ≤ intMax) :
    ∃ d, auraChunkRealloc (some junk) c extra = .ok (0, d) ∧
      d.size = c.size ∧ (d.alloc : Int) = c.alloc + extra ∧
      d.data.take c.alloc = c.data := by
  have hlo : -intMax - 1 ≤ (c.alloc : Int) + extra := by
    unfold intMax; omega
  rw [auraChunkRealloc, intArith_of_mem hlo hle]
  simp only [Aura.Lib.ok_bind, if_neg (show ¬ (c.alloc : Int) + extra < 0 by
    omega)]
  refine ⟨_, rfl, rfl, ?_, ?_⟩
  · simp only [AuraChunk.alloc, List.length_append, List.length_take,
      List.length_map, List.length_drop, List.length_range]
    omega
  · unfold AuraChunk.alloc
    rw [List.take_append_of_le_length
      (by rw [List.length_take]; omega), List.take_take,
      List.take_of_length_le (by omega)]

end Aura.Ref
