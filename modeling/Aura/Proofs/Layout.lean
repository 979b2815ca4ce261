import Mathlib.Logic.Relation
import Aura.Proofs.Growth

/-!
# Laying fields into a growing chunk

Where the bytes of a packing end up depends on the widths of its fields only,
and so does whether there is room for them. A `Layout` is a packing with the
bytes left out: the block, what of it is used, the fields still to come, the
next argument and the allocator's answers. `Lays` lays one field, or grows the
block by twice its width and moves on to the next argument.

The packing loop follows its layout step by step (`packLoop_lays`,
`packLoop_lands`), and it fails where the layout has no next step.
-/

namespace Aura.Proofs

open Aura.Lib Aura.Ref

/-! ## Widths and layouts -/

/-- The width of the field a token makes of stack slot `n`. -/
def Token.width (t : Token) (L : LuaState) (n : Nat) : Option Nat :=
  match Token.int? t with
  | none => (luaToString L n).map fun s => s.length + 1
  | some (_, k) => some k

theorem Token.map_length_bytes (t : Token) (host : Endian) (swap : Bool)
    (L : LuaState) (n : Nat) :
    (Token.bytes t host swap L n).map List.length = Token.width t L n := by
  unfold Token.bytes Token.width
  cases Token.int? t with
  | none => cases luaToString L n <;> simp
  | some sk => simp

/-- A packing, in numbers. -/
structure Layout where
  alloc : Nat
  size : Nat
  tokens : List Token
  arg : Nat
  granted : Nat → Bool

/-- One field laid, or one grow. -/
inductive Lays (L : LuaState) : Layout → Layout → Prop
  | fits {alloc size w n : Nat} {t : Token} {ts : List Token}
      {g : Nat → Bool} (hw : Token.width t L n = some w)
      (hfit : size + w ≤ alloc) :
      Lays L ⟨alloc, size, t :: ts, n, g⟩ ⟨alloc, size + w, ts, n + 1, g⟩
  | grows {alloc alloc' size w n : Nat} {t : Token} {ts : List Token}
      {g : Nat → Bool} (hw : Token.width t L n = some w)
      (hshort : alloc < size + cInt w) (hmax : alloc + 2 * cInt w ≤ intMax)
      (halloc : (alloc' : Int) = alloc + (if g 0 then 2 * cInt w else 0)) :
      Lays L ⟨alloc, size, t :: ts, n, g⟩
        ⟨alloc', size, t :: ts, n + 1, fun i => g (i + 1)⟩

/-- All the layouts a packing passes through. -/
abbrev Reaches (L : LuaState) : Layout → Layout → Prop :=
  Relation.ReflTransGen (Lays L)

/-- The next field can be laid, or the block grown for it. -/
def Layout.Open (L : LuaState) (l : Layout) : Prop :=
  ∀ t ∈ l.tokens.head?, ∀ w, Token.width t L l.arg = some w →
    l.size + w ≤ l.alloc ∨
      (l.alloc < l.size + cInt w ∧ l.alloc + 2 * cInt w ≤ intMax)

/-- The faults of code that looks for room it does not have: an index outside
its block, or a size that no longer fits an `int`. -/
def Escapes (e : Fault) : Prop := e = .outOfBounds ∨ e = .intOverflow

/-- The layout of a running packing. -/
def layoutOf (ts : List Token) (n : Nat) (grants : Nat → Grant)
    (c : AuraChunk) : Layout :=
  ⟨c.alloc, c.size, ts, n, fun i => (grants i).isSome⟩

/-! ## The loop follows the layout -/

/-- From one `retry` to the next. -/
def Iterates (host : Endian) (L : LuaState) (swap : Bool) (s t : PackState) :
    Prop :=
  ∃ fn cache, s.cache = fn :: cache ∧
    packIter host L swap fn cache s.luaArg s.grants s.chunk = .ok t

/-- Every state in which the loop passes `retry`. -/
abbrev Passes (host : Endian) (L : LuaState) (swap : Bool) :
    PackState → PackState → Prop :=
  Relation.ReflTransGen (Iterates host L swap)

/-- The loop is about to pack `ts` into a chunk that is in order. -/
structure Packing (ts : List Token) (s : PackState) : Prop where
  cache : s.cache = ts.map .pack
  inside : s.chunk.size ≤ s.chunk.alloc
  small : (s.chunk.alloc : Int) ≤ intMax

/-- A running packing, in numbers. -/
def PackState.layout (ts : List Token) (s : PackState) : Layout :=
  layoutOf ts s.luaArg s.grants s.chunk

section Follow

variable {L : LuaState}

/-- An iteration that goes through lays a field or grows, and what was written
before it stays. -/
theorem iterates_lays {host : Endian} {swap : Bool} {ts : List Token}
    {s t : PackState} (hs : Packing ts s) (h : Iterates host L swap s t) :
    ∃ us, Packing us t ∧ Lays L (s.layout ts) (t.layout us) ∧
      s.chunk.size ≤ t.chunk.size ∧
      t.chunk.data.take s.chunk.size = s.chunk.data.take s.chunk.size := by
  obtain ⟨fn, cache, hcache, h⟩ := h
  obtain ⟨hts, hle, hmax⟩ := hs
  cases ts with
  | nil =>
      rw [hts] at hcache
      cases hcache
  | cons tok ts =>
      rw [hts] at hcache
      cases hcache
      obtain ⟨bs, hb, ⟨hfit, rfl⟩ | ⟨hshort, hgrow, d, rfl, hsize, halloc, hkeep⟩⟩ :=
        packIter_eq_ok hle hmax h
      · have hw : Token.width tok L s.luaArg = some bs.length := by
          rw [← Token.map_length_bytes tok host swap, hb]
          rfl
        refine ⟨ts, ⟨rfl, ?_, ?_⟩, ?_, Nat.le_add_right _ _, ?_⟩
        · rw [pushBytes_alloc hfit]
          exact hfit
        · rw [pushBytes_alloc hfit]
          exact hmax
        · rw [PackState.layout, PackState.layout, layoutOf, layoutOf,
            pushBytes_alloc hfit]
          exact .fits hw hfit
        · rw [pushBytes, List.append_assoc]
          apply List.take_left'
          rw [List.length_take]
          exact Nat.min_eq_left hle
      · have hw : Token.width tok L s.luaArg = some bs.length := by
          rw [← Token.map_length_bytes tok host swap, hb]
          rfl
        refine ⟨tok :: ts, ⟨rfl, ?_, ?_⟩, ?_, Nat.le_of_eq hsize.symm, ?_⟩
        · show d.size ≤ d.alloc
          split at halloc <;> omega
        · show (d.alloc : Int) ≤ intMax
          split at halloc <;> omega
        · simp only [PackState.layout, layoutOf, hsize]
          exact .grows hw hshort hgrow halloc
        · rw [← hkeep, List.take_take, Nat.min_eq_left hle]

/-- One step of the layout is one iteration of the loop. -/
theorem lays_iterates (host : Endian) (swap : Bool) {ts : List Token}
    {s : PackState} {l : Layout} (hs : Packing ts s)
    (h : Lays L (s.layout ts) l) :
    ∃ us t, Iterates host L swap s t ∧ Packing us t ∧ l = t.layout us := by
  obtain ⟨cache, n, grants, c⟩ := s
  obtain ⟨hts, hle, hmax⟩ := hs
  unfold PackState.layout layoutOf at h
  simp only at hts hle hmax h
  generalize hg : (fun i => (grants i).isSome) = g at h
  generalize hal : c.alloc = alloc at h
  generalize hsz : c.size = size at h
  cases h with
  | @fits _ _ w _ t ts _ hw hfit =>
      rw [← Token.map_length_bytes t host swap, Option.map_eq_some_iff] at hw
      obtain ⟨bs, hb, rfl⟩ := hw
      have hfits : c.size + bs.length ≤ c.alloc := by omega
      refine ⟨ts, ⟨ts.map .pack, n + 1, grants, pushBytes c bs⟩,
        ⟨.pack t, ts.map .pack, hts, packIter_fits hb hmax hfits⟩,
        ⟨rfl, ?_, ?_⟩, ?_⟩
      · rw [pushBytes_alloc hfits]
        exact hfits
      · rw [pushBytes_alloc hfits]
        exact hmax
      · rw [PackState.layout, layoutOf, pushBytes_alloc hfits, pushBytes_size,
          hg, hal, hsz]
  | @grows _ alloc' _ w _ t ts _ hw hshort hroom halloc =>
      rw [← Token.map_length_bytes t host swap, Option.map_eq_some_iff] at hw
      obtain ⟨bs, hb, rfl⟩ := hw
      subst hal hsz hg
      obtain ⟨d, hds, hda, _, hrun⟩ := packIter_grows grants hb hle hshort hroom
      refine ⟨t :: ts, ⟨_, n + 1, fun i => grants (i + 1), d⟩,
        ⟨.pack t, ts.map .pack, hts, hrun _⟩, ⟨rfl, ?_, ?_⟩, ?_⟩
      · show d.size ≤ d.alloc
        split at hda <;> omega
      · show (d.alloc : Int) ≤ intMax
        split at hda <;> omega
      · have hsame : (alloc' : Int) = d.alloc := halloc.trans hda.symm
        rw [PackState.layout, layoutOf, hds, show alloc' = d.alloc by omega]

/-- The states the loop passes are the layouts reached. -/
theorem passes_reaches {host : Endian} {swap : Bool} {ts : List Token}
    {s t : PackState} (hs : Packing ts s) (h : Passes host L swap s t) :
    ∃ us, Packing us t ∧ Reaches L (s.layout ts) (t.layout us) ∧
      s.chunk.size ≤ t.chunk.size ∧
      t.chunk.data.take s.chunk.size = s.chunk.data.take s.chunk.size := by
  induction h with
  | refl => exact ⟨ts, hs, .refl, Nat.le_refl _, rfl⟩
  | tail _ hstep ih =>
      obtain ⟨us, hu, hreach, hsize, hkeep⟩ := ih
      obtain ⟨us', hu', hlays, hsize', hkeep'⟩ := iterates_lays hu hstep
      refine ⟨us', hu', hreach.tail hlays, Nat.le_trans hsize hsize', ?_⟩
      have hcut := congrArg (List.take s.chunk.size) hkeep'
      rw [List.take_take, List.take_take, Nat.min_eq_left hsize] at hcut
      rw [hcut, hkeep]

theorem reaches_passes (host : Endian) (swap : Bool) {ts : List Token}
    {s : PackState} {l : Layout} (hs : Packing ts s)
    (h : Reaches L (s.layout ts) l) :
    ∃ us t, Passes host L swap s t ∧ Packing us t ∧ l = t.layout us := by
  induction h with
  | refl => exact ⟨ts, s, .refl, hs, rfl⟩
  | tail _ hstep ih =>
      obtain ⟨us, t, hpass, ht, rfl⟩ := ih
      obtain ⟨us', t', hiter, ht', rfl⟩ := lays_iterates host swap ht hstep
      exact ⟨us', t', hpass.tail hiter, ht', rfl⟩

/-- The loop from a state is the loop from any state it passes. -/
theorem packLoop_passes {host : Endian} {swap : Bool} {s t : PackState}
    (h : Passes host L swap s t) :
    ∃ k, ∀ fuel, packLoop host L swap (fuel + k) s.cache s.luaArg s.grants
        s.chunk
      = packLoop host L swap fuel t.cache t.luaArg t.grants t.chunk := by
  induction h with
  | refl => exact ⟨0, fun _ => rfl⟩
  | tail _ hstep ih =>
      obtain ⟨k, hrun⟩ := ih
      obtain ⟨fn, cache, hcache, hiter⟩ := hstep
      refine ⟨k + 1, fun fuel => ?_⟩
      rw [Nat.add_comm k, ← Nat.add_assoc, hrun, hcache, packLoop_iter, hiter,
        ok_bind]

/-- One step of the layout is one round of the loop. -/
theorem packLoop_lays (host : Endian) (swap : Bool) {ts : List Token}
    {n : Nat} {grants : Nat → Grant} {c : AuraChunk} {l : Layout}
    (h : Lays L (layoutOf ts n grants c) l)
    (hle : c.size ≤ c.alloc) (hmax : (c.alloc : Int) ≤ intMax) :
    ∃ ts' n' grants' c', l = layoutOf ts' n' grants' c' ∧
      c'.size ≤ c'.alloc ∧ (c'.alloc : Int) ≤ intMax ∧
      ∀ fuel, packLoop host L swap (fuel + 1) (ts.map .pack) n grants c
        = packLoop host L swap fuel (ts'.map .pack) n' grants' c' := by
  obtain ⟨us, t, ⟨fn, cache, hcache, hiter⟩, ht, rfl⟩ := lays_iterates
    (s := ⟨ts.map .pack, n, grants, c⟩) host swap ⟨rfl, hle, hmax⟩ h
  refine ⟨us, t.luaArg, t.grants, t.chunk, rfl, ht.inside, ht.small,
    fun fuel => ?_⟩
  have hfields : ts.map CacheFn.pack = fn :: cache := hcache
  rw [hfields, packLoop_iter, hiter, ok_bind, ht.cache]

/-- A layout reached is a state of the loop reached. -/
theorem packLoop_reaches (host : Endian) (swap : Bool) {ts : List Token}
    {n : Nat} {grants : Nat → Grant} {c : AuraChunk} {l : Layout}
    (h : Reaches L (layoutOf ts n grants c) l)
    (hle : c.size ≤ c.alloc) (hmax : (c.alloc : Int) ≤ intMax) :
    ∃ ts' n' grants' c' k, l = layoutOf ts' n' grants' c' ∧
      c'.size ≤ c'.alloc ∧ (c'.alloc : Int) ≤ intMax ∧
      ∀ fuel, packLoop host L swap (fuel + k) (ts.map .pack) n grants c
        = packLoop host L swap fuel (ts'.map .pack) n' grants' c' := by
  obtain ⟨us, t, hpass, ht, rfl⟩ := reaches_passes
    (s := ⟨ts.map .pack, n, grants, c⟩) host swap ⟨rfl, hle, hmax⟩ h
  obtain ⟨k, hrun⟩ := packLoop_passes hpass
  refine ⟨us, t.luaArg, t.grants, t.chunk, k, rfl, ht.inside, ht.small,
    fun fuel => ?_⟩
  rw [hrun fuel, ht.cache]

/-- Where the next field cannot be laid, the loop fails. -/
theorem packLoop_closed (host : Endian) (swap : Bool) {ts : List Token}
    {n : Nat} {grants : Nat → Grant} {c : AuraChunk}
    (h : ¬ (layoutOf ts n grants c).Open L)
    (hle : c.size ≤ c.alloc) (fuel : Nat) :
    packLoop host L swap (fuel + 1) (ts.map .pack) n grants c
        = .error .outOfBounds ∨
      packLoop host L swap (fuel + 1) (ts.map .pack) n grants c
        = .error .intOverflow := by
  unfold Layout.Open layoutOf at h
  cases ts with
  | nil => simp at h
  | cons t ts =>
      simp only [List.head?_cons, Option.mem_def, Option.some.injEq] at h
      push Not at h
      obtain ⟨_, rfl, w, hw, hno, hgrow⟩ := h
      rw [← Token.map_length_bytes t host swap, Option.map_eq_some_iff] at hw
      obtain ⟨bs, hb, rfl⟩ := hw
      by_cases hint : c.size + cInt bs.length ≤ c.alloc
      · exact .inl (packLoop_overruns hb hle hint hno)
      · exact .inr (packLoop_overflows hb hle (by omega)
          (hgrow (by omega)))

/-- An open layout has a next one, unless the next string is NULL. -/
theorem Layout.Open.lays {t : Token} {ts : List Token} {n : Nat}
    {grants : Nat → Grant} {c : AuraChunk} {w : Nat}
    (h : (layoutOf (t :: ts) n grants c).Open L) (hle : c.size ≤ c.alloc)
    (hw : Token.width t L n = some w) :
    ∃ l, Lays L (layoutOf (t :: ts) n grants c) l := by
  rcases h t rfl w hw with hfit | ⟨hshort, hmax⟩
  · exact ⟨_, .fits hw hfit⟩
  · have hpos : 0 ≤ (c.alloc : Int) +
        (if (grants 0).isSome then 2 * cInt w else 0) := by
      simp only [layoutOf] at hshort
      split <;> omega
    exact ⟨_, .grows hw hshort hmax (Int.toNat_of_nonneg hpos)⟩

/-- What the loop comes to, it comes to in a layout it reaches: a chunk with
every field laid, a NULL string, or a failure at a closed layout. -/
theorem packLoop_lands (host : Endian) (swap : Bool) (fuel : Nat) :
    ∀ (ts : List Token) (n : Nat) (grants : Nat → Grant) (c : AuraChunk),
      c.size ≤ c.alloc → (c.alloc : Int) ≤ intMax →
      (∃ d l, packLoop host L swap fuel (ts.map .pack) n grants c = .ok d ∧
        Reaches L (layoutOf ts n grants c) l ∧ l.tokens = [] ∧
        l.alloc = d.alloc ∧ l.size = d.size ∧ d.size ≤ d.alloc ∧
        (d.alloc : Int) ≤ intMax) ∨
      packLoop host L swap fuel (ts.map .pack) n grants c
        = .error .nullDeref ∨
      packLoop host L swap fuel (ts.map .pack) n grants c
        = .error .outOfFuel ∨
      ∃ e l, packLoop host L swap fuel (ts.map .pack) n grants c = .error e ∧
        Reaches L (layoutOf ts n grants c) l ∧ ¬ l.Open L := by
  induction fuel with
  | zero =>
      intro ts n grants c hle hmax
      cases ts with
      | nil => exact .inl ⟨c, _, packLoop_done, .refl, rfl, rfl, rfl, hle, hmax⟩
      | cons t ts => exact .inr (.inr (.inl rfl))
  | succ fuel ih =>
      intro ts n grants c hle hmax
      cases ts with
      | nil => exact .inl ⟨c, _, packLoop_done, .refl, rfl, rfl, rfl, hle, hmax⟩
      | cons t ts =>
          by_cases hopen : (layoutOf (t :: ts) n grants c).Open L
          · cases hw : Token.width t L n with
            | none =>
                rw [← Token.map_length_bytes t host swap,
                  Option.map_eq_none_iff] at hw
                exact .inr (.inl (packLoop_null hw))
            | some w =>
                obtain ⟨l, hl⟩ := hopen.lays hle hw
                obtain ⟨us, m, gs, d, rfl, hle', hmax', hrun⟩ :=
                  packLoop_lays host swap hl hle hmax
                rw [hrun fuel]
                rcases ih us m gs d hle' hmax' with
                  ⟨e, l, he, hreach, hrest⟩ | hnull | hfuel |
                    ⟨e, l, he, hreach, hno⟩
                · exact .inl ⟨e, l, he, hreach.head hl, hrest⟩
                · exact .inr (.inl hnull)
                · exact .inr (.inr (.inl hfuel))
                · exact .inr (.inr (.inr ⟨e, l, he, hreach.head hl, hno⟩))
          · rcases packLoop_closed host swap hopen hle fuel with herr | herr
            · exact .inr (.inr (.inr ⟨_, _, herr, .refl, hopen⟩))
            · exact .inr (.inr (.inr ⟨_, _, herr, .refl, hopen⟩))

/-- When everything fits there is one way through: no layout is closed, and
the last is full by the length of the arguments. -/
theorem reaches_plain {ts : List Token} {n : Nat} {grants : Nat → Grant}
    {c : AuraChunk} {l : Layout} (hm : Matches ts (L.stack.drop n))
    (hmax : (c.alloc : Int) ≤ intMax)
    (hfit : c.size + spanAll ts (L.stack.drop n) ≤ c.alloc)
    (h : Reaches L (layoutOf ts (n + 1) grants c) l) :
    l.Open L ∧ (l.tokens = [] →
      l.alloc = c.alloc ∧ l.size = c.size + spanAll ts (L.stack.drop n)) := by
  obtain ⟨us, m, gs, e, k, rfl, hle, hmax', hrun⟩ :=
    packLoop_reaches .little false h (by omega) hmax
  constructor
  · by_contra hclosed
    obtain ⟨d, hd, _⟩ := packLoop_plain .little false grants hm
      List.prefix_rfl hmax hfit (show ts.length ≤ ts.length + 1 + k by omega)
    rw [hrun] at hd
    rcases packLoop_closed .little false hclosed hle
      ts.length with herr | herr <;> rw [herr] at hd <;> cases hd
  · intro hdone
    obtain rfl : us = [] := hdone
    obtain ⟨d, hd, hda, hds, _⟩ := packLoop_plain .little false grants hm
      List.prefix_rfl hmax hfit (show ts.length ≤ ts.length + k by omega)
    rw [hrun, List.map_nil, packLoop_done] at hd
    cases hd
    exact ⟨hda, hds⟩

/-- And the way leads to the end. -/
theorem reaches_plain_end {ts : List Token} {n : Nat} (grants : Nat → Grant)
    {c : AuraChunk} (hm : Matches ts (L.stack.drop n))
    (hmax : (c.alloc : Int) ≤ intMax)
    (hfit : c.size + spanAll ts (L.stack.drop n) ≤ c.alloc) :
    ∃ l, Reaches L (layoutOf ts (n + 1) grants c) l ∧ l.tokens = [] := by
  obtain ⟨d, hd, _⟩ := packLoop_plain .little false grants hm List.prefix_rfl
    hmax hfit (Nat.le_refl _)
  rcases packLoop_lands (L := L) .little false ts.length ts (n + 1)
      grants c (by omega) hmax with
    ⟨_, l, _, hreach, hdone, _⟩ | hnull | hfuel | ⟨_, l, _, hreach, hclosed⟩
  · exact ⟨l, hreach, hdone⟩
  · rw [hnull] at hd
    cases hd
  · rw [hfuel] at hd
    cases hd
  · exact absurd (reaches_plain hm hmax hfit hreach).1 hclosed

/-- Nothing that was laid is taken back. -/
theorem Reaches.size_le {l l' : Layout} (h : Reaches L l l') :
    l.size ≤ l'.size := by
  induction h with
  | refl => exact Nat.le_refl _
  | tail _ hstep ih =>
      cases hstep with
      | fits => exact Nat.le_trans ih (Nat.le_add_right _ _)
      | grows => exact ih

end Follow

end Aura.Proofs
