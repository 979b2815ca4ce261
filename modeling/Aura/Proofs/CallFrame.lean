import Aura.Proofs.Frame
import Aura.Proofs.Layout

/-!
# The frame of a call

`urpc_serial_call` has the arguments packed into a chunk of 256 bytes behind
the header, then writes two more bytes behind them and takes the length from
the size. Nobody checks that there are two more bytes, and nobody checks that
the size fits the one byte it is stored in. Both depend on the layout of the
packing (`callFrame_inBounds_iff`, `urpcSerialCall_length_iff`).
-/

namespace Aura.Proofs

open Aura.Lib Aura.Ref

/-! ## From the packing to the frame -/

/-- A width a device may declare for its sizes or its ids. -/
def DeclaredSize (n : Int) : Prop := n = 1 ∨ n = 2 ∨ n = 4

/-- The bytes reserved in front of the arguments. -/
def headerSize (s : SerialInstance) : Nat := (1 + s.szSz + s.idSz).toNat

/-- The fields of a call of `o`. -/
def callTokens (o : UrpcObject) : List Token := tokensOf (o.acache.getD [])

/-- How the layout of a call starts. -/
def callLayout (s : SerialInstance) (o : UrpcObject) (grants : Nat → Grant) :
    Layout :=
  ⟨256, headerSize s, callTokens o, stackStart, fun i => (grants i).isSome⟩

section Call

variable (host : Endian) (L : LuaState) (grants : Nat → Grant)
  {s : SerialInstance} {id : Nat} {o : UrpcObject} {len : Int} {fmt : UInt8}

theorem headerSize_bounds (hsz : DeclaredSize s.szSz)
    (hid : DeclaredSize s.idSz) : 3 ≤ headerSize s ∧ headerSize s ≤ 9 := by
  unfold DeclaredSize at *
  unfold headerSize
  omega

/-- A call without a block packs nothing. -/
theorem packCall_unallocated (s : SerialInstance) (fuel : Nat)
    (acache : Option (List CacheFn)) :
    packCall host none grants fuel L s acache = .ok none := by
  rw [packCall]
  by_cases hoff : 1 + s.szSz + s.idSz < 0
  · rw [if_pos hoff]
    rfl
  · rw [if_neg hoff]
    rfl

theorem packCall_uncached (hoff : 0 ≤ 1 + s.szSz + s.idSz)
    (junk : Nat → UInt8) :
    ∃ c : AuraChunk, c.alloc = 256 ∧ c.size = headerSize s ∧
      ∀ fuel, packCall host (some junk) grants fuel L s none
        = .ok (some c) := by
  obtain ⟨c, hc, halloc⟩ := auraChunkAllocate_granted junk
    (show (0 : Int) ≤ 256 by omega)
  refine ⟨{ c with size := headerSize s }, halloc, rfl, fun fuel => ?_⟩
  rw [packCall]
  rw [if_neg (not_lt.mpr hoff), ← headerSize, urpcPackData,
    show cInt ((256 : Nat) : Int) = 256 from rfl, hc]
  rfl

/-- With a block, the arguments are packed behind the header. -/
theorem packCall_packs (hcache : urpcArgcache len fmt o.args true = .ok o.acache)
    (hoff : 0 ≤ 1 + s.szSz + s.idSz) (junk : Nat → UInt8) :
    ∃ c : AuraChunk, layoutOf (callTokens o) stackStart grants c
        = callLayout s o grants ∧
      ∀ fuel, packCall host (some junk) grants fuel L s o.acache
        = some <$> packLoop host L false fuel ((callTokens o).map .pack)
          stackStart grants c := by
  cases hac : o.acache with
  | none =>
      obtain ⟨c, halloc, hsize, hpack⟩ :=
        packCall_uncached host L grants hoff junk
      have hfields : callTokens o = [] := by
        rw [callTokens, hac]
        rfl
      refine ⟨c, ?_, fun fuel => ?_⟩
      · rw [layoutOf, callLayout, halloc, hsize]
      · rw [hpack, hfields, List.map_nil, packLoop_done]
        rfl
  | some fns =>
      rw [hac] at hcache
      obtain ⟨c, hc, halloc⟩ := auraChunkAllocate_granted junk
        (show (0 : Int) ≤ 256 by omega)
      have hfields : fns = (callTokens o).map .pack := by
        rw [callTokens, hac]
        exact urpcArgcache_pack hcache
      refine ⟨{ c with size := headerSize s }, ?_, fun fuel => ?_⟩
      · have hblock : ({ c with size := headerSize s } : AuraChunk).alloc
            = 256 := halloc
        rw [layoutOf, callLayout, hblock]
      · rw [packCall]
        rw [if_neg (not_lt.mpr hoff), urpcPackData_of_allocated
          (show auraChunkAllocate (some junk) (cInt ((256 : Nat) : Int))
            = some c from hc), ← hfields, ← headerSize]

/-- From a layout a call can reach, the packing goes on: with the fuel it took
to get there and what it has left. -/
theorem packCall_reaches (hcache : urpcArgcache len fmt o.args true
      = .ok o.acache)
    (hsz : DeclaredSize s.szSz) (hid : DeclaredSize s.idSz)
    (junk : Nat → UInt8) {l : Layout}
    (hreach : Reaches L (callLayout s o grants) l) :
    ∃ ts n gs d k, l = layoutOf ts n gs d ∧ headerSize s ≤ d.size ∧
      d.size ≤ d.alloc ∧ (d.alloc : Int) ≤ intMax ∧
      ∀ fuel, packCall host (some junk) grants (fuel + k) L s o.acache
        = some <$> packLoop host L false fuel (ts.map .pack) n gs d := by
  obtain ⟨_, hnine⟩ := headerSize_bounds hsz hid
  unfold DeclaredSize at hsz hid
  obtain ⟨c, hlay, hrun⟩ :=
    packCall_packs host L grants (s := s) hcache (by omega) junk
  have halloc : c.alloc = 256 := congrArg Layout.alloc hlay
  have hsize : c.size = headerSize s := congrArg Layout.size hlay
  have hgrown : headerSize s ≤ l.size := hreach.size_le
  rw [← hlay] at hreach
  obtain ⟨ts, n, gs, d, k, rfl, hle, hmax, hloop⟩ := packLoop_reaches host
    false hreach (by omega) (by rw [halloc]; decide)
  refine ⟨ts, n, gs, d, k, rfl, hgrown, hle, hmax, fun fuel => ?_⟩
  rw [hrun, hloop]

theorem callHeader_of_object (ho : s.inst.objects[id]? = some o) (mem : Grant)
    (fuel : Nat) :
    callHeader host mem grants fuel L s id = (do
      match ← packCall host mem grants fuel L s o.acache with
      | none => pure none
      | some c => some <$> writeHeader id c) := by
  rw [callHeader, objectAt, ho]
  rfl

/-- The frame of a call is its packing, sealed. -/
theorem callFrame_of_object (ho : s.inst.objects[id]? = some o) (mem : Grant)
    (fuel : Nat) :
    callFrame host mem grants fuel L s id = (do
      match ← packCall host mem grants fuel L s o.acache with
      | none => pure none
      | some c => some <$> sealFrame id c) := by
  rw [callFrame, callHeader_of_object host L grants ho]
  cases packCall host mem grants fuel L s o.acache with
  | error e => rfl
  | ok packed =>
      cases packed with
      | none => rfl
      | some c =>
          simp only [ok_bind, sealFrame]
          cases writeHeader id c <;> rfl

theorem callFrame_object {mem : Grant} {fuel : Nat} {r : Option AuraChunk}
    (h : callFrame host mem grants fuel L s id = .ok r) :
    ∃ o, s.inst.objects[id]? = some o := by
  obtain ⟨_, hheader, _⟩ := bind_eq_ok.mp h
  obtain ⟨o, ho, _⟩ := bind_eq_ok.mp hheader
  unfold objectAt at ho
  split at ho
  · exact ⟨_, by assumption⟩
  · cases ho

theorem callFrame_unallocated (ho : s.inst.objects[id]? = some o)
    (fuel : Nat) : callFrame host none grants fuel L s id = .ok none := by
  rw [callFrame_of_object host L grants ho, packCall_unallocated]
  rfl

theorem callFrame_uncached (ho : s.inst.objects[id]? = some o)
    (hnone : o.acache = none) (hoff : 0 ≤ 1 + s.szSz + s.idSz)
    (junk : Nat → UInt8) :
    ∃ c : AuraChunk, c.alloc = 256 ∧ c.size = headerSize s ∧
      ∀ fuel, callFrame host (some junk) grants fuel L s id
        = some <$> sealFrame id c := by
  obtain ⟨c, halloc, hsize, hpack⟩ :=
    packCall_uncached host L grants hoff junk
  refine ⟨c, halloc, hsize, fun fuel => ?_⟩
  rw [callFrame_of_object host L grants ho, hnone, hpack]
  rfl

theorem callFrame_packs (ho : s.inst.objects[id]? = some o)
    (hcache : urpcArgcache len fmt o.args true = .ok o.acache)
    (hoff : 0 ≤ 1 + s.szSz + s.idSz) (junk : Nat → UInt8) :
    ∃ c : AuraChunk, layoutOf (callTokens o) stackStart grants c
        = callLayout s o grants ∧
      ∀ fuel, callFrame host (some junk) grants fuel L s id = (do
        let d ← packLoop host L false fuel ((callTokens o).map .pack)
          stackStart grants c
        some <$> sealFrame id d) := by
  obtain ⟨c, hlay, hpack⟩ := packCall_packs host L grants hcache hoff junk
  refine ⟨c, hlay, fun fuel => ?_⟩
  rw [callFrame_of_object host L grants ho, hpack]
  cases packLoop host L false fuel ((callTokens o).map .pack) stackStart grants
    c <;> rfl

theorem callFrame_eq (ho : s.inst.objects[id]? = some o)
    (hcache : urpcArgcache len fmt o.args true = .ok o.acache)
    (hsz : DeclaredSize s.szSz) (hid : DeclaredSize s.idSz)
    (junk : Nat → UInt8) :
    ∃ c : AuraChunk, layoutOf (callTokens o) stackStart grants c
        = callLayout s o grants ∧
      ∀ fuel, callFrame host (some junk) grants fuel L s id = (do
        let d ← packLoop host L false fuel ((callTokens o).map .pack)
          stackStart grants c
        some <$> sealFrame id d) := by
  unfold DeclaredSize at *
  exact callFrame_packs host L grants ho hcache (by omega) junk

theorem callFrame_reaches (ho : s.inst.objects[id]? = some o)
    (hcache : urpcArgcache len fmt o.args true = .ok o.acache)
    (hsz : DeclaredSize s.szSz) (hid : DeclaredSize s.idSz)
    (junk : Nat → UInt8) {l : Layout}
    (hreach : Reaches L (callLayout s o grants) l) :
    ∃ ts n gs d k, l = layoutOf ts n gs d ∧ headerSize s ≤ d.size ∧
      d.size ≤ d.alloc ∧ (d.alloc : Int) ≤ intMax ∧
      ∀ fuel, callFrame host (some junk) grants (fuel + k) L s id = (do
        let e ← packLoop host L false fuel (ts.map .pack) n gs d
        some <$> sealFrame id e) := by
  obtain ⟨ts, n, gs, d, k, hl, hhead, hle, hmax, hpack⟩ :=
    packCall_reaches host L grants hcache hsz hid junk hreach
  refine ⟨ts, n, gs, d, k, hl, hhead, hle, hmax, fun fuel => ?_⟩
  rw [callFrame_of_object host L grants ho, hpack]
  cases packLoop host L false fuel (ts.map .pack) n gs d <;> rfl

/-- A frame was sealed in a layout with nothing left to lay and room for the
trailer. -/
theorem callFrame_lands (ho : s.inst.objects[id]? = some o)
    (hcache : urpcArgcache len fmt o.args true = .ok o.acache)
    (hsz : DeclaredSize s.szSz) (hid : DeclaredSize s.idSz) {mem : Grant}
    {fuel : Nat} {f : AuraChunk}
    (h : callFrame host mem grants fuel L s id = .ok (some f)) :
    ∃ d l, Reaches L (callLayout s o grants) l ∧ l.tokens = [] ∧
      l.alloc = d.alloc ∧ l.size = d.size ∧ headerSize s ≤ d.size ∧
      d.size + 2 ≤ d.alloc ∧ (d.alloc : Int) ≤ intMax ∧
      sealFrame id d = .ok f := by
  cases mem with
  | none =>
      rw [callFrame_unallocated host L grants ho] at h
      cases h
  | some junk =>
      obtain ⟨c, hlay, hrun⟩ :=
        callFrame_eq host L grants ho hcache hsz hid junk
      obtain ⟨_, hnine⟩ := headerSize_bounds hsz hid
      have halloc : c.alloc = 256 := congrArg Layout.alloc hlay
      have hsize : c.size = headerSize s := congrArg Layout.size hlay
      rw [hrun] at h
      obtain ⟨d, hd, h⟩ := bind_eq_ok.mp h
      obtain ⟨f', hseal, h⟩ := bind_eq_ok.mp h
      cases h
      rcases packLoop_lands (L := L) host false fuel (callTokens o) stackStart
          grants c (by omega) (by rw [halloc]; decide) with
        ⟨e, l, he, hreach, hdone, hla, hls, _, hmax⟩ | herr | herr |
          ⟨_, _, herr, _⟩
      · cases hd.symm.trans he
        rw [hlay] at hreach
        have hgrown : headerSize s ≤ l.size := hreach.size_le
        obtain ⟨_, hroom⟩ := (sealFrame_ok_iff id (sealFrame_alloc hseal)
          hmax).mp ⟨f, hseal⟩
        exact ⟨d, l, hreach, hdone, hla, hls, hls ▸ hgrown, hroom, hmax, hseal⟩
      · cases hd.symm.trans herr
      · cases hd.symm.trans herr
      · cases hd.symm.trans herr

/-- A header the code writes whole, and room for what goes behind it. -/
def FrameFits (s : SerialInstance) (ts : List Token) (vs : List LuaValue) :
    Prop :=
  3 ≤ headerSize s ∧ headerSize s + spanAll ts vs + 2 ≤ 256

instance (s : SerialInstance) (ts : List Token) (vs : List LuaValue) :
    Decidable (FrameFits s ts vs) := inferInstanceAs (Decidable (_ ∧ _))

/-- A frame that fits: its arguments stand behind the header, encoded in the
order of the host. -/
theorem callFrame_arguments (ho : s.inst.objects[id]? = some o)
    (hcache : urpcArgcache len fmt o.args true = .ok o.acache)
    (hm : Matches (callTokens o) (L.stack.drop 2))
    (hfit : FrameFits s (callTokens o) (L.stack.drop 2)) {mem : Grant}
    {fuel : Nat} {f : AuraChunk}
    (h : callFrame host mem grants fuel L s id = .ok (some f)) :
    ∃ trailer, f.payload.drop (headerSize s)
        = encodeAll host false (callTokens o) (L.stack.drop 2) ++ trailer ∧
      f.payload[2]? = some (toByte id) := by
  obtain ⟨hhead, hroom⟩ := hfit
  have hoff : 0 ≤ 1 + s.szSz + s.idSz := by
    unfold headerSize at hhead
    omega
  cases mem with
  | none =>
      rw [callFrame_unallocated host L grants ho] at h
      cases h
  | some junk =>
      obtain ⟨c, hlay, hrun⟩ :=
        callFrame_packs host L grants ho hcache hoff junk
      have halloc : c.alloc = 256 := congrArg Layout.alloc hlay
      have hsize : c.size = headerSize s := congrArg Layout.size hlay
      have hmax : (c.alloc : Int) ≤ intMax := by
        rw [halloc]
        decide
      rw [hrun] at h
      obtain ⟨d, hd, h⟩ := bind_eq_ok.mp h
      have hfuel := packLoop_plain_fuel (n := 2) host false grants hm rfl hmax
        (by rw [hsize, halloc]; omega) hd
      obtain ⟨d', hd', hda, hds, hdp⟩ := packLoop_plain (n := 2) host false
        grants hm List.prefix_rfl hmax (by rw [hsize, halloc]; omega) hfuel
      cases hd.symm.trans hd'
      obtain ⟨f', hf', _, _, hpay⟩ := sealFrame_eq id (c := d) (by omega)
        (by omega) (by rw [hda]; exact hmax)
      rw [hf'] at h
      cases h
      have hcpay : c.payload.length = headerSize s := by
        rw [payload_length (by omega), hsize]
      refine ⟨[(frameBody id d.size (d.payload.drop 3)).sum, magicStop], ?_, ?_⟩
      · obtain ⟨k, hk⟩ : ∃ k, headerSize s = k + 3 :=
          Nat.exists_eq_add_of_le' hhead
        have hargs : (d.payload.drop 3).drop k
            = encodeAll host false (callTokens o) (L.stack.drop 2) := by
          rw [List.drop_drop, Nat.add_comm, ← hk, hdp, List.drop_left' hcpay]
        rw [hpay, hk, frameBytes, frameBody]
        show List.drop k (d.payload.drop 3 ++ _) = _
        rw [List.drop_append_of_le_length, hargs]
        rw [List.length_drop, payload_length (by omega)]
        omega
      · rw [hpay]
        rfl

/-! ## Room for the trailer -/

/-- A call kept inside its chunk: no index outside it, no overflow that would
leave the indices to chance, and a frame no larger than the block. -/
def InBounds (r : Res (Option AuraChunk)) : Prop :=
  match r with
  | .ok (some c) => c.size ≤ c.alloc
  | .error .outOfBounds => False
  | .error .intOverflow => False
  | _ => True

/-- Every grow of the call stays within an `int`, no field is copied past the
block, and the last field leaves two bytes. -/
def LeavesRoom (L : LuaState) (start : Layout) : Prop :=
  ∀ l, Reaches L start l →
    l.Open L ∧ (l.tokens = [] → l.size + 2 ≤ l.alloc)

/-- Every way a call's frame can come out. -/
theorem callFrame_inBounds_of_leavesRoom (ho : s.inst.objects[id]? = some o)
    (hcache : urpcArgcache len fmt o.args true = .ok o.acache)
    (hsz : DeclaredSize s.szSz) (hid : DeclaredSize s.idSz)
    (hroom : LeavesRoom L (callLayout s o grants)) (mem : Grant) (fuel : Nat) :
    InBounds (callFrame host mem grants fuel L s id) := by
  cases mem with
  | none =>
      rw [callFrame_unallocated host L grants ho]
      trivial
  | some junk =>
      obtain ⟨c, hlay, hrun⟩ := callFrame_eq host L grants ho hcache hsz hid junk
      obtain ⟨hthree, hnine⟩ := headerSize_bounds hsz hid
      have halloc : c.alloc = 256 := congrArg Layout.alloc hlay
      have hsize : c.size = headerSize s := congrArg Layout.size hlay
      rw [hrun]
      rcases packLoop_lands (L := L) host false fuel (callTokens o)
          stackStart grants c (by omega)
          (by rw [halloc]; decide) with
        ⟨d, l, hd, hreach, hdone, hla, hls, hle, hmax⟩ | hnull | hfuel |
          ⟨_, l, _, hreach, hclosed⟩
      · have hgrown := hreach.size_le
        rw [hlay] at hreach hgrown
        have htrailer := (hroom l hreach).2 hdone
        have hhead : (callLayout s o grants).size = headerSize s := rfl
        obtain ⟨f, hf, hfs, hfa, _⟩ := sealFrame_eq id (c := d) (by omega)
          (by omega) hmax
        rw [hd, ok_bind, hf]
        show f.size ≤ f.alloc
        omega
      · rw [hnull]
        trivial
      · rw [hfuel]
        trivial
      · rw [hlay] at hreach
        exact absurd (hroom l hreach).1 hclosed

theorem InBounds.not_escapes {r : Res (Option AuraChunk)} (h : InBounds r)
    {e : Fault} (he : r = .error e) : ¬ Escapes e := by
  subst he
  rintro (rfl | rfl) <;> exact h

/-- A call that fails for want of room fails so in some layout it reaches. -/
theorem leavesRoom_of_callFrame (ho : s.inst.objects[id]? = some o)
    (hcache : urpcArgcache len fmt o.args true = .ok o.acache)
    (hsz : DeclaredSize s.szSz) (hid : DeclaredSize s.idSz)
    (h : ∀ mem fuel e,
      callFrame host mem grants fuel L s id = .error e → ¬ Escapes e) :
    LeavesRoom L (callLayout s o grants) := by
  intro l hreach
  obtain ⟨ts, n, gs, d, k, rfl, hhead, hle, hmax, hrun⟩ :=
    callFrame_reaches host L grants ho hcache hsz hid (fun _ => 0) hreach
  obtain ⟨hthree, _⟩ := headerSize_bounds hsz hid
  have hstays := fun fuel e => h (some fun _ => 0) (fuel + k) e
  constructor
  · by_contra hclosed
    specialize hstays (0 + 1)
    rw [hrun] at hstays
    rcases packLoop_closed host false hclosed hle 0 with herr | herr
    · exact hstays _ (by rw [herr]; rfl) (.inl rfl)
    · exact hstays _ (by rw [herr]; rfl) (.inr rfl)
  · intro hdone
    obtain rfl : ts = [] := hdone
    by_contra hshort
    have hroom : ¬ d.size + 2 ≤ d.alloc := hshort
    specialize hstays 0 .outOfBounds
    rw [hrun, List.map_nil, packLoop_done, ok_bind,
      sealFrame_overruns id (by omega) hle (by omega) hmax] at hstays
    exact hstays rfl (.inl rfl)

/-- Arguments that do not make the chunk grow: the fields end where header and
arguments do. -/
theorem callLayout_plain (ho : s.inst.objects[id]? = some o)
    (hcache : urpcArgcache len fmt o.args true = .ok o.acache)
    (hsz : DeclaredSize s.szSz) (hid : DeclaredSize s.idSz)
    (hm : Matches (callTokens o) (L.stack.drop 2))
    (hfit : headerSize s + spanAll (callTokens o) (L.stack.drop 2) ≤ 256) :
    (∃ l, Reaches L (callLayout s o grants) l ∧ l.tokens = []) ∧
    ∀ l, Reaches L (callLayout s o grants) l → l.Open L ∧ (l.tokens = [] →
      l.alloc = 256 ∧
      l.size = headerSize s + spanAll (callTokens o) (L.stack.drop 2)) := by
  obtain ⟨c, hlay, _⟩ := callFrame_eq .little L grants ho hcache hsz hid
    (fun _ => 0)
  have halloc : c.alloc = 256 := congrArg Layout.alloc hlay
  have hsize : c.size = headerSize s := congrArg Layout.size hlay
  have hmax : (c.alloc : Int) ≤ intMax := by
    rw [halloc]
    decide
  rw [← hsize, ← halloc] at hfit
  rw [← hsize, ← halloc, ← hlay]
  exact ⟨reaches_plain_end grants hm hmax hfit,
    fun l hreach => reaches_plain hm hmax hfit hreach⟩

/-- A call keeps inside its chunk exactly when its layout leaves room for the
trailer. As long as no field makes the chunk grow, that is when header and
arguments take at most 254 bytes. -/
theorem callFrame_inBounds_iff (ho : s.inst.objects[id]? = some o)
    (hcache : urpcArgcache len fmt o.args true = .ok o.acache)
    (hsz : DeclaredSize s.szSz) (hid : DeclaredSize s.idSz)
    (hm : Matches (callTokens o) (L.stack.drop 2)) :
    ((∀ mem fuel, InBounds (callFrame host mem grants fuel L s id))
      ↔ LeavesRoom L (callLayout s o grants)) ∧
    (headerSize s + spanAll (callTokens o) (L.stack.drop 2) ≤ 256 →
      (LeavesRoom L (callLayout s o grants) ↔
        headerSize s + spanAll (callTokens o) (L.stack.drop 2) + 2 ≤ 256)) := by
  refine ⟨⟨fun h => leavesRoom_of_callFrame host L grants ho hcache hsz hid
      fun mem fuel _ => (h mem fuel).not_escapes,
    callFrame_inBounds_of_leavesRoom host L grants ho hcache hsz hid⟩,
    fun hfit => ?_⟩
  obtain ⟨⟨l, hreach, hdone⟩, hplain⟩ :=
    callLayout_plain L grants ho hcache hsz hid hm hfit
  constructor
  · intro hroom
    obtain ⟨hla, hls⟩ := (hplain l hreach).2 hdone
    have htrailer := (hroom l hreach).2 hdone
    rwa [hla, hls] at htrailer
  · intro htrailer l' hreach'
    obtain ⟨hopen, hend⟩ := hplain l' hreach'
    refine ⟨hopen, fun hdone' => ?_⟩
    obtain ⟨hla, hls⟩ := hend hdone'
    rwa [hla, hls]

/-- A stack with the arguments `vs` and nothing to convert. -/
def callStack (vs : List LuaValue) : LuaState :=
  ⟨.nil :: .nil :: vs, fun _ => [], fun _ => none⟩

/-- A method with the fields `ts` and no reply. -/
def methodOf (ts : List Token) : UrpcObject :=
  { flags := 0, name := none, args := some (formatOf ts)
    acache := some (ts.map .pack), reply := none, rcache := none }

/-- A discovered device with that one method and one-byte sizes and ids. -/
def deviceOf (ts : List Token) : SerialInstance :=
  { swap := false, idSz := 1, szSz := 1, rxstate := .waitStart, state := 1
    objcount := 1, inst := ⟨[methodOf ts], [methodOf ts]⟩ }

set_option maxRecDepth 4000 in
theorem callFrame_inBounds_1u :
    InBounds (callFrame .little (some fun _ => 0) (fun _ => none) 1
      (callStack [.number (7 : Int)]) (deviceOf [.u8]) 0) := by
  have hcache : urpcArgcache 0 0 (methodOf [.u8]).args true
      = .ok (methodOf [.u8]).acache := by decide
  have hiff := callFrame_inBounds_iff .little
    (callStack [.number (7 : Int)]) (fun _ => none)
    (show (deviceOf [.u8]).inst.objects[0]? = some (methodOf [.u8]) from rfl)
    hcache (.inl rfl) (.inl rfl) (.cons rfl .nil)
  have hroom := (hiff.2 (by decide)).mpr (by decide)
  have hall := hiff.1.mpr hroom
  exact hall (some fun _ => 0) 1

/-- A string of 252 characters fills the chunk: the trailer overruns it. -/
theorem callFrame_252_overruns :
    Matches (callTokens (methodOf [.string]))
      ((callStack [.string (List.replicate 252 (chr 'a'))]).stack.drop 2) ∧
    ¬ InBounds (callFrame .little (some fun _ => 0) (fun _ => none) 1
      (callStack [.string (List.replicate 252 (chr 'a'))])
      (deviceOf [.string]) 0) := by
  constructor
  · exact .cons (by decide +kernel) .nil
  · have hframe : callFrame .little (some fun _ => 0) (fun _ => none) 1
        (callStack [.string (List.replicate 252 (chr 'a'))])
        (deviceOf [.string]) 0 = .error .outOfBounds := by decide +kernel
    rw [hframe]
    exact id

/-! ## The length byte -/

/-- The length byte, read the way the receiver reads it, is the number of
bytes between it and the stop byte at the end. -/
def LengthHonest (host : Endian) (c : AuraChunk) : Prop :=
  numberToInt host c.data 1 1 = .ok (c.payload.drop 2).dropLast.length

/-- Every layout the call reaches leaves room, and when the last field is laid
there are at most 256 bytes. -/
def ShortFrames (L : LuaState) (start : Layout) : Prop :=
  LeavesRoom L start ∧ ∀ l, Reaches L start l → l.tokens = [] → l.size ≤ 256

theorem toNat_toByte {n : Nat} (h : 0 < n) :
    (toByte (n - 1)).toNat = (n - 1) % 256 := by
  rw [toByte, UInt8.toNat_ofNat']
  omega

/-- A sealed frame tells the truth about its length up to 256 bytes of header
and arguments. -/
theorem sealFrame_lengthHonest {c d : AuraChunk} (hsize : 3 ≤ c.size)
    (hroom : c.size + 2 ≤ c.alloc) (hmax : (c.alloc : Int) ≤ intMax)
    (h : sealFrame id c = .ok d) : LengthHonest host d ↔ c.size ≤ 256 := by
  obtain ⟨d', hd', hds, hda, hpay⟩ := sealFrame_eq id hsize hroom hmax
  rw [h] at hd'
  cases hd'
  have hargs : (c.payload.drop 3).length = c.size - 3 := by
    rw [List.length_drop, payload_length (by omega)]
  have hdata : d.data = frameBytes id c.size (c.payload.drop 3)
      ++ d.data.drop d.size := by
    rw [← hpay, AuraChunk.payload, List.take_append_drop]
  have hbyte : numberToInt host d.data 1 1
      = .ok (toByte ((c.size : Int) - 1)).toNat := by
    rw [numberToInt, if_pos rfl, hdata, ← host.decode_singleton]
    exact @loadWord_append 1 host [toByte ((c.size : Int) - 1)] rfl _
  rw [LengthHonest, hbyte, toNat_toByte (by omega), hpay]
  simp only [frameBytes, frameBody, List.cons_append, List.drop_succ_cons,
    List.drop_zero, Except.ok.injEq, List.length_dropLast, List.length_cons,
    List.length_append, hargs, List.length_nil]
  omega

theorem called_queues (env : CallEnv) (o : UrpcObject) (p : Port)
    (c : AuraChunk) :
    (called env o p c).xfer.transferlist = p.xfer.transferlist ∨
      (called env o p c).xfer.transferlist = p.xfer.transferlist ++ [c] := by
  rw [called_transferlist]
  rcases (auraAsyncEnqueueChunk_enqueued rfl).queue with
    ⟨_, hnew⟩ | ⟨_, hsame⟩
  · exact .inr hnew
  · exact .inl hsame

theorem called_granted {env : CallEnv} (hctl : env.ctl = true)
    (hnode : env.node = true) (o : UrpcObject) (p : Port) (c : AuraChunk) :
    (called env o p c).xfer.transferlist = p.xfer.transferlist ++ [c] := by
  rw [called_transferlist, hctl, hnode]
  exact (auraAsyncEnqueueChunk_enqueued rfl).granted

theorem urpcSerialCall_queues {env : CallEnv} {p p' : Port}
    (h : urpcSerialCall host env id p = .ok p') :
    p'.xfer.transferlist = p.xfer.transferlist ∨
      ∃ c, callFrame host env.mem env.grants env.fuel env.L p.xfer.data id
          = .ok (some c) ∧
        p'.xfer.transferlist = p.xfer.transferlist ++ [c] := by
  rcases urpcSerialCall_eq_ok h with rfl | ⟨o, c, hframe, rfl⟩
  · exact .inl rfl
  · exact (called_queues env o p c).imp_right fun hnew => ⟨c, hframe, hnew⟩

/-- With the kernel and the allocator willing, it queues it. -/
theorem urpcSerialCall_of_callFrame {mem : Grant} {fuel : Nat} {p : Port}
    {c : AuraChunk} (ho : p.xfer.data.inst.objects[id]? = some o)
    (h : callFrame host mem grants fuel L p.xfer.data id = .ok (some c)) :
    ∃ p', urpcSerialCall host ⟨L, mem, grants, fuel, true, true⟩ id p = .ok p' ∧
      p'.xfer.transferlist = p.xfer.transferlist ++ [c] := by
  rw [urpcSerialCall_of_object ho, h]
  exact ⟨_, rfl, called_granted rfl rfl o p c⟩

/-- Nothing was queued, or one frame that is honest about its length; and
nothing was written where there is no room. -/
structure HonestCall (p : Port) (r : Res Port) : Prop where
  queue : ∀ p', r = .ok p' →
    p'.xfer.transferlist = p.xfer.transferlist ∨
      ∃ c, p'.xfer.transferlist = p.xfer.transferlist ++ [c] ∧
        LengthHonest host c
  inside : ∀ e, r = .error e → ¬ Escapes e

/-- A call is honest, whatever the answers it gets on the way. -/
def QueuesHonest (id : Nat) (p : Port) : Prop :=
  ∀ mem fuel ctl node, HonestCall host p
    (urpcSerialCall host ⟨L, mem, grants, fuel, ctl, node⟩ id p)

theorem queuesHonest_of_shortFrames {p : Port}
    (ho : p.xfer.data.inst.objects[id]? = some o)
    (hcache : urpcArgcache len fmt o.args true = .ok o.acache)
    (hsz : p.xfer.data.szSz = 1) (hid : p.xfer.data.idSz = 1)
    (h : ShortFrames L (callLayout p.xfer.data o grants)) :
    QueuesHonest host L grants id p := by
  intro mem fuel ctl node
  constructor
  · intro p' hcall
    rcases urpcSerialCall_queues host hcall with hsame | ⟨f, hframe, hnew⟩
    · exact .inl hsame
    · refine .inr ⟨f, hnew, ?_⟩
      obtain ⟨d, l, hreach, hdone, hla, hls, hhead, hroom, hmax, hseal⟩ :=
        callFrame_lands host L grants ho hcache (.inl hsz) (.inl hid) hframe
      obtain ⟨hthree, _⟩ := headerSize_bounds (.inl hsz) (.inl hid)
      have hshort := h.2 l hreach hdone
      exact (sealFrame_lengthHonest host (by omega) hroom hmax hseal).mpr
        (by omega)
  · intro e hcall
    rw [urpcSerialCall_of_object ho] at hcall
    exact (callFrame_inBounds_of_leavesRoom host L grants ho hcache
      (.inl hsz) (.inl hid) h.1 mem fuel).not_escapes (map_eq_error.mp hcall)

theorem shortFrames_of_queuesHonest {p : Port}
    (ho : p.xfer.data.inst.objects[id]? = some o)
    (hcache : urpcArgcache len fmt o.args true = .ok o.acache)
    (hsz : p.xfer.data.szSz = 1) (hid : p.xfer.data.idSz = 1)
    (h : QueuesHonest host L grants id p) :
    ShortFrames L (callLayout p.xfer.data o grants) := by
  have hleaves : LeavesRoom L (callLayout p.xfer.data o grants) := by
    refine leavesRoom_of_callFrame host L grants ho hcache (.inl hsz)
      (.inl hid) fun mem fuel e hframe => ?_
    refine (h mem fuel true true).inside e ?_
    rw [urpcSerialCall_of_object ho, hframe]
    rfl
  refine ⟨hleaves, fun l hreach hdone => ?_⟩
  have hroom := (hleaves l hreach).2 hdone
  obtain ⟨ts, n, gs, d, k, rfl, hhead, hle, hmax, hrun⟩ :=
    callFrame_reaches host L grants ho hcache (.inl hsz) (.inl hid)
      (fun _ => 0) hreach
  obtain ⟨hthree, _⟩ := headerSize_bounds (.inl hsz) (.inl hid)
  obtain rfl : ts = [] := hdone
  obtain ⟨f, hf, _⟩ := sealFrame_eq id (c := d) (by omega) hroom hmax
  have hframe : callFrame host (some fun _ => 0) grants (0 + k) L p.xfer.data id
      = .ok (some f) := by
    rw [hrun, List.map_nil, packLoop_done, ok_bind, hf]
    rfl
  obtain ⟨p', hcall, hnew⟩ := urpcSerialCall_of_callFrame host L grants ho
    hframe
  rcases (h (some fun _ => 0) (0 + k) true true).queue p' hcall with hsame | ⟨g, hg, hhonest⟩
  · rw [hsame] at hnew
    simp at hnew
  · rw [hnew, List.append_cancel_left_eq, List.cons.injEq] at hg
    obtain ⟨rfl, _⟩ := hg
    exact (sealFrame_lengthHonest host (by omega) hroom hmax hf).mp hhonest

/-- With sizes and ids of one byte, a call is honest exactly when its layout
leaves room for the trailer and has at most 256 bytes in the end. As long as no
field makes the chunk grow, that is when header and arguments take at most 254
bytes. -/
theorem urpcSerialCall_length_iff {p : Port}
    (ho : p.xfer.data.inst.objects[id]? = some o)
    (hcache : urpcArgcache len fmt o.args true = .ok o.acache)
    (hsz : p.xfer.data.szSz = 1) (hid : p.xfer.data.idSz = 1)
    (hm : Matches (callTokens o) (L.stack.drop 2)) :
    (QueuesHonest host L grants id p
      ↔ ShortFrames L (callLayout p.xfer.data o grants)) ∧
    (3 + spanAll (callTokens o) (L.stack.drop 2) ≤ 256 →
      (ShortFrames L (callLayout p.xfer.data o grants) ↔
        3 + spanAll (callTokens o) (L.stack.drop 2) + 2 ≤ 256)) := by
  refine ⟨⟨shortFrames_of_queuesHonest host L grants ho hcache hsz hid,
    queuesHonest_of_shortFrames host L grants ho hcache hsz hid⟩,
    fun hfit => ?_⟩
  have hhead : headerSize p.xfer.data = 3 := by
    rw [headerSize, hsz, hid]
    rfl
  obtain ⟨⟨l, hreach, hdone⟩, hplain⟩ := callLayout_plain L grants ho
    hcache (.inl hsz) (.inl hid) hm (by omega)
  constructor
  · intro hshort
    obtain ⟨hla, hls⟩ := (hplain l hreach).2 hdone
    have htrailer := (hshort.1 l hreach).2 hdone
    omega
  · intro htrailer
    have hend := fun l' hreach' => (hplain l' hreach').2
    exact ⟨fun l' hreach' => ⟨(hplain l' hreach').1, fun hdone' => by
        have := hend l' hreach' hdone'
        omega⟩,
      fun l' hreach' hdone' => by
        have := hend l' hreach' hdone'
        omega⟩

end Call

/-- A transfer object with nothing queued, over an empty receive buffer. -/
def portOf (s : SerialInstance) : Port :=
  { xfer :=
      { transferlist := [], pos := 0, expectBytes := 1
        recv := ⟨List.replicate 256 0, 0⟩
        hook := ⟨0, ⟨true, false⟩⟩, data := s, handleData := .packets }
    efd := fun _ => none }

theorem urpcSerialCall_honest_1u :
    QueuesHonest .little (callStack [.number (7 : Int)]) (fun _ => none) 0
      (portOf (deviceOf [.u8])) := by
  have hcache : urpcArgcache 0 0 (methodOf [.u8]).args true
      = .ok (methodOf [.u8]).acache := by decide
  obtain ⟨hiff, hplain⟩ := urpcSerialCall_length_iff .little
    (callStack [.number (7 : Int)]) (fun _ => none)
    (show (portOf (deviceOf [.u8])).xfer.data.inst.objects[0]?
      = some (methodOf [.u8]) from rfl)
    hcache rfl rfl (.cons rfl .nil)
  exact hiff.mpr ((hplain (by decide)).mpr (by decide))

/-- A string of 251 characters and a number: the chunk grows, the frame has
258 bytes between length and stop byte, and the length byte is 2. -/
theorem urpcSerialCall_dishonest_251 :
    Matches (callTokens (methodOf [.string, .u32]))
      ((callStack [.string (List.replicate 251 (chr 'a')),
        .number (7 : Int)]).stack.drop 2) ∧
    ¬ QueuesHonest .little
      (callStack [.string (List.replicate 251 (chr 'a')), .number (7 : Int)])
      (fun _ => some fun _ => 0) 0 (portOf (deviceOf [.string, .u32])) := by
  constructor
  · exact .cons (by decide +kernel) (.cons rfl .nil)
  · intro h
    let frame : AuraChunk :=
      ⟨[91, 2, 0] ++ List.replicate 251 97 ++ [0, 0, 0, 0, 0, 29, 93, 0, 0, 0],
        261⟩
    have hframe : callFrame .little (some fun _ => 0) (fun _ => some fun _ => 0)
        4 (callStack [.string (List.replicate 251 (chr 'a')),
          .number (7 : Int)]) (deviceOf [.string, .u32]) 0
        = .ok (some frame) := by decide +kernel
    obtain ⟨p', hcall, hnew⟩ := urpcSerialCall_of_callFrame
      (p := portOf (deviceOf [.string, .u32])) (o := methodOf [.string, .u32])
      .little _ _ rfl hframe
    rcases (h (some fun _ => 0) 4 true true).queue p' hcall with hsame | ⟨c, hc, hhonest⟩
    · rw [hsame] at hnew
      simp at hnew
    · rw [hnew, List.append_cancel_left_eq, List.cons.injEq] at hc
      obtain ⟨rfl, _⟩ := hc
      have hlie : numberToInt .little frame.data 1 1 = .ok 2 := by
        decide +kernel
      have hlen : (frame.payload.drop 2).dropLast.length = 258 := by
        decide +kernel
      rw [LengthHonest, hlie, hlen] at hhonest
      cases hhonest

end Aura.Proofs
