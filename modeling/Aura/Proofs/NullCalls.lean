import Mathlib.Data.List.TakeWhile
import Aura.Proofs.Calls
import Aura.Proofs.NullLists
import Aura.Ref.NullCall

/-!
# Calls of the null transport

The second discovery of the null transport leaves the lists of its instances in
pieces (`unshared_iff`). Its calls do not notice: they go by the arrays, and the
objects these lead to are static, each with the caches any discovery gives it
(`NullInv`). So a node that `urpc_open` has made answers its calls whatever
scripts do later, to it or to others (`null_node_answers`). What it answers is
the name of the host, and for `unpacknumbers` the numbers that the first five
bytes of it make up, two of which overlap the next.
-/

namespace Aura.Proofs

open Aura.Lib Aura.Ref

/-! ## Numbers -/

/-- The values at the front of a buffer. Each field is one byte behind the one
before, whatever its width. -/
def numbersAt (host : Endian) : List Token → List UInt8 → List LuaValue
  | [], _ => []
  | t :: ts, buf =>
      match Token.int? t with
      | none => numbersAt host ts buf
      | some (signed, k) =>
          .number (readNumber signed k (host.decode (buf.take k))) ::
            numbersAt host ts (buf.drop 1)

/-- Fields of numbers, all within the buffer. -/
def NumbersIn : List Token → Nat → Prop
  | [], _ => True
  | t :: ts, len =>
      (∃ signed k, Token.int? t = some (signed, k) ∧ k ≤ len) ∧
        NumbersIn ts (len - 1)

theorem unpackLoop_numbers (host : Endian) {ts : List Token} {buf : List UInt8}
    (h : NumbersIn ts buf.length) (pushed : List LuaValue) (i : Nat) :
    unpackLoop host false (ts.map .unpack) buf pushed i
      = .ok (pushed ++ numbersAt host ts buf, i + ts.length) := by
  induction ts generalizing buf pushed i with
  | nil => simp [unpackLoop, numbersAt]
  | cons t ts ih =>
      obtain ⟨⟨signed, k, hint, hk⟩, hrest⟩ := h
      have hone := Token.unpack_int hint host false
        (List.length_take_of_le hk) (buf.drop k)
      rw [List.take_append_drop] at hone
      rw [List.map_cons, unpackLoop]
      simp only [CacheFn.callUnpack, hone, ok_bind]
      rw [ih (by rwa [List.length_drop]), numbersAt, hint]
      simp only [List.append_assoc, List.singleton_append, List.length_cons,
        Nat.add_assoc, Nat.add_comm 1]
      rfl

/-- The bytes numbers take when they are packed. -/
def widths (ts : List Token) : Nat :=
  (ts.map fun t => ((Token.int? t).map Prod.snd).getD 0).sum

/-- Numbers can be made of any arguments, so packing them where they have room
never fails. -/
theorem packLoop_numbers (host : Endian) (L : LuaState) (swap : Bool)
    {ts : List Token} (hints : ∀ t ∈ ts, Token.int? t ≠ none) {n fuel : Nat}
    (grants : Nat → Grant) {c : AuraChunk} (hmax : (c.alloc : Int) ≤ intMax)
    (hfit : c.size + widths ts ≤ c.alloc) (hfuel : ts.length ≤ fuel) :
    ∃ d, packLoop host L swap fuel (ts.map .pack) n grants c = .ok d ∧
      d.alloc = c.alloc ∧ d.size = c.size + widths ts := by
  induction ts generalizing n fuel c with
  | nil => exact ⟨c, by rw [List.map_nil, packLoop_done], rfl, rfl⟩
  | cons t ts ih =>
      obtain ⟨⟨signed, k⟩, hint⟩ :=
        Option.ne_none_iff_exists'.mp (hints t (List.mem_cons_self ..))
      have hwidths : widths (t :: ts) = k + widths ts := by
        simp only [widths, List.map_cons, List.sum_cons, hint, Option.map_some,
          Option.getD_some]
      have hb : Token.bytes t host swap L n
          = some (numberBytes k host swap (luaToNumber L n)) := by
        rw [Token.bytes, hint]
      have hfits : c.size + (numberBytes k host swap (luaToNumber L n)).length
          ≤ c.alloc := by
        rw [length_numberBytes]
        omega
      cases fuel with
      | zero => simp at hfuel
      | succ fuel =>
          have halloc := pushBytes_alloc hfits
          have hsize := pushBytes_size c
            (numberBytes k host swap (luaToNumber L n))
          rw [length_numberBytes] at hsize
          obtain ⟨d, hd, hda, hds⟩ := ih
            (fun u hu => hints u (List.mem_cons_of_mem _ hu))
            (n := n + 1)
            (c := pushBytes c (numberBytes k host swap (luaToNumber L n)))
            (by rw [halloc]; exact hmax) (by rw [halloc, hsize]; omega)
            (show ts.length ≤ fuel by simpa using hfuel)
          refine ⟨d, ?_, hda.trans halloc, ?_⟩
          · rw [List.map_cons, packLoop_fits hb hmax hfits]
            exact hd
          · rw [hds, hsize, hwidths, Nat.add_assoc]

/-! ## The objects -/

/-- The fields of `packnumbers` and `unpacknumbers`. -/
def fourNumbers : List Token := [.s8, .s16, .u8, .u16]

def nullArgs : NullAddr → Option (List Token)
  | .o2 => some fourNumbers
  | _ => none

def nullReply : NullAddr → Option (List Token)
  | .o1 => some [.string]
  | .o3 => some fourNumbers
  | _ => none

/-- An object with its caches. -/
def withCaches (a : NullAddr) (o : UrpcObject) : UrpcObject :=
  { o with
    acache := (nullArgs a).map (·.map .pack)
    rcache := (nullReply a).map (·.map .unpack) }

/-- The objects once a discovery has been through them. -/
def cachedNull (a : NullAddr) : Option UrpcObject :=
  (nullObject a).map (withCaches a)

/-- Cached or not, an object has the same formats. -/
theorem nullObject_formats {a : NullAddr} {o : UrpcObject}
    (h : nullObject a = some o ∨ cachedNull a = some o) :
    objectIsMethod o = true ∧ o.args = (nullArgs a).map formatOf ∧
      o.reply = (nullReply a).map formatOf ∧
      cachedNull a = some (withCaches a o) := by
  cases a with
  | head k => rcases h with h | h <;> cases h
  | o1 | o2 | o3 => rcases h with h | h <;> cases h <;> exact ⟨rfl, rfl, rfl, rfl⟩

theorem urpcArgcache_option (pack : Bool) (ts : Option (List Token))
    (len : Int) (fmt : UInt8) :
    urpcArgcache len fmt (ts.map formatOf) pack
      = .ok (ts.map (·.map (Token.fn pack))) := by
  cases ts with
  | none => rfl
  | some ts => exact urpcArgcache_formatOf pack ts len fmt

theorem cacheObject_formats (l : ArgcacheLocals) {o : UrpcObject}
    (hmethod : objectIsMethod o = true) {args reply : Option (List Token)}
    (hargs : o.args = args.map formatOf)
    (hreply : o.reply = reply.map formatOf) :
    cacheObject l o = .ok { o with
      acache := args.map (·.map (Token.fn true))
      rcache := reply.map (·.map (Token.fn false)) } := by
  rw [cacheObject, if_pos hmethod, hargs, urpcArgcache_option, ok_bind, hreply,
    urpcArgcache_option, ok_bind, ← hargs, ← hreply]
  rfl

/-- What the locals of `urpc_argcache` held does not show, nor whether the
object has been through it before. -/
theorem cacheObject_null (l : ArgcacheLocals) {a : NullAddr} {o : UrpcObject}
    (h : nullObject a = some o ∨ cachedNull a = some o) :
    cacheObject l o = .ok (withCaches a o) ∧
      cachedNull a = some (withCaches a o) := by
  obtain ⟨hmethod, hargs, hreply, hcached⟩ := nullObject_formats h
  exact ⟨cacheObject_formats l hmethod hargs hreply, hcached⟩

/-- Each object is as it was initialised or cached. -/
def Statics (objects : NullAddr → Option UrpcObject) : Prop :=
  ∀ a, objects a = nullObject a ∨ objects a = cachedNull a

theorem cacheNull_eq (locals : Nat → ArgcacheLocals) {j : Nat}
    {as : List NullAddr} (has : ∀ a ∈ as, nullObject a ≠ none)
    {objects : NullAddr → Option UrpcObject} (h : Statics objects) :
    ∃ objects', cacheNull locals j as objects = .ok objects' ∧
      Statics objects' ∧
      ∀ a, a ∈ as ∨ objects a = cachedNull a → objects' a = cachedNull a := by
  induction as generalizing j objects with
  | nil =>
      refine ⟨objects, rfl, h, fun a ha => ?_⟩
      exact ha.resolve_left List.not_mem_nil
  | cons a as ih =>
      obtain ⟨o, ho⟩ : ∃ o, objects a = some o := by
        obtain ⟨o, ho⟩ := Option.ne_none_iff_exists'.mp
          (has a (List.mem_cons_self ..))
        rcases h a with hnull | hcached
        · exact ⟨o, hnull.trans ho⟩
        · exact ⟨_, hcached.trans (congrArg (Option.map (withCaches a)) ho)⟩
      have hformats : nullObject a = some o ∨ cachedNull a = some o := by
        rw [← ho]
        exact (h a).imp Eq.symm Eq.symm
      obtain ⟨hcache, hcached⟩ := cacheObject_null (locals j) hformats
      have hset : ∀ b, b = a ∨ objects b = cachedNull b →
          (if b = a then some (withCaches a o) else objects b)
            = cachedNull b := by
        intro b hb
        by_cases hba : b = a
        · rw [if_pos hba, hba]
          exact hcached.symm
        · rw [if_neg hba]
          exact hb.resolve_left hba
      have hnext : Statics fun b =>
          if b = a then some (withCaches a o) else objects b := by
        intro b
        by_cases hba : b = a
        · exact .inr (hset b (.inl hba))
        · simp only [if_neg hba]
          exact h b
      obtain ⟨objects', hrest, hstatics, hall⟩ :=
        ih (j := j + 1) (fun b hb => has b (List.mem_cons_of_mem _ hb)) hnext
      refine ⟨objects', ?_, hstatics, fun b hb => hall b ?_⟩
      · rw [cacheNull, ho]
        simp only [hcache, ok_bind]
        exact hrest
      · rw [List.mem_cons, or_assoc] at hb
        rcases hb with hba | hb | hb
        · exact .inr (hset b (.inl hba))
        · exact .inl hb
        · exact .inr (hset b (.inr hb))

/-! ## The invariant -/

/-- What holds of the null transport at any time: the array of an instance that
was discovered leads to the three objects, and these are cached. -/
structure NullInv (w : NullWorld) : Prop where
  linked : ∃ ds, Linked w.lists ds
  objects : ∀ k, w.lists.objects k = none ∨
    w.lists.objects k = some [.o1, .o2, .o3]
  statics : Statics w.statics
  cached : (∃ k, w.lists.objects k ≠ none) → w.statics = cachedNull
  reply : w.reply.length = 64

theorem nullInv_start : NullInv nullWorldStart where
  linked := ⟨[], linked_start⟩
  objects := fun _ => .inl rfl
  statics := fun _ => .inl rfl
  cached := fun ⟨_, hk⟩ => absurd rfl hk
  reply := rfl

/-- An array that is there stays, and leads where it did. -/
def Lasting (w w' : NullWorld) : Prop :=
  ∀ k, w.lists.objects k ≠ none → w'.lists.objects k = w.lists.objects k

theorem NullInv.opens {w : NullWorld} (h : NullInv w) {argc : Nat}
    {priv inst : Bool} {lists : NullState}
    (hopen : lUrpcOpenNull argc priv inst w.lists = .ok lists) :
    NullInv { w with lists } ∧ Lasting w { w with lists } := by
  obtain ⟨ds, hlinked⟩ := h.linked
  have hobjects : ∀ k, lists.objects k = w.lists.objects k ∨
      lists.objects k = none ∧ w.lists.objects k = none := by
    intro k
    rw [lUrpcOpenNull] at hopen
    split at hopen
    · cases hopen
      exact .inl rfl
    · split at hopen
      · cases hopen
        by_cases hk : k = w.lists.opened
        · refine .inr ⟨if_pos hk, ?_⟩
          by_contra hne
          have hlt := hlinked.opened k ((hlinked.objects k).mp hne)
          omega
        · exact .inl (if_neg hk)
      · cases hopen
  refine ⟨⟨⟨ds, hlinked.opens hopen⟩, fun k => ?_, h.statics, ?_, h.reply⟩,
    fun k hk => ?_⟩
  · rcases hobjects k with hsame | ⟨hnone, _⟩
    · exact (h.objects k).imp hsame.trans hsame.trans
    · exact .inl hnone
  · rintro ⟨k, hk⟩
    refine h.cached ⟨k, ?_⟩
    rcases hobjects k with hsame | ⟨hnone, _⟩
    · rwa [← hsame]
    · exact absurd hnone hk
  · rcases hobjects k with hsame | ⟨_, hnone⟩
    · exact hsame
    · exact absurd hnone hk

theorem cacheNull_found (locals : Nat → ArgcacheLocals)
    {objects : NullAddr → Option UrpcObject} (h : Statics objects) :
    cacheNull locals 0 [.o1, .o2, .o3] objects = .ok cachedNull := by
  obtain ⟨objects', hrun, hstatics, hall⟩ :=
    @cacheNull_eq locals 0 [.o1, .o2, .o3] (by simp [nullObject]) objects h
  rw [hrun]
  congr 1
  funext a
  cases a with
  | head k =>
      rcases hstatics (.head k) with hnull | hcached
      · exact hnull
      · exact hcached
  | o1 | o2 | o3 => exact hall _ (.inl (by simp))

/-- A discovery that goes through tells Lua of the three objects. -/
theorem NullInv.discovers {w w' : NullWorld} (h : NullInv w) {k : Nat}
    {mem : Bool} {locals : Nat → ArgcacheLocals} {table : List LuaObject}
    (hd : discoverNull k mem locals w = .ok (table, w')) :
    NullInv w' ∧ Lasting w w' ∧
      w'.lists.objects k = some [.o1, .o2, .o3] ∧
      table = [NullAddr.o1, .o2, .o3].filterMap fun a =>
        (cachedNull a).map luaObject := by
  obtain ⟨ds, hlinked⟩ := h.linked
  obtain ⟨lists, hlists, hd⟩ := bind_eq_ok.mp hd
  have hlinked' := hlinked.discovers hlists
  obtain ⟨_, p, _, _, rfl⟩ := hlinked.discovered hlists
  simp only [if_true, Option.getD_some, cacheNull_found locals h.statics,
    ok_bind] at hd
  cases hd
  refine ⟨⟨⟨_, hlinked'⟩, fun j => ?_, fun _ => .inr rfl, fun _ => rfl, h.reply⟩,
    fun j hj => ?_, if_pos rfl, rfl⟩
  · by_cases hjk : j = k
    · exact .inr (if_pos hjk)
    · simp only [if_neg hjk]
      exact h.objects j
  · by_cases hjk : j = k
    · simp only [hjk]
      rw [hjk] at hj
      exact ((h.objects k).resolve_left hj).symm
    · exact if_neg hjk

theorem gethostname_length (name buf : List UInt8) (len : Nat)
    (h : len ≤ buf.length) : (gethostname name len buf).length = buf.length := by
  rw [gethostname, List.length_append, List.length_take, List.length_drop,
    List.length_append, List.length_singleton]
  omega

/-- A call writes to the buffer and to nothing else. -/
theorem urpcNullCall_frame {host : Endian} {env : NullCallEnv} {k id : Nat}
    {w w' : NullWorld} {vs : List LuaValue}
    (h : urpcNullCall host env k id w = .ok (vs, w')) :
    w' = w ∨ w' = { w with reply := gethostname env.hostname 64 w.reply } := by
  rw [urpcNullCall] at h
  split at h
  · cases h
  · split at h
    · cases h
    · obtain ⟨chunk, _, h⟩ := bind_eq_ok.mp h
      split at h
      · cases h
        exact .inl rfl
      · split at h
        · cases h
        · split at h
          · obtain ⟨_, _, h⟩ := bind_eq_ok.mp h
            cases h
            exact .inr rfl
          · cases h
            exact .inr rfl

theorem NullInv.calls {w w' : NullWorld} (h : NullInv w) {host : Endian}
    {env : NullCallEnv} {i : Option Nat} {vs : List LuaValue}
    (hc : lUrpcCall env.L (fun id k => urpcNullCall host env k id w) i
      = .ok (vs, w')) :
    NullInv w' ∧ Lasting w w' := by
  have hframe : w' = w ∨
      w' = { w with reply := gethostname env.hostname 64 w.reply } := by
    unfold lUrpcCall at hc
    split at hc
    · cases hc
    · simp only [] at hc
      split at hc
      · cases hc
      · exact urpcNullCall_frame hc
  rcases hframe with rfl | rfl
  · exact ⟨h, fun _ _ => rfl⟩
  · refine ⟨⟨h.linked, h.objects, h.statics, h.cached, ?_⟩, fun _ _ => rfl⟩
    rw [gethostname_length _ _ _ (Nat.le_of_eq h.reply.symm), h.reply]

theorem NullInv.step {host : Endian} {w w' : NullWorld} (h : NullInv w)
    {e : NullScript} (hs : nullScriptStep host w e = .ok w') :
    NullInv w' ∧ Lasting w w' := by
  cases e with
  | opens argc priv inst =>
      obtain ⟨lists, hlists, hs⟩ := bind_eq_ok.mp hs
      cases hs
      exact h.opens hlists
  | discovers k mem locals =>
      obtain ⟨⟨table, w⟩, hd, hs⟩ := bind_eq_ok.mp hs
      cases hs
      obtain ⟨hinv, hlasting, _⟩ := h.discovers hd
      exact ⟨hinv, hlasting⟩
  | calls env i =>
      obtain ⟨⟨vs, w⟩, hc, hs⟩ := bind_eq_ok.mp hs
      cases hs
      exact h.calls hc

/-- Whatever scripts do. -/
def anyScript (_ : NullWorld) (_ : NullScript) : Prop := True

theorem NullInv.run {host : Endian} {w w' : NullWorld} (h : NullInv w)
    (hrun : Runs (nullScriptStep host) anyScript w w') :
    NullInv w' ∧ Lasting w w' := by
  refine hrun.invariant (I := fun u => NullInv u ∧ Lasting w u) ?_
    ⟨h, fun _ _ => rfl⟩
  rintro u e v ⟨hinv, hlasting⟩ _ hs
  obtain ⟨hinv', hnext⟩ := hinv.step hs
  refine ⟨hinv', fun k hk => ?_⟩
  rw [hnext k (by rwa [hlasting k hk]), hlasting k hk]

/-! ## Answers -/

section Answers

variable {host : Endian} {env : NullCallEnv} {w : NullWorld} {k : Nat}

/-- The arguments of a call are packed whatever they are. -/
theorem urpcPackData_null (host : Endian) (junk : Nat → UInt8)
    (grants : Nat → Grant) {fuel : Nat} (hfuel : 4 ≤ fuel) (L : LuaState)
    (a : NullAddr) :
    ∃ c, urpcPackData host (some junk) grants fuel L 256 0
        ((nullArgs a).map (·.map .pack)) false = .ok (some c) ∧
      c.size ≤ c.alloc := by
  obtain ⟨c, hc, halloc⟩ :=
    auraChunkAllocate_granted junk (show (0 : Int) ≤ 256 by decide)
  rw [← show cInt (256 : Nat) = 256 from rfl] at hc
  have hroom : ({ c with size := 0 } : AuraChunk).alloc = 256 := halloc
  cases hargs : nullArgs a with
  | none =>
      refine ⟨{ c with size := 0 }, ?_, Nat.zero_le _⟩
      rw [urpcPackData, hc]
      rfl
  | some ts =>
      have hts : ts = fourNumbers := by
        cases a <;> cases hargs
        rfl
      subst hts
      have hwidths : widths fourNumbers = 6 := rfl
      obtain ⟨d, hd, hda, hds⟩ := packLoop_numbers host L false
        (show ∀ t ∈ fourNumbers, Token.int? t ≠ none by decide) (n := stackStart)
        grants (c := { c with size := 0 }) (by rw [hroom]; unfold intMax; omega)
        (by rw [hroom, hwidths]; exact Nat.le_of_ble_eq_true rfl)
        (show fourNumbers.length ≤ fuel from hfuel)
      refine ⟨d, ?_, ?_⟩
      · rw [Option.map_some, urpcPackData_of_allocated hc, hd]
        rfl
      · rw [hda, hds, hroom, hwidths]
        exact Nat.le_of_ble_eq_true rfl

/-- What the host's name makes of a buffer, to one who reads a string. -/
theorem cstrAt_gethostname {name buf : List UInt8} (hname : 0 ∉ name)
    (hbuf : buf.length = 64) :
    cstrAt (gethostname name 64 buf) 0 =
      if name.length < 64 then .ok name else .error .outOfBounds := by
  have hlen := gethostname_length name buf 64 (Nat.le_of_eq hbuf.symm)
  have hnonzero : ∀ b ∈ name, decide (b ≠ 0) = true := fun b hb =>
    decide_eq_true fun hz => hname (hz ▸ hb)
  by_cases hshort : name.length < 64
  · have hwhole : gethostname name 64 buf = [] ++ (name ++ [0] ++
        buf.drop (min 64 (name.length + 1))) := by
      rw [gethostname, List.take_of_length_le (by simp; omega),
        List.nil_append]
    rw [if_pos hshort, hwhole]
    exact cstrAt_append hname [] _
  · have hcut : gethostname name 64 buf = name.take 64 := by
      rw [gethostname, List.take_append_of_le_length (by omega),
        List.drop_of_length_le (by omega), List.append_nil]
    have hall : (name.take 64).takeWhile (fun b => decide (b ≠ 0))
        = name.take 64 :=
      List.takeWhile_eq_self_iff.mpr fun b hb =>
        hnonzero b (List.mem_of_mem_take hb)
    rw [if_neg hshort, cstrAt, hcut, List.drop_zero, hall]
    exact if_neg (by omega)

/-- The values a call of an object returns; `buf` holds the host's name. -/
def nullAnswer (host : Endian) (name buf : List UInt8) :
    NullAddr → Res (List LuaValue)
  | .o1 =>
      if name.length < 64 then .ok [.string name] else .error .outOfBounds
  | .o3 => .ok (numbersAt host fourNumbers buf)
  | _ => .ok []

theorem urpcUnpackData_null {name buf : List UInt8} (hname : 0 ∉ name)
    (hbuf : buf.length = 64) {a : NullAddr} {ts : List Token}
    (hts : nullReply a = some ts) :
    (urpcUnpackData host (gethostname name 64 buf) (some (ts.map .unpack))
      false).map (fun r => r.1.drop (r.1.length - r.2))
      = nullAnswer host name (gethostname name 64 buf) a := by
  have hlen := gethostname_length name buf 64 (Nat.le_of_eq hbuf.symm)
  cases a with
  | o1 =>
      cases hts
      rw [urpcUnpackData, nullAnswer]
      simp only [List.map_cons, List.map_nil, unpackLoop, CacheFn.callUnpack,
        Token.unpack, urpcUnpackString, cstrAt_gethostname hname hbuf]
      by_cases hshort : name.length < 64
      · simp only [if_pos hshort]
        rfl
      · simp only [if_neg hshort]
        rfl
  | o3 =>
      cases hts
      have hin : NumbersIn fourNumbers (gethostname name 64 buf).length := by
        rw [hlen, hbuf]
        exact ⟨⟨_, _, rfl, by decide⟩, ⟨_, _, rfl, by decide⟩,
          ⟨_, _, rfl, by decide⟩, ⟨_, _, rfl, by decide⟩, trivial⟩
      rw [urpcUnpackData]
      simp only [unpackLoop_numbers host hin]
      rfl
  | o2 => cases hts
  | head j => cases hts

/-- A call of an instance that was discovered. -/
theorem urpcNullCall_answers (h : NullInv w)
    (hk : w.lists.objects k ≠ none) (hfuel : 4 ≤ env.fuel)
    (hname : 0 ∉ env.hostname) {id : Nat} {a : NullAddr}
    (ha : [NullAddr.o1, .o2, .o3][id]? = some a) :
    (urpcNullCall host env k id w).map Prod.fst =
      if env.mem.isNone then .ok []
      else nullAnswer host env.hostname (gethostname env.hostname 64 w.reply)
        a := by
  have hobjects := (h.objects k).resolve_left hk
  obtain ⟨o, ho⟩ : ∃ o, nullObject a = some o := by
    cases a with
    | head j => exact absurd (List.mem_of_getElem? ha) (by simp)
    | o1 | o2 | o3 => exact ⟨_, rfl⟩
  have hstatic : w.statics a = some (withCaches a o) := by
    rw [h.cached ⟨k, hk⟩, cachedNull, ho]
    rfl
  have hreply : (withCaches a o).reply = (nullReply a).map formatOf :=
    (nullObject_formats (.inl ho)).2.2.1
  rw [urpcNullCall, hobjects]
  simp only [ha, Option.bind_some, hstatic]
  cases hmem : env.mem with
  | none => rfl
  | some junk =>
      obtain ⟨c, hc, hsize⟩ := urpcPackData_null host junk env.grants hfuel
        env.L a
      rw [show (withCaches a o).acache = (nullArgs a).map (·.map .pack) from rfl,
        hc, show (withCaches a o).rcache = (nullReply a).map (·.map .unpack)
          from rfl, hreply]
      simp only [ok_bind, if_neg (Nat.not_lt.mpr hsize), Option.isSome_map,
        Option.isNone_some, Bool.false_eq_true, if_false]
      cases hts : nullReply a with
      | none =>
          have htwo : nullAnswer host env.hostname
              (gethostname env.hostname 64 w.reply) a = .ok [] := by
            cases a <;> cases hts <;> rfl
          rw [htwo]
          rfl
      | some ts =>
          rw [← urpcUnpackData_null hname h.reply hts, Option.map_some,
            if_pos (show (some ts).isSome = true from rfl), map_bind]
          cases urpcUnpackData host (gethostname env.hostname 64 w.reply)
            (some (ts.map .unpack)) false <;> rfl

end Answers

/-! ## Nodes -/

/-- The functions of a node of the null transport. -/
structure NullNode (node : LuaNode) : Prop where
  inst : node instanceKey = some .inst
  hostname : node ("hostname".toList.map chr) = some (.method 1)
  packnumbers : node ("packnumbers".toList.map chr) = some (.method 2)
  unpacknumbers : node ("unpacknumbers".toList.map chr) = some (.method 3)

/-- The table a discovery returns. -/
def nullTable : List LuaObject :=
  [NullAddr.o1, .o2, .o3].filterMap fun a => (cachedNull a).map luaObject

theorem nullNode_of_loop {entries : List (Nat × LuaObject)} {node : LuaNode}
    (hentries : entries.Perm (luaTable nullTable))
    (h : urpcOpenLoop entries newNode = some node) : NullNode node := by
  have hmethod : ∀ (e : Nat × LuaObject) (key : List UInt8),
      e ∈ luaTable nullTable → Names key e →
      (∀ e' ∈ luaTable nullTable, e'.2.name = some key → e'.1 = e.1) →
      node key = some (.method e.1) := by
    intro e key he hnames honly
    rcases urpcOpenLoop_field h key with ⟨hnone, _⟩ | ⟨e', he', hnames', hkey⟩
    · exact absurd hnames (hnone e (hentries.mem_iff.mpr he))
    · rw [hkey, honly e' (hentries.mem_iff.mp he') hnames'.2]
  have hnew : node instanceKey = newNode instanceKey := by
    rcases urpcOpenLoop_field h instanceKey with ⟨_, hsame⟩ | ⟨e, he, hnames, _⟩
    · exact hsame
    · exact absurd hnames.2
        ((by decide : ∀ e ∈ luaTable nullTable, e.2.name ≠ some instanceKey) e
          (hentries.mem_iff.mp he))
  refine ⟨hnew, ?_, ?_, ?_⟩
  · exact hmethod (1, _) _ (.head _) ⟨rfl, rfl⟩ (by decide)
  · exact hmethod (2, _) _ (.tail _ (.head _)) ⟨rfl, rfl⟩ (by decide)
  · exact hmethod (3, _) _ (.tail _ (.tail _ (.head _))) ⟨rfl, rfl⟩ (by decide)

theorem NullInv.node {w w' : NullWorld} (h : NullInv w) {argc : Nat}
    {priv inst mem : Bool} {locals : Nat → ArgcacheLocals}
    {pairs : List (Nat × LuaObject) → List (Nat × LuaObject)} {node : LuaNode}
    (hpairs : ∀ t, (pairs t).Perm t)
    (hopen : urpcOpenNull argc priv inst mem locals pairs w
      = .ok (some node, w')) :
    NullInv w' ∧ w'.lists.objects w.lists.opened ≠ none ∧ NullNode node := by
  obtain ⟨lists, hlists, hopen⟩ := bind_eq_ok.mp hopen
  split at hopen
  · cases hopen
  · obtain ⟨⟨table, w₁⟩, hd, hopen⟩ := bind_eq_ok.mp hopen
    obtain ⟨hinv, _, hobjects, htable⟩ := (h.opens hlists).1.discovers hd
    simp only [pure_eq_ok, Except.ok.injEq, Prod.mk.injEq] at hopen
    obtain ⟨hloop, rfl⟩ := hopen
    rw [htable] at hloop
    refine ⟨hinv, ?_, nullNode_of_loop (hpairs _) hloop⟩
    rw [hobjects]
    simp

/-- The function with key `id + 1` calls the object with number `id`. -/
theorem callNullMethod_eq {host : Endian} {env : NullCallEnv} {node : LuaNode}
    (hnode : node instanceKey = some .inst) (k : Nat) {id : Nat}
    (hid : (id : Int) ≤ intMax) (args : List LuaValue) (w : NullWorld) :
    ∃ L, callNullMethod host env node k (id + 1) args w
      = urpcNullCall host { env with L } k id w := by
  exact ⟨methodStack env.L (id + 1) args, callMethod_eq hnode hid env.L
    (fun L id k => urpcNullCall host { env with L } k id w) args k⟩

/-- A node of the null transport, however old: `hostname` answers with the name
of the host, which has to leave room for its terminator; `packnumbers` takes
any arguments and answers nothing; `unpacknumbers` answers the numbers at the
front of the buffer the name is in. Where the chunk for the arguments cannot be
had, none answers anything. -/
theorem null_node_answers {host : Endian} {env : NullCallEnv}
    {w₀ w₁ w : NullWorld} {argc : Nat} {priv inst mem : Bool}
    {locals : Nat → ArgcacheLocals}
    {pairs : List (Nat × LuaObject) → List (Nat × LuaObject)} {node : LuaNode}
    (hbefore : Runs (nullScriptStep host) anyScript nullWorldStart w₀)
    (hpairs : ∀ t, (pairs t).Perm t)
    (hopen : urpcOpenNull argc priv inst mem locals pairs w₀
      = .ok (some node, w₁))
    (hafter : Runs (nullScriptStep host) anyScript w₁ w)
    (hfuel : 4 ≤ env.fuel) (hname : 0 ∉ env.hostname)
    (args : List LuaValue) :
    ∃ i j l, node ("hostname".toList.map chr) = some (.method i) ∧
      node ("packnumbers".toList.map chr) = some (.method j) ∧
      node ("unpacknumbers".toList.map chr) = some (.method l) ∧
      (callNullMethod host env node w₀.lists.opened i args w).map Prod.fst =
        (if env.mem.isNone then .ok []
        else if env.hostname.length < 64 then .ok [.string env.hostname]
        else .error .outOfBounds) ∧
      (callNullMethod host env node w₀.lists.opened j args w).map Prod.fst
        = .ok [] ∧
      (callNullMethod host env node w₀.lists.opened l args w).map Prod.fst =
        (if env.mem.isNone then .ok []
        else .ok (numbersAt host fourNumbers
          (gethostname env.hostname 64 w.reply))) := by
  obtain ⟨hinv₀, _⟩ := nullInv_start.run hbefore
  obtain ⟨hinv₁, hobjects₁, hnode⟩ := hinv₀.node hpairs hopen
  obtain ⟨hinv, hlasting⟩ := hinv₁.run hafter
  have hobjects : w.lists.objects w₀.lists.opened ≠ none := by
    rwa [hlasting _ hobjects₁]
  have hcall : ∀ id a, [NullAddr.o1, .o2, .o3][id]? = some a →
      (callNullMethod host env node w₀.lists.opened (id + 1) args w).map
          Prod.fst =
        if env.mem.isNone then .ok []
        else nullAnswer host env.hostname
          (gethostname env.hostname 64 w.reply) a := by
    intro id a ha
    have hid : (id : Int) ≤ intMax := by
      have hlt := (List.getElem?_eq_some_iff.mp ha).1
      simp only [List.length_cons, List.length_nil] at hlt
      unfold intMax
      omega
    obtain ⟨L, hL⟩ := callNullMethod_eq hnode.inst w₀.lists.opened hid args w
    rw [hL]
    exact @urpcNullCall_answers host { env with L } w _ hinv hobjects hfuel
      hname id a ha
  refine ⟨1, 2, 3, hnode.hostname, hnode.packnumbers, hnode.unpacknumbers,
    hcall 0 .o1 rfl, ?_, hcall 2 .o3 rfl⟩
  exact (hcall 1 .o2 rfl).trans (ite_self _)

/-- A call without arguments, on the host `a`. -/
def nullCallEnv : NullCallEnv :=
  { L := callStack [], mem := some fun _ => 0, grants := fun _ => none
    fuel := 4, hostname := [chr 'a'] }

def zeroLocals (_ : Nat) : ArgcacheLocals := ⟨(0, 0), (0, 0)⟩

/-- Another instance is opened and discovered, and then this one again. -/
def laterScripts : List NullScript :=
  [.opens 2 true true, .discovers 1 true zeroLocals,
    .discovers 0 true zeroLocals]

theorem null_node_answers_later : ∃ (node : LuaNode) (w : NullWorld) (i : Nat),
    node ("hostname".toList.map chr) = some (.method i) ∧
      (callNullMethod .little nullCallEnv node 0 i [] w).map Prod.fst
        = .ok [.string [chr 'a']] := by
  have hopens : (urpcOpenNull 2 true true true zeroLocals List.reverse
      nullWorldStart).map (fun r => r.1.isSome) = .ok true := by
    decide +kernel
  obtain ⟨⟨made, w₁⟩, hopen, hsome⟩ := map_eq_ok.mp hopens
  obtain ⟨node, rfl⟩ := Option.isSome_iff_exists.mp hsome
  have hlater : Runs (nullScriptStep .little) anyScript w₁
      (afterwards (nullScriptStep .little) w₁ laterScripts) :=
    Runs.afterwards ⟨trivial, fun _ _ => ⟨trivial, fun _ _ =>
      ⟨trivial, fun _ _ => trivial⟩⟩⟩
  obtain ⟨i, _, _, hi, _, _, hanswer, _⟩ :=
    @null_node_answers .little nullCallEnv _ _ _ _ _ _ _ _ _ _
      (.refl nullWorldStart) List.reverse_perm hopen hlater (by decide)
      (by decide) []
  exact ⟨node, _, i, hi, hanswer⟩

end Aura.Proofs
