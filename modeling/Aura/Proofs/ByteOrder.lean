import Aura.Proofs.Modes
import Aura.Proofs.RoundTrip
import Aura.Proofs.Table

/-!
# The order of the bytes of arguments

A feature packet says which byte order the device uses, and the handler works
out whether the host's is another. Nobody asks for the result: a call has its
arguments packed without swapping. They are in the device's order when that is
the host's, or when their bytes read the same in both
(`arguments_ordered_iff`).
-/

namespace Aura.Proofs

open Aura.Lib Aura.Ref

/-! ## What a feature packet declares -/

/-- The tag of a byte order. -/
def orderTag : Endian → UInt8
  | .little => chr 'l'
  | .big => chr 'b'

/-- The settings of `s` are what the handler took from a feature packet with
the tag of `dev`. -/
def Announced (host dev : Endian) (s : SerialInstance) : Prop :=
  ∃ g x y, x.data.rxstate = .discovery ∧
    loadByte x.recv.data 3 = .ok (orderTag dev) ∧
    handleData host g .discoveryInit x = .ok y ∧
    s.szSz = y.data.szSz ∧ s.idSz = y.data.idSz ∧ s.swap = y.data.swap

/-! ## Fields in an order -/

/-- The bytes of an argument are the same in both orders. -/
def OrderFreeArg (t : Token) (v : LuaValue) : Prop :=
  Token.encode t .little false v = Token.encode t .big false v

instance (t : Token) (v : LuaValue) : Decidable (OrderFreeArg t v) :=
  inferInstanceAs (Decidable (_ = _))

theorem Token.encode_eq_iff {t : Token} {v : LuaValue} {e f : Endian} :
    Token.encode t e false v = Token.encode t f false v ↔
      e = f ∨ OrderFreeArg t v := by
  cases e <;> cases f <;> simp [OrderFreeArg, eq_comm]

/-- Each wide field of the arguments `vs`, found where the ones before it end,
is laid out in the order `e`. -/
def LaidOut (e : Endian) : List Token → List LuaValue → List UInt8 → Prop
  | t :: ts, v :: vs, bytes =>
      (Token.wide t = true →
        bytes.take (Token.span t v) = Token.encode t e false v) ∧
      LaidOut e ts vs (bytes.drop (Token.span t v))
  | _, _, _ => True

/-- Arguments encoded in one order, read in another. -/
theorem laidOut_encodeAll_iff {e f : Endian} {ts : List Token}
    {vs : List LuaValue} (hm : Matches ts vs) (rest : List UInt8) :
    LaidOut f ts vs (encodeAll e false ts vs ++ rest) ↔
      e = f ∨ ∀ a ∈ ts.zip vs, Token.wide a.1 = true → OrderFreeArg a.1 a.2 := by
  induction hm with
  | nil => simp [LaidOut]
  | @cons t v ts vs ht _ ih =>
      have hlen := Token.length_encode ht e false
      have hall : encodeAll e false (t :: ts) (v :: vs) ++ rest
          = Token.encode t e false v ++ (encodeAll e false ts vs ++ rest) := by
        rw [encodeAll, List.zipWith_cons_cons, List.flatten_cons,
          List.append_assoc]
        rfl
      rw [LaidOut, hall, List.take_left' hlen, List.drop_left' hlen, ih,
        Token.encode_eq_iff, List.zip_cons_cons, List.forall_mem_cons]
      by_cases hsame : e = f
      · simp only [hsame, true_or, imp_true_iff, and_self]
      · simp only [hsame, false_or]

/-! ## A call -/

theorem tokensOf_pack (ts : List Token) :
    tokensOf (ts.map CacheFn.pack) = ts := by
  rw [tokensOf, List.map_map]
  exact List.map_id ts

/-- `p` has discovered a device of order `dev`, and on it, as number `id`, a
method with the format `ts`. -/
structure DiscoveredMethod (host dev : Endian) (p : Port) (id : Nat)
    (ts : List Token) : Prop where
  announced : Announced host dev p.xfer.data
  method : ∃ l reported o, objectIsMethod reported = true ∧
    reported.args = some (formatOf ts) ∧ cacheObject l reported = .ok o ∧
    p.xfer.data.inst.objects[id]? = some o

theorem DiscoveredMethod.object {host dev : Endian} {p : Port} {id : Nat}
    {ts : List Token} (h : DiscoveredMethod host dev p id ts) :
    ∃ len fmt o, p.xfer.data.inst.objects[id]? = some o ∧
      urpcArgcache len fmt o.args true = .ok o.acache ∧ callTokens o = ts := by
  obtain ⟨l, reported, o, hmethod, hargs, hcached, ho⟩ := h.method
  have hcache := cacheObject_method hmethod hcached
  obtain ⟨acache, rcache, rfl⟩ := cacheObject_eq_ok hcached
  refine ⟨l.args.1, l.args.2, _, ho, hcache, ?_⟩
  rw [hargs, urpcArgcache_formatOf] at hcache
  cases hcache
  exact tokensOf_pack ts

/-- The arguments of a call are in the order the device declared exactly when
that is the order of the host, or no argument of two or four bytes tells the
two orders apart. -/
theorem arguments_ordered_iff {host dev : Endian} {env : CallEnv} {id : Nat}
    {p p' : Port} {ts : List Token} {f : AuraChunk}
    (hp : DiscoveredMethod host dev p id ts)
    (hm : Matches ts (env.L.stack.drop 2))
    (hfit : FrameFits p.xfer.data ts (env.L.stack.drop 2))
    (hcall : urpcSerialCall host env id p = .ok p')
    (hqueued : p'.xfer.transferlist = p.xfer.transferlist ++ [f]) :
    LaidOut dev ts (env.L.stack.drop 2)
        (f.payload.drop (headerSize p.xfer.data)) ↔
      host = dev ∨ ∀ a ∈ ts.zip (env.L.stack.drop 2),
        Token.wide a.1 = true → OrderFreeArg a.1 a.2 := by
  obtain ⟨len, fmt, o, ho, hcache, rfl⟩ := hp.object
  rcases urpcSerialCall_queues host hcall with hsame | ⟨f', hframe, hnew⟩
  · rw [hqueued] at hsame
    exact absurd hsame (by simp)
  · rw [hqueued, List.append_cancel_left_eq, List.singleton_inj] at hnew
    rw [← hnew] at hframe
    obtain ⟨trailer, hlaid, _⟩ := callFrame_arguments host env.L env.grants ho
      hcache hm hfit hframe
    rw [hlaid]
    exact laidOut_encodeAll_iff hm trailer

/-- A method that takes one number of two bytes. -/
def wordMethod : UrpcObject :=
  { flags := 1, name := some [chr 'f'], args := some (formatOf [.u16])
    acache := some [.pack .u16], reply := none, rcache := none }

/-- A transfer object with a feature packet in its buffer. -/
def announcing (dev : Endian) : SerialXfer :=
  { openedPort.xfer with
    recv := ⟨[magicStart, 1, 1, orderTag dev, 0, 0], 6⟩
    data := { openedPort.xfer.data with rxstate := .discovery }
    handleData := .discoveryInit }

/-- A host of the other order that has discovered the method. -/
def wordPort : Port :=
  { openedPort with xfer := { openedPort.xfer with
    data := { openedPort.xfer.data with
      swap := true, szSz := 1, idSz := 1, state := 1, objcount := 1
      inst := ⟨[wordMethod], [wordMethod]⟩ } } }

/-- The frame of a call of the method, up to its arguments and checksum. -/
def wordFrame (a b sum : UInt8) : AuraChunk :=
  ⟨[magicStart, 4, 0, a, b, sum, magicStop] ++ List.replicate 249 0, 7⟩

theorem discoveredMethod_wordPort :
    DiscoveredMethod .little .big wordPort 0 [.u16] where
  announced := ⟨none, announcing .big, _, rfl, rfl, rfl, rfl, rfl, rfl⟩
  method := ⟨⟨(0, 0), (0, 0)⟩, wordMethod, wordMethod, by decide, rfl,
    by decide, rfl⟩

theorem wordFrame_queued {q : Rat} {f : AuraChunk}
    (h : callFrame .little (some fun _ => 0) (fun _ => none) 1
      (callStack [.number q]) wordPort.xfer.data 0 = .ok (some f)) :
    ∃ p', urpcSerialCall .little
        ⟨callStack [.number q], some fun _ => 0, fun _ => none, 1, true, true⟩
        0 wordPort = .ok p' ∧
      p'.xfer.transferlist = wordPort.xfer.transferlist ++ [f] :=
  urpcSerialCall_of_callFrame .little _ _ rfl h

/-- The two bytes of 257 are the same. -/
theorem arguments_ordered_257 :
    LaidOut .big [.u16] [.number 257]
      ((wordFrame 1 1 6).payload.drop (headerSize wordPort.xfer.data)) := by
  obtain ⟨p', hcall, hqueued⟩ := wordFrame_queued (q := 257)
    (f := wordFrame 1 1 6) (by decide +kernel)
  have hiff := arguments_ordered_iff discoveredMethod_wordPort
    (.cons (by decide) .nil) (by decide) hcall hqueued
  exact hiff.mpr (.inr (by decide +kernel))

/-- The number 1 goes to a big-endian device as 256. -/
theorem arguments_misordered :
    ¬ ∀ (host dev : Endian) (env : CallEnv) (id : Nat) (p p' : Port)
      (ts : List Token) (f : AuraChunk),
      DiscoveredMethod host dev p id ts →
      Matches ts (env.L.stack.drop 2) →
      FrameFits p.xfer.data ts (env.L.stack.drop 2) →
      urpcSerialCall host env id p = .ok p' →
      p'.xfer.transferlist = p.xfer.transferlist ++ [f] →
      LaidOut dev ts (env.L.stack.drop 2)
        (f.payload.drop (headerSize p.xfer.data)) := by
  intro hall
  obtain ⟨p', hcall, hqueued⟩ := wordFrame_queued (q := 1)
    (f := wordFrame 1 0 5) (by decide +kernel)
  have hlaid := hall _ _ _ _ _ _ _ _ discoveredMethod_wordPort
    (.cons (by decide) .nil) (by decide) hcall hqueued
  have hbytes : [1, 0] = Token.encode .u16 .big false (.number 1) := hlaid.1 rfl
  revert hbytes
  decide +kernel

end Aura.Proofs
