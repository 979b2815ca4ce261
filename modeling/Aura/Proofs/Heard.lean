import Aura.Proofs.ByteOrder
import Aura.Proofs.Delivery

/-!
# What is said is what is heard

A call says which object it is for and which values were on the Lua stack. The
frame that carries it is bytes; read with the unpackers, by a machine of either
byte order that swaps when the orders differ, its body says the same again
(`understood_sealed`). So a run of the cable is a run of a queue of calls: what
one end hears is a prefix of what the other said, and all of it once nothing is
on its way (`said_heard`).

It takes formats whose wide fields are last and arguments that fit their
fields and the first chunk; others are packed to something else.
-/

namespace Aura.Proofs

open Aura.Lib Aura.Ref

/-! ## Reading a body -/

/-- An object's number and the values for it. -/
abbrev Utterance := Nat × List LuaValue

/-- What a body says to one who knows the objects: the unpackers of the
object's format, run over what stands behind the id. -/
def understood (host : Endian) (swap : Bool) (objects : List UrpcObject) :
    List UInt8 → Res Utterance
  | [] => .error .outOfBounds
  | id :: args =>
      match objects[id.toNat]? with
      | none => .error .outOfBounds
      | some o => do
          let (vs, _) ← urpcUnpackData host args
            (some ((callTokens o).map .unpack)) swap
          pure (id.toNat, vs)

/-- The other order is a swap away. -/
theorem Endian.encode_other {e f : Endian} (h : e ≠ f) (k v : Nat) :
    (f.encode k v).reverse = e.encode k v := by
  cases e <;> cases f <;> simp [Endian.encode] at h ⊢

theorem Token.encode_host (t : Token) (e f : Endian) (v : LuaValue) :
    Token.encode t f (decide (e ≠ f)) v = Token.encode t e false v := by
  by_cases h : e = f
  · rw [h, decide_eq_false (not_not.mpr rfl)]
  · rw [decide_eq_true h]
    unfold Token.encode
    cases Token.int? t with
    | none => cases v <;> rfl
    | some p =>
        cases v with
        | number q => simp [numberBytes, Endian.encode_other h]
        | _ => rfl

theorem encodeAll_host (e f : Endian) (ts : List Token)
    (vs : List LuaValue) :
    encodeAll f (decide (e ≠ f)) ts vs = encodeAll e false ts vs := by
  simp only [encodeAll, Token.encode_host]

/-- A body with the arguments of a call in it, read on a host of either
order. -/
theorem understood_encoded {objects : List UrpcObject} {o : UrpcObject}
    {id : Nat} {vs : List LuaValue} (ho : objects[id]? = some o)
    (hid : id < 256) (hm : Matches (callTokens o) vs)
    (hw : wideOnlyLast (callTokens o) = true) (e f : Endian)
    (rest : List UInt8) :
    understood f (decide (e ≠ f)) objects
        (toByte id :: (encodeAll e false (callTokens o) vs ++ rest))
      = .ok (id, vs) := by
  have hbyte : (toByte (id : Int)).toNat = id := by
    rw [toByte]
    simp
    omega
  rw [understood, hbyte, ho]
  simp only [urpcUnpackData]
  rw [← encodeAll_host e f, unpackLoop_encodeAll hm hw]
  rfl

/-! ## The frame of a call -/

theorem SealedFrame.body_of_sealed (f : SealedFrame) :
    f.body = (f.sealed.payload.drop 2).dropLast := by
  rw [← SealedFrame.bytes, f.bytes_eq]
  exact List.dropLast_concat.symm

/-- A call with nothing unusual about it: the fields survive the unpackers, the
arguments are for the fields, and there is room for them in the chunk the call
begins with. -/
def Plain (o : UrpcObject) (vs : List LuaValue) : Prop :=
  wideOnlyLast (callTokens o) = true ∧ Matches (callTokens o) vs ∧
    spanAll (callTokens o) vs ≤ 251

instance (o : UrpcObject) (vs : List LuaValue) : Decidable (Plain o vs) :=
  inferInstanceAs (Decidable (_ ∧ _ ∧ _))

section Frame

variable {host : Endian} {L : LuaState} {grants : Nat → Grant} {mem : Grant}
  {fuel : Nat} {s : SerialInstance} {id : Nat} {o : UrpcObject} {len : Int}
  {fmt : UInt8} {c : AuraChunk}

/-- The frame of a plain call is no larger than 256 bytes, and its body reads
back as the call. -/
theorem understood_sealed (ho : s.inst.objects[id]? = some o)
    (hcache : urpcArgcache len fmt o.args true = .ok o.acache)
    (hsz : s.szSz = 1) (hidSz : s.idSz = 1) (hid : id < 256)
    (hplain : Plain o (L.stack.drop 2))
    (h : callFrame host mem grants fuel L s id = .ok (some c)) :
    c.size ≤ 256 ∧ ∀ f : Endian,
      understood f (decide (host ≠ f)) s.inst.objects
        ((c.payload.drop 2).dropLast) = .ok (id, L.stack.drop 2) := by
  obtain ⟨hw, hm, hspan⟩ := hplain
  have hhead : headerSize s = 3 := by
    rw [headerSize, hsz, hidSz]
    rfl
  cases mem with
  | none =>
      rw [callFrame_unallocated host L grants ho] at h
      cases h
  | some junk =>
      obtain ⟨c₀, hlay, hrun⟩ :=
        callFrame_eq host L grants ho hcache (.inl hsz) (.inl hidSz) junk
      have halloc : c₀.alloc = 256 := congrArg Layout.alloc hlay
      have hsize : c₀.size = 3 := (congrArg Layout.size hlay).trans hhead
      have hmax : (c₀.alloc : Int) ≤ intMax := by
        rw [halloc]
        decide
      rw [hrun] at h
      obtain ⟨d, hd, h⟩ := bind_eq_ok.mp h
      obtain ⟨c', hseal, h⟩ := bind_eq_ok.mp h
      cases h
      have hfuel := packLoop_plain_fuel (n := 2) host false grants hm rfl hmax
        (by omega) hd
      obtain ⟨d', hd', hda, hds, hdp⟩ := packLoop_plain (n := 2) host false
        grants hm List.prefix_rfl hmax (by omega) hfuel
      cases hd.symm.trans hd'
      let f : SealedFrame := ⟨id, d, c, hid, by omega, by omega,
        by rw [hda]; exact hmax, hseal⟩
      have hargs : f.args
          = encodeAll host false (callTokens o) (L.stack.drop 2) := by
        show d.payload.drop 3 = _
        rw [hdp, List.drop_left' (by rw [payload_length (by omega), hsize])]
      refine ⟨?_, fun e => ?_⟩
      · have hsealed : c.size = d.size + 2 := f.size_sealed
        omega
      · have hbody := f.body_of_sealed
        rw [show f.sealed = c from rfl] at hbody
        rw [← hbody, SealedFrame.body, hargs]
        exact understood_encoded ho hid hm hw host e _

end Frame

/-! ## A conversation -/

/-- The cable, and what has been said at either end. -/
structure Talk where
  cable : Cable
  said : Side → List Utterance

/-- What an event that leads from `p` to `q` says: a call says something when
its frame was queued. -/
def uttered (p q : Port) : SerialEvent → List Utterance
  | .call env id =>
      (framesQueued p q (.call env id)).map fun _ => (id, env.L.stack.drop 2)
  | _ => []

def talkStep (host : Side → Endian) (t : Talk) (i : Side × SerialEvent) :
    Res Talk := do
  let cable ← cableStep host t.cable i
  pure
    { cable
      said := fun side =>
        if side = i.1 then
          t.said side ++ uttered (t.cable i.1).port (cable i.1).port i.2
        else t.said side }

/-- The cable keeps what it is given, and calls are plain. -/
def Spoken (host : Side → Endian) (t : Talk) : Side × SerialEvent → Prop
  | (s, .call env id) =>
      ∀ o, (t.cable s).port.xfer.data.inst.objects[id]? = some o →
        Plain o (env.L.stack.drop 2)
  | i => Cabled host t.cable i

section Steps

variable {host : Side → Endian} {t₀ t t' : Talk} {s r : Side}

theorem talkStep_eq_ok {i : Side × SerialEvent}
    (h : talkStep host t i = .ok t') :
    cableStep host t.cable i = .ok t'.cable ∧
      t'.said i.1 = t.said i.1 ++
        uttered (t.cable i.1).port (t'.cable i.1).port i.2 ∧
      ∀ side, side ≠ i.1 → t'.said side = t.said side := by
  obtain ⟨cable, hcable, h⟩ := bind_eq_ok.mp h
  cases h
  exact ⟨hcable, if_pos rfl, fun side hside => if_neg hside⟩

/-- The frames that were queued say what was said. -/
structure TalkInv (host : Side → Endian) (t₀ : Talk) (s r : Side) (t : Talk) :
    Prop where
  cable : CableInv host t₀.cable s r t.cable
  meant : (t.cable s).calls.map (fun c =>
      understood (host r) (decide (host s ≠ host r))
        (t₀.cable s).port.xfer.data.inst.objects
        ((c.2.payload.drop 2).dropLast))
    = (t.said s).map .ok

/-- A plain call fits its length byte, and says what it says. -/
theorem TalkInv.call (hstart : ∀ side, Connected (t₀.cable side))
    (hinv : TalkInv host t₀ s r t) {side : Side} {env : CallEnv} {id : Nat}
    (hguard : Spoken host t (side, .call env id)) {c : AuraChunk}
    (hframe : callFrame (host side) env.mem env.grants env.fuel env.L
      (t.cable side).port.xfer.data id = .ok (some c)) :
    c.size ≤ 256 ∧ ∀ f : Endian,
      understood f (decide (host side ≠ f))
        (t₀.cable side).port.xfer.data.inst.objects
        ((c.payload.drop 2).dropLast) = .ok (id, env.L.stack.drop 2) := by
  have hready := hinv.cable.ready side
  obtain ⟨o, ho⟩ := callFrame_object _ _ _ hframe
  have hplain := hguard o ho
  have ho' := hready.objects ▸ ho
  obtain ⟨len, fmt, hcache⟩ :=
    (hstart side).cached o (List.mem_of_getElem? ho')
  have hid : id < 256 := Nat.lt_of_lt_of_le
    (List.getElem?_eq_some_iff.mp ho').1 (hstart side).ids
  rw [← hready.objects]
  exact understood_sealed ho hcache hready.szSz hready.idSz hid hplain hframe

theorem TalkInv.cabled (hstart : ∀ side, Connected (t₀.cable side))
    (hinv : TalkInv host t₀ s r t) {i : Side × SerialEvent}
    (hguard : Spoken host t i) : Cabled host t.cable i := by
  obtain ⟨side, e⟩ := i
  cases e with
  | call env id =>
      intro c hframe
      exact (hinv.call hstart hguard hframe).1
  | epollin | epollout | discovery => exact hguard

theorem TalkInv.step (hstart : ∀ side, Connected (t₀.cable side))
    (hne : s ≠ r)
    (hmute : ∀ o ∈ (t₀.cable r).port.xfer.data.inst.objects, o.reply = none)
    {i : Side × SerialEvent} (hinv : TalkInv host t₀ s r t)
    (hguard : Spoken host t i) (hstep : talkStep host t i = .ok t') :
    TalkInv host t₀ s r t' := by
  obtain ⟨hcable, hsaid, hquiet⟩ := talkStep_eq_ok hstep
  refine ⟨hinv.cable.step hstart hne hmute (hinv.cabled hstart hguard)
    hcable, ?_⟩
  obtain ⟨port, hport, hhere, hthere⟩ := cableStep_eq_ok hcable
  obtain ⟨side, e⟩ := i
  by_cases hside : s = side
  · subst hside
    rw [hhere] at hsaid ⊢
    rw [hsaid, List.map_append, List.map_append, hinv.meant]
    congr 1
    cases e with
    | epollin | epollout | discovery => rfl
    | call env id =>
        rcases urpcSerialCall_object hport with rfl | ⟨o, c, _, hframe, rfl⟩
        · rw [uttered, framesQueued, List.drop_length]
          rfl
        · have hmeant := (hinv.call hstart hguard hframe).2 (host r)
          rw [uttered, framesQueued_call]
          split
          · rw [List.map_singleton, List.map_singleton, hmeant]
            rfl
          · rfl
  · rw [hthere s hside, hquiet s hside]
    exact hinv.meant

end Steps

instance decidableSpoken (host : Side → Endian) (t : Talk) :
    DecidablePred (Spoken host t)
  | (s, .call env id) =>
      inferInstanceAs (Decidable
        (∀ o ∈ (t.cable s).port.xfer.data.inst.objects[id]?,
          Plain o (env.L.stack.drop 2)))
  | (s, .epollin r g) =>
      inferInstanceAs (Decidable (Cabled host t.cable (s, .epollin r g)))
  | (s, .epollout ws ctl) =>
      inferInstanceAs (Decidable (Cabled host t.cable (s, .epollout ws ctl)))
  | (_, .discovery _) => isFalse id

end Aura.Proofs
