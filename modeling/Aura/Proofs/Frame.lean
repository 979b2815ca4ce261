import Mathlib.Data.UInt
import Aura.Proofs.Queue
import Aura.Ref.Serial

/-!
# Sealing a frame

What `urpc_serial_call` does to the packed chunk, in one equation: with two
bytes to spare the frame is start byte, length, id, payload, checksum and stop
byte (`sealFrame_eq`), and without them it is a write past the block
(`sealFrame_overruns`).
-/

namespace Aura.Proofs

open Aura.Lib Aura.Ref

/-! ## The checksum -/

theorem csumLoop_eq {data : List UInt8} {len : Nat} (h : len ≤ data.length)
    (sum : UInt8) :
    csumLoop data len sum = .ok (sum + (data.take len).sum) := by
  induction len generalizing sum with
  | zero => simp [csumLoop]
  | succ len ih =>
      rw [csumLoop, loadByte_of_lt (by omega), ok_bind, ih (by omega),
        List.take_add_one, List.getElem?_eq_getElem (by omega),
        Option.toList_some, List.sum_append, List.sum_singleton,
        UInt8.add_assoc, UInt8.add_comm data[len]]

theorem csum_eq (data : List UInt8) (len : Nat) (h : len ≤ data.length) :
    csum data len = .ok (data.take len).sum := by
  rw [csum, csumLoop_eq h, UInt8.zero_add]

/-! ## The frame -/

/-- What lies between the start byte and the checksum: the length byte, the id
and the packed arguments, for a chunk of `size` bytes before it is sealed. -/
def frameBody (id size : Nat) (args : List UInt8) : List UInt8 :=
  toByte (size - 1) :: toByte id :: args

/-- A finished frame. -/
def frameBytes (id size : Nat) (args : List UInt8) : List UInt8 :=
  magicStart :: frameBody id size args ++
    [(frameBody id size args).sum, magicStop]

theorem store_of_fits {c : AuraChunk} {off : Nat} {bs : List UInt8}
    (h : off + bs.length ≤ c.alloc) :
    c.store off bs = .ok
      ⟨c.data.take off ++ bs ++ c.data.drop (off + bs.length), c.size⟩ :=
  AuraChunk.store_eq_ok.mpr ⟨storeBytes_eq_ok.mpr ⟨h, rfl⟩, rfl⟩

theorem store_of_not_fits {c : AuraChunk} {off : Nat} {bs : List UInt8}
    (h : c.alloc < off + bs.length) : c.store off bs = .error .outOfBounds := by
  rw [AuraChunk.store, storeBytes,
    if_neg (by unfold AuraChunk.alloc at h; omega)]
  rfl

theorem exists_three {α : Type} {l : List α} (h : 3 ≤ l.length) :
    ∃ x y z rest, l = x :: y :: z :: rest := by
  match l, h with
  | x :: y :: z :: rest, _ => exact ⟨x, y, z, rest, rfl⟩

/-- A chunk with the header written into its first three bytes. -/
def headed (id : Nat) (c : AuraChunk) : AuraChunk :=
  ⟨magicStart :: toByte (c.size - 1) :: toByte id :: c.data.drop 3, c.size⟩

theorem headed_alloc (id : Nat) {c : AuraChunk} (halloc : 3 ≤ c.alloc) :
    (headed id c).alloc = c.alloc := by
  unfold headed AuraChunk.alloc at *
  simp only [List.length_cons, List.length_drop]
  omega

/-- The header always finds its room in a block of three bytes. -/
theorem writeHeader_headed (id : Nat) {c : AuraChunk} (halloc : 3 ≤ c.alloc) :
    writeHeader id c = .ok (headed id c) := by
  obtain ⟨data, size⟩ := c
  obtain ⟨x, y, z, rest, rfl⟩ := exists_three (l := data) halloc
  rw [headed]
  generalize hlb : toByte ((size : Int) - 1) = lb
  have h₀ : (⟨x :: y :: z :: rest, size⟩ : AuraChunk).store 0 [magicStart]
      = .ok ⟨magicStart :: y :: z :: rest, size⟩ :=
    store_of_fits (by simp [AuraChunk.alloc])
  have h₁ : (⟨magicStart :: y :: z :: rest, size⟩ : AuraChunk).store 1 [lb]
      = .ok ⟨magicStart :: lb :: z :: rest, size⟩ :=
    store_of_fits (by simp [AuraChunk.alloc])
  have h₂ : (⟨magicStart :: lb :: z :: rest, size⟩ : AuraChunk).store 2
      [toByte id] = .ok ⟨magicStart :: lb :: toByte id :: rest, size⟩ :=
    store_of_fits (by simp [AuraChunk.alloc])
  rw [writeHeader, h₀, ok_bind, hlb, h₁, ok_bind, h₂]
  rfl

theorem sealFrame_headed (id : Nat) {c : AuraChunk} (halloc : 3 ≤ c.alloc) :
    sealFrame id c = writeTrailer (headed id c) := by
  rw [sealFrame, writeHeader_headed id halloc, ok_bind]

theorem sealFrame_header (id : Nat) {c : AuraChunk} (hsize : 3 ≤ c.size)
    (hle : c.size ≤ c.alloc) (hmax : (c.alloc : Int) ≤ intMax) :
    ∃ d : AuraChunk, d.size = c.size ∧ d.alloc = c.alloc ∧
      d.payload = magicStart :: frameBody id c.size (c.payload.drop 3) ∧
      sealFrame id c = (do
        let chunk ← d.store c.size
          [(frameBody id c.size (c.payload.drop 3)).sum]
        let chunk ← { chunk with size := chunk.size + 1 }.store
          (chunk.size + 1) [magicStop]
        pure { chunk with size := chunk.size + 1 }) := by
  have halloc := headed_alloc id (Nat.le_trans hsize hle)
  obtain ⟨k, hk⟩ : ∃ k, c.size = k + 3 := Nat.exists_eq_add_of_le' hsize
  have hbody : ((headed id c).data.drop 1).take (k + 2)
      = frameBody id c.size (c.payload.drop 3) := by
    rw [headed, AuraChunk.payload, List.drop_take, hk]
    rfl
  have hpay : (headed id c).payload
      = magicStart :: frameBody id c.size (c.payload.drop 3) := by
    rw [← hbody]
    show (headed id c).data.take c.size = _
    rw [hk]
    rfl
  refine ⟨headed id c, rfl, halloc, hpay, ?_⟩
  have hnat : sizeT (((headed id c).size : Int) - 1) = k + 2 := by
    rw [show ((headed id c).size : Int) - 1 = ((k + 2 : Nat) : Int) by
      show (c.size : Int) - 1 = _
      omega]
    exact sizeT_natCast (by omega)
  have hlen : k + 2 ≤ ((headed id c).data.drop 1).length := by
    rw [List.length_drop]
    show k + 2 ≤ (headed id c).alloc - 1
    omega
  rw [sealFrame_headed id (Nat.le_trans hsize hle), writeTrailer, hnat,
    csum_eq _ _ hlen, hbody, ok_bind]
  rfl

theorem sealFrame_eq (id : Nat) {c : AuraChunk} (hsize : 3 ≤ c.size)
    (hroom : c.size + 2 ≤ c.alloc) (hmax : (c.alloc : Int) ≤ intMax) :
    ∃ d, sealFrame id c = .ok d ∧ d.size = c.size + 2 ∧ d.alloc = c.alloc ∧
      d.payload = frameBytes id c.size (c.payload.drop 3) := by
  obtain ⟨d, hds, hda, hdp, hseal⟩ :=
    sealFrame_header id hsize (by omega) hmax
  generalize hbody : frameBody id c.size (c.payload.drop 3) = body at *
  have hlen : (d.data.take c.size).length = c.size := by
    rw [List.length_take]
    unfold AuraChunk.alloc at hda hroom
    omega
  rw [store_of_fits (by rw [hda]; simp; omega), ok_bind] at hseal
  generalize hmid : d.data.take c.size ++ [body.sum]
    ++ d.data.drop (c.size + [body.sum].length) = mid at hseal
  have hmidlen : mid.length = d.alloc := by
    rw [← hmid]
    unfold AuraChunk.alloc at *
    simp only [List.length_append, hlen, List.length_singleton,
      List.length_drop]
    omega
  rw [store_of_fits (by
    show d.size + 1 + 1 ≤ mid.length
    omega), ok_bind] at hseal
  refine ⟨_, hseal, ?_, ?_, ?_⟩
  · show d.size + 1 + 1 = c.size + 2
    omega
  · show List.length _ = c.alloc
    simp only [List.length_append, List.length_take, List.length_drop,
      List.length_singleton]
    omega
  · have hmidtake : mid.take (d.size + 1) = magicStart :: body ++ [body.sum] := by
      rw [← hmid]
      rw [List.take_left' (by rw [List.length_append, hlen, hds]; rfl)]
      rw [← hds]
      exact congrArg (· ++ [body.sum]) hdp
    show List.take (d.size + 1 + 1) _ = _
    rw [hmidtake]
    have hfull : (magicStart :: body ++ [body.sum] ++ [magicStop]).length
        = d.size + 1 + 1 := by
      rw [← hmidtake, List.length_append, List.length_take, hmidlen]
      simp only [List.length_singleton]
      omega
    rw [List.take_left' hfull, frameBytes, hbody]
    simp

theorem sealFrame_overruns (id : Nat) {c : AuraChunk} (hsize : 3 ≤ c.size)
    (hle : c.size ≤ c.alloc) (hroom : c.alloc < c.size + 2)
    (hmax : (c.alloc : Int) ≤ intMax) :
    sealFrame id c = .error .outOfBounds := by
  obtain ⟨d, hds, hda, hdp, hseal⟩ := sealFrame_header id hsize hle hmax
  rw [hseal]
  by_cases hone : c.size + 1 ≤ c.alloc
  · rw [store_of_fits (by rw [hda]; exact hone), ok_bind]
    rw [store_of_not_fits]
    · rfl
    · simp only [AuraChunk.alloc, List.length_append, List.length_take,
        List.length_drop, List.length_singleton]
      unfold AuraChunk.alloc at *
      omega
  · rw [store_of_not_fits (by rw [hda]; simp; omega)]
    rfl

theorem csum_overruns {data : List UInt8} {len : Nat}
    (h : data.length < len) : csum data len = .error .outOfBounds := by
  obtain ⟨n, rfl⟩ : ∃ n, len = n + 1 := Nat.exists_eq_succ_of_ne_zero (by omega)
  rw [csum, csumLoop, loadByte, List.getElem?_eq_none (by omega)]
  rfl

/-- A headed chunk can be sealed when the checksum has its bytes and the
trailer its two. -/
theorem writeTrailer_isOk_iff (d : AuraChunk) :
    (∃ f, writeTrailer d = .ok f) ↔
      sizeT (d.size - 1) ≤ (d.data.drop 1).length ∧ d.size + 2 ≤ d.alloc := by
  constructor
  · rintro ⟨f, hf⟩
    obtain ⟨sum, hsum, hf⟩ := bind_eq_ok.mp hf
    obtain ⟨d₁, hd₁, hf⟩ := bind_eq_ok.mp hf
    obtain ⟨d₂, hd₂, hf⟩ := bind_eq_ok.mp hf
    obtain ⟨hstore₁, hsize₁⟩ := AuraChunk.store_eq_ok.mp hd₁
    obtain ⟨hstore₂, _⟩ := AuraChunk.store_eq_ok.mp hd₂
    have hfit := (storeBytes_eq_ok.mp hstore₂).1
    have hlen := storeBytes_length hstore₁
    simp only [List.length_singleton, hsize₁] at hfit
    constructor
    · by_contra hover
      rw [csum_overruns (Nat.not_le.mp hover)] at hsum
      cases hsum
    · unfold AuraChunk.alloc
      omega
  · rintro ⟨hcsum, hroom⟩
    rw [writeTrailer, csum_eq _ _ hcsum, ok_bind,
      store_of_fits (by rw [List.length_singleton]; omega), ok_bind]
    generalize ((d.data.drop 1).take (sizeT (d.size - 1))).sum = sum
    have hmid : (d.data.take d.size ++ [sum]
        ++ d.data.drop (d.size + [sum].length)).length = d.alloc := by
      unfold AuraChunk.alloc at *
      simp only [List.length_append, List.length_take, List.length_drop,
        List.length_singleton]
      omega
    dsimp only
    rw [store_of_fits (by
      show d.size + 1 + 1 ≤ _
      rw [AuraChunk.alloc, hmid]
      omega)]
    exact ⟨_, rfl⟩

/-- Whatever size a chunk is sealed at: its frame exists exactly when there is
a byte behind the start byte to count from and two to spare. -/
theorem sealFrame_ok_iff (id : Nat) {c : AuraChunk} (halloc : 3 ≤ c.alloc)
    (hmax : (c.alloc : Int) ≤ intMax) :
    (∃ d, sealFrame id c = .ok d) ↔ 1 ≤ c.size ∧ c.size + 2 ≤ c.alloc := by
  have hbytes : ((headed id c).data.drop 1).length = c.alloc - 1 := by
    rw [List.length_drop]
    exact congrArg (· - 1) (headed_alloc id halloc)
  rw [sealFrame_headed id halloc, writeTrailer_isOk_iff, hbytes,
    headed_alloc id halloc]
  show sizeT ((c.size : Int) - 1) ≤ _ ∧ c.size + 2 ≤ _ ↔ _
  rw [and_congr_left_iff]
  intro hroom
  rcases Nat.eq_zero_or_pos c.size with hzero | hpos
  · -- `size - 1` is the largest `size_t`
    have hsizeT : sizeT (((0 : Nat) : Int) - 1) = 18446744073709551615 := rfl
    rw [hzero, hsizeT]
    unfold intMax at hmax
    omega
  · rw [show (c.size : Int) - 1 = ((c.size - 1 : Nat) : Int) by omega,
      sizeT_natCast (by omega)]
    omega

theorem writeHeader_alloc {id : Nat} {c d : AuraChunk}
    (h : writeHeader id c = .ok d) : 3 ≤ c.alloc := by
  obtain ⟨c₁, h₁, h⟩ := bind_eq_ok.mp h
  obtain ⟨c₂, h₂, h₃⟩ := bind_eq_ok.mp h
  have hlen₁ := storeBytes_length (AuraChunk.store_eq_ok.mp h₁).1
  have hlen₂ := storeBytes_length (AuraChunk.store_eq_ok.mp h₂).1
  have hfit := (storeBytes_eq_ok.mp (AuraChunk.store_eq_ok.mp h₃).1).1
  rw [List.length_singleton] at hfit
  unfold AuraChunk.alloc
  omega

theorem sealFrame_alloc {id : Nat} {c f : AuraChunk}
    (h : sealFrame id c = .ok f) : 3 ≤ c.alloc := by
  obtain ⟨_, hhead, _⟩ := bind_eq_ok.mp h
  exact writeHeader_alloc hhead

/-! What keeps a frame from being sealed is always the block. -/

theorem csumLoop_error {data : List UInt8} {len : Nat} {sum : UInt8} {e : Fault}
    (h : csumLoop data len sum = .error e) : e = .outOfBounds := by
  induction len generalizing sum with
  | zero => cases h
  | succ len ih =>
      rw [csumLoop] at h
      cases hb : loadByte data len with
      | ok b =>
          rw [hb] at h
          exact ih h
      | error e' =>
          rw [hb] at h
          cases h
          unfold loadByte at hb
          split at hb
          · cases hb
          · cases hb
            rfl

theorem store_error {c : AuraChunk} {off : Nat} {bs : List UInt8} {e : Fault}
    (h : c.store off bs = .error e) : e = .outOfBounds := by
  by_cases hfit : off + bs.length ≤ c.alloc
  · rw [store_of_fits hfit] at h
    cases h
  · rw [store_of_not_fits (Nat.not_le.mp hfit)] at h
    cases h
    rfl

theorem sealFrame_error {id : Nat} {c : AuraChunk} {e : Fault}
    (halloc : 3 ≤ c.alloc) (h : sealFrame id c = .error e) :
    e = .outOfBounds := by
  rw [sealFrame_headed id halloc] at h
  rcases bind_eq_error.mp h with hsum | ⟨sum, _, h⟩
  · exact csumLoop_error hsum
  rcases bind_eq_error.mp h with hstore | ⟨d, _, h⟩
  · exact store_error hstore
  rcases bind_eq_error.mp h with hstore | ⟨d', _, h⟩
  · exact store_error hstore
  · cases h

/-! ## Handing a frame over -/

/-- The instance once a call has handed its frame to the queue. -/
def called (env : CallEnv) (o : UrpcObject) (p : Port) (c : AuraChunk) :
    Port :=
  let queued := auraAsyncEnqueueChunk env.ctl env.node p.efd p.xfer c
  if o.reply.isSome then
    ⟨{ queued.2.1 with data := { queued.2.1.data with state := 0 } }, queued.2.2⟩
  else ⟨queued.2.1, queued.2.2⟩

theorem called_transferlist (env : CallEnv) (o : UrpcObject) (p : Port)
    (c : AuraChunk) :
    (called env o p c).xfer.transferlist
      = (auraAsyncEnqueueChunk env.ctl env.node p.efd p.xfer
          c).2.1.transferlist := by
  unfold called
  cases o.reply.isSome <;> rfl

theorem called_frame (env : CallEnv) (o : UrpcObject) (p : Port)
    (c : AuraChunk) :
    ∃ transferlist hook state, (state = p.xfer.data.state ∨ state = 0) ∧
      (called env o p c).xfer = { p.xfer with
        transferlist, hook, data := { p.xfer.data with state } } := by
  obtain ⟨transferlist, hook, hframe⟩ := auraAsyncEnqueueChunk_frame env.ctl
    env.node p.efd p.xfer c
  unfold called
  cases o.reply.isSome with
  | true =>
      refine ⟨transferlist, hook, 0, .inr rfl, ?_⟩
      simp only [hframe, if_true]
  | false =>
      refine ⟨transferlist, hook, p.xfer.data.state, .inl rfl, ?_⟩
      simp only [hframe, Bool.false_eq_true, if_false]

/-- A call of an object is its frame, handed over when there is one. -/
theorem urpcSerialCall_of_object {host : Endian} {env : CallEnv} {id : Nat}
    {p : Port} {o : UrpcObject}
    (ho : p.xfer.data.inst.objects[id]? = some o) :
    urpcSerialCall host env id p
      = (callFrame host env.mem env.grants env.fuel env.L p.xfer.data id).map
          fun frame => frame.elim p (called env o p) := by
  rw [urpcSerialCall, objectAt, ho, ok_bind]
  cases callFrame host env.mem env.grants env.fuel env.L p.xfer.data id with
  | error e => rfl
  | ok frame =>
      cases frame with
      | none => rfl
      | some c =>
          rw [ok_bind]
          show _ = Except.ok (called env o p c)
          unfold called
          cases o.reply.isSome <;> rfl

theorem urpcSerialCall_eq_ok {host : Endian} {env : CallEnv} {id : Nat}
    {p p' : Port} (h : urpcSerialCall host env id p = .ok p') :
    p' = p ∨ ∃ o c, callFrame host env.mem env.grants env.fuel env.L
      p.xfer.data id = .ok (some c) ∧ p' = called env o p c := by
  cases ho : p.xfer.data.inst.objects[id]? with
  | none =>
      rw [urpcSerialCall, objectAt, ho] at h
      cases h
  | some o =>
      rw [urpcSerialCall_of_object ho] at h
      cases hframe : callFrame host env.mem env.grants env.fuel env.L
        p.xfer.data id with
      | error e =>
          rw [hframe] at h
          cases h
      | ok frame =>
          rw [hframe] at h
          cases h
          cases frame with
          | none => exact .inl rfl
          | some c => exact .inr ⟨o, c, rfl, rfl⟩

end Aura.Proofs
