import Aura.Proofs.Interest
import Aura.Proofs.Modes
import Aura.Proofs.Table

/-!
# Methods whose format was rejected

`urpc_argcache` answers a format it cannot read with NULL, and a missing one
too. The packer takes a NULL cache for a method without arguments, so a call
of such a method puts a frame on the queue that holds none of what it was
given. The only things that stop it are the ones that stop every call
(`rejected_call_iff`).
-/

namespace Aura.Proofs

open Aura.Lib Aura.Ref

/-- The call puts nothing on the queue, and not by leaving its chunk. -/
structure QueuesNothing (host : Endian) (env : CallEnv) (id : Nat)
    (p : Port) : Prop where
  queue : ∀ p', urpcSerialCall host env id p = .ok p' →
    p'.xfer.transferlist = p.xfer.transferlist
  inside : ∀ e, urpcSerialCall host env id p = .error e → ¬ Escapes e

/-- Header and trailer, with nothing between them, have their place in a block
of 256 bytes. -/
def HeaderFits (s : SerialInstance) : Prop :=
  1 ≤ 1 + s.szSz + s.idSz ∧ 1 + s.szSz + s.idSz ≤ 254

instance (s : SerialInstance) : Decidable (HeaderFits s) :=
  inferInstanceAs (Decidable (_ ∧ _))

section Uncached

variable (host : Endian) {s : SerialInstance} {id : Nat} {o : UrpcObject}

/-- Whether there is a frame is a matter of the two declared sizes. -/
theorem callFrame_uncached_cases (L : LuaState) (grants : Nat → Grant)
    (ho : s.inst.objects[id]? = some o) (hnone : o.acache = none)
    (junk : Nat → UInt8) (fuel : Nat) :
    (HeaderFits s ∧
      ∃ c, callFrame host (some junk) grants fuel L s id = .ok (some c)) ∨
    (¬ HeaderFits s ∧
      callFrame host (some junk) grants fuel L s id = .error .outOfBounds) := by
  by_cases hoff : 0 ≤ 1 + s.szSz + s.idSz
  · obtain ⟨c, halloc, hsize, hframe⟩ :=
      callFrame_uncached host L grants ho hnone hoff junk
    have hiff := sealFrame_ok_iff id (c := c) (by omega) (by
      rw [halloc]
      decide)
    have hfits : HeaderFits s ↔ 1 ≤ c.size ∧ c.size + 2 ≤ c.alloc := by
      unfold headerSize at hsize
      unfold HeaderFits
      omega
    rw [hfits, ← hiff, hframe]
    cases hseal : sealFrame id c with
    | ok f => exact .inl ⟨⟨f, rfl⟩, f, rfl⟩
    | error e =>
        rw [sealFrame_error (by omega) hseal]
        exact .inr ⟨nofun, rfl⟩
  · refine .inr ⟨fun h => hoff (by unfold HeaderFits at h; omega), ?_⟩
    obtain ⟨c, hc, _⟩ := auraChunkAllocate_granted junk
      (show (0 : Int) ≤ 256 by omega)
    rw [callFrame_of_object host L grants ho, packCall, if_pos (by omega), hc]
    rfl

end Uncached

/-- A call of a method without a cache queues nothing exactly when it has no
chunk to queue, or its frame is not taken. -/
theorem uncached_call_iff {host : Endian} {env : CallEnv} {id : Nat} {p : Port}
    {o : UrpcObject} (ho : p.xfer.data.inst.objects[id]? = some o)
    (hnone : o.acache = none) :
    QueuesNothing host env id p ↔
      env.mem = none ∨ HeaderFits p.xfer.data ∧
        ((p.xfer.transferlist = [] ∧ env.ctl = false) ∨ env.node = false) := by
  have hcall := @urpcSerialCall_of_object host env _ _ _ ho
  cases hmem : env.mem with
  | none =>
      rw [hmem, callFrame_unallocated host env.L env.grants ho] at hcall
      refine iff_of_true ⟨fun p' hp' => ?_, fun e he => ?_⟩ (.inl rfl)
      · cases hcall.symm.trans hp'
        rfl
      · cases hcall.symm.trans he
  | some junk =>
      rw [or_iff_right (Option.some_ne_none junk)]
      rw [hmem] at hcall
      rcases callFrame_uncached_cases host env.L env.grants ho hnone junk
        env.fuel with ⟨hfits, chunk, hframe⟩ | ⟨hno, hframe⟩
      · rw [hframe] at hcall
        rw [and_iff_right hfits,
          ← auraAsyncEnqueueChunk_keeps_iff env.ctl env.node p.efd p.xfer chunk,
          ← called_transferlist env o]
        constructor
        · intro h
          exact h.queue _ hcall
        · intro h
          refine ⟨fun p' hp' => ?_, fun e he => ?_⟩
          · cases hcall.symm.trans hp'
            exact h
          · cases hcall.symm.trans he
      · rw [hframe] at hcall
        exact iff_of_false (fun h => h.inside _ hcall (.inl rfl))
          (fun h => hno h.1)

/-- A method whose format `urpc_argcache` rejected is called: no frame is
queued exactly when no chunk can be had for it, or a frame that fits is not
taken by the queue. The arguments have no say. -/
theorem rejected_call_iff {host : Endian} {env : CallEnv} {id : Nat} {p : Port}
    {l : ArgcacheLocals} {reported o : UrpcObject} {str : List UInt8}
    (hmethod : objectIsMethod reported = true)
    (hargs : reported.args = some str)
    (hrejected : urpcArgcache l.args.1 l.args.2 (some str) true = .ok none)
    (hcached : cacheObject l reported = .ok o)
    (ho : p.xfer.data.inst.objects[id]? = some o) :
    QueuesNothing host env id p ↔
      env.mem = none ∨ HeaderFits p.xfer.data ∧
        ((p.xfer.transferlist = [] ∧ env.ctl = false) ∨ env.node = false) :=
  uncached_call_iff ho (by
    have hcache := cacheObject_method hmethod hcached
    rw [hargs, hrejected] at hcache
    exact (Except.ok.inj hcache).symm)

/-- A method that wants an eight byte number. -/
def wideMethod : UrpcObject :=
  { flags := 1, name := some [chr 'f'], args := some [chr '8', chr 'd', chr ';']
    acache := none, reply := none, rcache := none }

def noLocals : ArgcacheLocals := ⟨(0, 0), (0, 0)⟩

/-- A port that has discovered it, with one-byte sizes and ids. -/
def widePort : Port :=
  { openedPort with xfer := { openedPort.xfer with
    data := { openedPort.xfer.data with
      szSz := 1, idSz := 1, state := 1, objcount := 1
      inst := ⟨[wideMethod], [wideMethod]⟩ } } }

theorem rejected_call_refused :
    QueuesNothing .little { generousEnv with mem := none } 0 widePort :=
  (@rejected_call_iff .little { generousEnv with mem := none } 0 widePort
    noLocals wideMethod wideMethod [chr '8', chr 'd', chr ';'] (by decide) rfl
    (by decide) (by decide) rfl).mpr (.inl rfl)

/-- The number that was to be sent is not missed. -/
theorem rejected_call_queued :
    ¬ ∀ (l : ArgcacheLocals) (reported o : UrpcObject) (str : List UInt8)
      (env : CallEnv) (p : Port), objectIsMethod reported = true →
      reported.args = some str →
      urpcArgcache l.args.1 l.args.2 (some str) true = .ok none →
      cacheObject l reported = .ok o →
      p.xfer.data.inst.objects[0]? = some o →
      QueuesNothing .little env 0 p := by
  intro h
  have hstops := (@uncached_call_iff .little
    { generousEnv with L := callStack [.number (7 : Int)] } 0 widePort
    wideMethod rfl rfl).mp
    (h noLocals wideMethod wideMethod [chr '8', chr 'd', chr ';'] _ widePort
      (by decide) rfl (by decide) (by decide) rfl)
  revert hstops
  decide +kernel

end Aura.Proofs
