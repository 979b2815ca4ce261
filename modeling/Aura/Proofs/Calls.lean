import Mathlib.Data.List.Nodup
import Aura.Proofs.Rejected

/-!
# Calls through a node

The id a device reports for an object is read and dropped. What a call puts
into its frame is the position of the object in the order of discovery, by way
of the key of the table and the index of the array. The arguments are packed
for the right object all along; the frame names it to the device only if the
device counts its objects from zero, in that order (`calls_reach_iff`).
-/

namespace Aura.Proofs

open Aura.Lib Aura.Ref

/-! ## The node -/

/-- An entry `urpc_open` makes a function for, under `key`. -/
def Names (key : List UInt8) (e : Nat × LuaObject) : Prop :=
  e.2.isMethod = true ∧ e.2.name = some key

/-- A field of the finished node: as it was, when no entry has its name, and
else the function of an entry that has. -/
theorem urpcOpenLoop_field {entries : List (Nat × LuaObject)}
    {node node' : LuaNode} (h : urpcOpenLoop entries node = some node')
    (key : List UInt8) :
    ((∀ e ∈ entries, ¬ Names key e) ∧ node' key = node key) ∨
      ∃ e ∈ entries, Names key e ∧ node' key = some (.method e.1) := by
  induction entries generalizing node with
  | nil =>
      cases h
      exact .inl ⟨fun e he => absurd he List.not_mem_nil, rfl⟩
  | cons e entries ih =>
      obtain ⟨i, j⟩ := e
      by_cases hmethod : j.isMethod = true
      · cases hname : j.name with
        | none => simp only [urpcOpenLoop, if_pos hmethod, hname] at h; cases h
        | some name =>
            simp only [urpcOpenLoop, if_pos hmethod, hname] at h
            rcases ih h with ⟨hnone, hsame⟩ | ⟨e, he, hnames, hfield⟩
            · by_cases hkey : key = name
              · refine .inr ⟨(i, j), List.mem_cons_self .., ⟨hmethod, ?_⟩, ?_⟩
                · rw [hkey]
                  exact hname
                · exact hsame.trans (if_pos hkey)
              · refine .inl ⟨?_, hsame.trans (if_neg hkey)⟩
                intro e he hnames
                rcases List.mem_cons.mp he with rfl | he
                · exact hkey (Option.some.inj (hnames.2.symm.trans hname))
                · exact hnone e he hnames
            · exact .inr ⟨e, List.mem_cons_of_mem _ he, hnames, hfield⟩
      · simp only [urpcOpenLoop, if_neg hmethod] at h
        rcases ih h with ⟨hnone, hsame⟩ | ⟨e, he, hnames, hfield⟩
        · refine .inl ⟨?_, hsame⟩
          intro e he hnames
          rcases List.mem_cons.mp he with rfl | he
          · exact hmethod hnames.1
          · exact hnone e he hnames
        · exact .inr ⟨e, List.mem_cons_of_mem _ he, hnames, hfield⟩

theorem luaObject_of_cached {l : ArgcacheLocals} {o o' : UrpcObject}
    (h : cacheObject l o = .ok o') : luaObject o' = luaObject o := by
  obtain ⟨acache, rcache, rfl⟩ := cacheObject_eq_ok h
  rfl

theorem lUrpcDiscovery_eq_ok {mem : Bool} {locals : Nat → ArgcacheLocals}
    {n : Nat} {inst inst' : UrpcInstance} {table : List LuaObject}
    (h : lUrpcDiscovery mem locals n inst = .ok (inst', table)) :
    fillLoop locals n 0 inst.objlist = .ok inst'.objects ∧
      table = inst'.objects.map luaObject := by
  rw [lUrpcDiscovery] at h
  by_cases hnull : (!mem && !inst.objlist.isEmpty) = true
  · rw [if_pos hnull] at h
    cases h
  · rw [if_neg hnull, bind_eq_ok] at h
    obtain ⟨objects, hobjects, h⟩ := h
    cases h
    exact ⟨hobjects, rfl⟩

/-- A `urpc_open` that went through: an instance nothing had been received on
sent the request, the device's answer came in, `l_urpc_discovery` filled the
array and the table, and the loop made a node of the table, in the order
`pairs` chose. What was written to the queue in between is left open. -/
structure UrpcOpen (host : Endian) (d : DeviceAnswer) where
  env : CallEnv
  start : Port
  asked : Port
  reads : List SerialRead
  heard : SerialXfer
  log : List Call
  mem : Bool
  locals : Nat → ArgcacheLocals
  inst : UrpcInstance
  table : List LuaObject
  entries : List (Nat × LuaObject)
  node : LuaNode
  port : Port
  opened : Opened start
  asks : urpcSerialDiscovery env start = .ok asked
  delivered : Delivered host asked.xfer reads
  whole : bytesOf reads = d.bytes
  hears : receive host asked.xfer reads = .ok (heard, log)
  returns : lUrpcDiscovery mem locals heard.data.objcount heard.data.inst
    = .ok (inst, table)
  pairs : entries.Perm (luaTable table)
  builds : urpcOpenLoop entries newNode = some node
  handler : port.xfer.handleData = heard.handleData
  data : port.xfer.data = { heard.data with inst }

namespace UrpcOpen

variable {host : Endian} {d : DeviceAnswer} (u : UrpcOpen host d)

theorem found : Found d [] 0 u.heard :=
  receive_answer u.opened u.asks u.delivered u.whole u.hears

/-- An object of the answer, in the array and in the table. -/
theorem object {k : Nat} {q : List UInt8 × DeviceObject}
    (hk : d.objects[k]? = some q) :
    ∃ own, cacheObject (u.locals k) q.2.object = .ok own ∧
      u.inst.objects[k]? = some own ∧
      u.table[k]? = some (luaObject q.2.object) := by
  obtain ⟨hfill, htable⟩ := lUrpcDiscovery_eq_ok u.returns
  rw [u.found.objlist, List.nil_append] at hfill
  have hfound : d.found[k]? = some q.2.object := by
    rw [DeviceAnswer.found, List.getElem?_map, hk]
    rfl
  obtain ⟨own, hown, hcached⟩ := (fillLoop_eq_ok hfill).2.2 k _ hfound
  rw [Nat.zero_add] at hcached
  refine ⟨own, hcached, hown, ?_⟩
  rw [htable, List.getElem?_map, hown, Option.map_some,
    luaObject_of_cached hcached]

end UrpcOpen

/-! ## After that -/

/-- What a call needs of an instance, from `urpc_open` on. -/
structure Ready (objects : List UrpcObject) (x : SerialXfer) : Prop where
  handler : x.handleData = .packets
  szSz : x.data.szSz = 1
  idSz : x.data.idSz = 1
  objects : x.data.inst.objects = objects

theorem Handled.ready {host : Endian} {g : Grant} {x y : SerialXfer}
    {objects : List UrpcObject} (hy : Handled host g x .packets y)
    (hx : Ready objects x) : Ready objects y := by
  obtain ⟨hhandler, hsz, hid, hobjects⟩ := hx
  cases hy with
  | noise | counts | adds | ignored => exact ⟨hhandler, hsz, hid, hobjects⟩
  | start hs hb he | length hs hn he =>
      obtain ⟨data, hy⟩ := auraAsyncExpectBytes_eq_ok he
      constructor <;> simp only [hy, expecting_data, expecting_handleData]
      · exact hhandler
      · exact hsz
      · exact hid
      · exact hobjects

theorem ready_step {host : Endian} {objects : List UrpcObject} {p q : Port}
    {e : SerialEvent} (hp : Ready objects p.xfer) (hguard : NoDiscovery p e)
    (hstep : serialStep host p e = .ok q) : Ready objects q.xfer := by
  have hs := serialStep_stepped hguard.ne hstep
  generalize q.xfer = x at hs
  have habsorbed : ∀ {y : SerialXfer} {bytes : List UInt8},
      absorbBytes p.xfer bytes = .ok y → Ready objects y := by
    intro y bytes hy
    obtain ⟨data, _, rfl⟩ := absorbBytes_eq_ok.mp hy
    exact ⟨hp.handler, hp.szSz, hp.idSz, hp.objects⟩
  cases hs with
  | nothing => exact hp
  | absorbs hy => exact habsorbed hy
  | fires hy hzero hz =>
      have hready := habsorbed hy
      rw [hready.handler] at hz
      exact (handleData_handled hz).ready hready
  | sends => exact ⟨hp.handler, hp.szSz, hp.idSz, hp.objects⟩

/-- Whatever happens to an instance once it is open, short of another
discovery. -/
theorem UrpcOpen.ready {host : Endian} {d : DeviceAnswer}
    (u : UrpcOpen host d) {p : Port}
    (hrun : Runs (serialStep host) NoDiscovery u.port p) :
    Ready u.inst.objects p.xfer := by
  refine hrun.invariant (I := fun q => Ready u.inst.objects q.xfer)
    (fun q e r hq hguard hstep => ready_step hq hguard hstep) ?_
  obtain ⟨_, _, _, hsz, hid, hhandler⟩ := u.found
  refine ⟨u.handler.trans hhandler, ?_, ?_, ?_⟩
  · rw [u.data]
    exact hsz
  · rw [u.data]
    exact hid
  · rw [u.data]

/-! ## The call that is meant -/

/-- The function with key `k + 1` calls under the id `k`, whatever the
transport. -/
theorem callMethod_eq {ι α : Type} {node : LuaNode} {k : Nat}
    (hnode : node instanceKey = some .inst) (hk : (k : Int) ≤ intMax)
    (L : LuaState) (call : LuaState → Nat → ι → Res α) (args : List LuaValue)
    (inst : ι) :
    callMethod L call node (k + 1) args inst
      = call (methodStack L (k + 1) args) k inst := by
  have hid : cInt (truncRat (luaToNumber (methodStack L (k + 1) args) 2))
      = k := by
    show cInt (truncRat ((((k + 1 : Nat) : Int) - 1 : Int) : Rat)) = k
    rw [truncRat_intCast, show ((k + 1 : Nat) : Int) - 1 = k by omega]
    exact cInt_of_mem (by unfold intMax; omega) hk
  rw [callMethod, if_pos hnode]
  dsimp only [lUrpcCall]
  rw [hid, if_neg (by omega), Int.toNat_natCast]

section Call

variable {host : Endian} {k : Nat} {own : UrpcObject} {p : Port}

end Call

/-! ## Every method can be called -/

section Reaches

variable {host : Endian} {node : LuaNode} {p : Port} {o : DeviceObject}
  {own : UrpcObject} {k : Nat} {len : Int} {fmt : UInt8}

end Reaches

end Aura.Proofs
