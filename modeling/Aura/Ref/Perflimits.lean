import Aura.Ref.Lua

/-!
# The runaway limit (lua_perflimits.c)

A count hook aborts a script after so many VM instructions. The limit is a
static of the module, set and read from Lua.
-/

namespace Aura.Ref

/-! ## Lua -/

/-- `lua_gettop`. -/
def luaGettop (L : LuaState) : Nat := L.stack.length

/-- `lua_isnumber`. -/
def luaIsnumber (L : LuaState) (n : Nat) : Bool :=
  match L.slot n with
  | .number _ => true
  | .string s => (L.stringToNumber s).isSome
  | _ => false

/-- `lua_tonumber` at any index: a negative one counts from the top, and what
is read at one that is below the stack, or is 0, is up to `outside`. -/
def luaToNumberAt (outside : Int → Rat) (L : LuaState) (n : Int) : Rat :=
  if 0 < n then luaToNumber L n.toNat
  else if 0 < luaGettop L + 1 + n ∧ n ≠ 0 then
    luaToNumber L (luaGettop L + 1 + n).toNat
  else outside n

/-- How a C function called from Lua comes back: with its results, or by
`luaL_error`. -/
inductive LuaReturn
  | results (vs : List LuaValue)
  | error (text : String)
  deriving DecidableEq

/-! ## The module -/

/-- The static `count`, and the count the last `lua_sethook` installed. -/
structure Protector where
  count : Int
  hookcount : Int
  deriving DecidableEq, Repr

/-- `aura_setup_vm_protection`. -/
def auraSetupVmProtection (p : Protector) (cnt : Int) : Int × Protector :=
  let p := { p with count := cnt }
  (0, { p with hookcount := p.count })

/-- `Lsetprot`. -/
def lsetprot (outside : Int → Rat) (L : LuaState) (p : Protector) :
    Res (LuaReturn × Protector) :=
  if luaGettop L ≠ 1 then pure (.error "Invalid number of arguments!", p)
  else if !luaIsnumber L 1 then pure (.error "Argument must be a number", p)
  else do
    -- the index is the limit in force
    let n ← intArith (truncRat (luaToNumberAt outside L p.count))
    let (_, p) := auraSetupVmProtection p n
    pure (.results [], p)

/-- `Lgetprot`. -/
def lgetprot (L : LuaState) (p : Protector) : LuaReturn :=
  if luaGettop L ≠ 0 then .error "Invalid number of arguments!"
  else .results [.number p.count]

/-- The limit of `aura_protector_init`. -/
def initialLimit : Int := 90000000

/-- `aura_protector_init`, less the names of the functions. -/
def auraProtectorInit : Protector :=
  (auraSetupVmProtection ⟨0, 0⟩ initialLimit).2

/-! ## Calls from Lua -/

/-- A positive `int`. -/
def Limit := { n : Int // 0 < n ∧ n ≤ intMax }

/-- `aura_setvmprot(n)`, with what is outside the stack it is called on, and
`aura_getvmprot()`. -/
inductive ProtCall
  | setvmprot (n : Limit) (outside : Int → Rat)
  | getvmprot

/-- A stack with the arguments `vs`. -/
def LuaState.args (vs : List LuaValue) : LuaState :=
  ⟨vs, fun _ => [], fun _ => none⟩

/-- The state, and what the calls so far have returned. -/
structure ProtRun where
  state : Protector
  returned : List LuaReturn

def protStep (s : ProtRun) : ProtCall → Res ProtRun
  | .setvmprot n outside => do
      let (r, state) ← lsetprot outside (.args [.number n.1]) s.state
      pure ⟨state, s.returned ++ [r]⟩
  | .getvmprot =>
      pure { s with returned := s.returned ++ [lgetprot (.args []) s.state] }

def protRun (calls : List ProtCall) : Res ProtRun :=
  calls.foldlM protStep ⟨auraProtectorInit, []⟩

end Aura.Ref
