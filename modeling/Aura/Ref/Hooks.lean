import Aura.Ref.Datahelpers

/-!
# The hook registry (hooks.c)

C functions that Lua can call are registered with an `aura_hook` each. The
hooks are linked into a list through their `next` fields, which two static
pointers hold the ends of; `aura_hooks`, the built-in one, walks it. The hooks
belong to whoever registers them, alone or in arrays, and nobody sets their
`next` beforehand.

`φ` are the C functions. Of the Lua state only the globals are kept, which
`lua_register` sets.
-/

namespace Aura.Ref

/-- `struct aura_hook*`: an element of an array. A hook of its own is an array
of one. -/
structure AuraHookPtr where
  array : Nat
  index : Nat
  deriving DecidableEq, Repr

/-- `&hook[i]`. -/
def AuraHookPtr.at (hook : AuraHookPtr) (i : Nat) : AuraHookPtr :=
  { hook with index := hook.index + i }

/-- `struct aura_hook`; `none` is NULL. -/
structure AuraHook (φ : Type) where
  func : φ
  name : Option (List UInt8)
  help : Option (List UInt8)
  args : Option (List UInt8)
  next : Option AuraHookPtr
  deriving DecidableEq, Repr

/-- The hooks in memory, the static pointers `base` and `end`, and the globals
of the Lua state. -/
structure HookRegistry (φ : Type) where
  hooks : AuraHookPtr → Option (AuraHook φ)
  base : Option AuraHookPtr
  last : Option AuraHookPtr
  globals : List UInt8 → Option φ

variable {φ : Type}

namespace HookRegistry

/-- `*h`. -/
def deref (r : HookRegistry φ) : Option AuraHookPtr → Res (AuraHook φ)
  | none => .error .nullDeref
  | some p =>
      match r.hooks p with
      | none => .error .outOfBounds
      | some h => pure h

/-- `h->next = next`. -/
def setNext (r : HookRegistry φ) (h next : Option AuraHookPtr) :
    Res (HookRegistry φ) := do
  let old ← r.deref h
  pure { r with
    hooks := fun p => if some p = h then some { old with next } else r.hooks p }

/-- `lua_register`. A global has to have a name. -/
def luaRegister (r : HookRegistry φ) (name : Option (List UInt8)) (func : φ) :
    Res (HookRegistry φ) :=
  match name with
  | none => .error .nullDeref
  | some name =>
      pure { r with
        globals := fun n => if n = name then some func else r.globals n }

end HookRegistry

/-! ## Registering -/

/-- `aura_func_reg`. -/
def auraFuncReg (hook : Option AuraHookPtr) (r : HookRegistry φ) :
    Res (HookRegistry φ) := do
  let r ← r.setNext r.last hook
  let h := (← r.deref r.last).next
  let r ← r.setNext h none
  let new ← r.deref h
  let r ← r.luaRegister new.name new.func
  pure { r with last := h }

/-- `aura_func_reg_list`. -/
def auraFuncRegList (hook : AuraHookPtr) (count : Int) (r : HookRegistry φ) :
    Res (HookRegistry φ) :=
  (List.range count.toNat).foldlM (fun r i => auraFuncReg (hook.at i) r) r

/-- Where `aura_helph` is. -/
def auraHelphPtr : AuraHookPtr := ⟨0, 0⟩

/-- `aura_helph`; `help` is `l_aura_help`. -/
def auraHelph (help : φ) : AuraHook φ :=
  { func := help
    name := some ("aura_hooks".toList.map chr)
    help := some ("Get a list of exported C hooks".toList.map chr)
    args := none
    next := none }

/-- `aura_func_init`. -/
def auraFuncInit (r : HookRegistry φ) : Res (HookRegistry φ) := do
  let r := { r with base := some auraHelphPtr }
  let r := { r with last := r.base }
  let h ← r.deref r.base
  r.luaRegister h.name h.func

/-! ## Listing -/

/-- The table `l_aura_help` makes of a hook. A string that is NULL is pushed
as nil. -/
structure HookTable where
  name : Option (List UInt8)
  args : Option (List UInt8)
  help : Option (List UInt8)
  deriving DecidableEq, Repr

def AuraHook.table (h : AuraHook φ) : HookTable := ⟨h.name, h.args, h.help⟩

/-- The `do` loop of `l_aura_help`: what it puts into the outer table under
which key. An `int` counts the hooks a memory has room for. -/
def auraHelpLoop (r : HookRegistry φ) :
    Nat → Option AuraHookPtr → Nat → Res (List (HookTable × Nat))
  | 0, _, _ => .error .outOfFuel
  | fuel + 1, p, i => do
      let h ← r.deref p
      let rest ← if h.next.isSome then auraHelpLoop r fuel h.next (i + 1)
        else pure []
      pure ((h.table, i) :: rest)

/-- `l_aura_help`. -/
def lAuraHelp (fuel : Nat) (r : HookRegistry φ) :
    Res (List (HookTable × Nat)) :=
  auraHelpLoop r fuel r.base 1

/-! ## Programs -/

/-- When the program starts: `aura_helph` is initialised, the two pointers are
null, and the hooks of others are as they are. -/
def hookStart (help : φ) (hooks : AuraHookPtr → Option (AuraHook φ))
    (globals : List UInt8 → Option φ) : HookRegistry φ :=
  { hooks := fun p => if p = auraHelphPtr then some (auraHelph help) else hooks p
    base := none
    last := none
    globals }

/-- A call of one of the two functions that register. -/
inductive HookCall
  | reg (hook : AuraHookPtr)
  | regList (hook : AuraHookPtr) (count : Int)
  deriving DecidableEq, Repr

def hookStep (r : HookRegistry φ) : HookCall → Res (HookRegistry φ)
  | .reg hook => auraFuncReg hook r
  | .regList hook count => auraFuncRegList hook count r

/-- `aura_func_init`, and then the calls. -/
def hookRun (calls : List HookCall) (r : HookRegistry φ) :
    Res (HookRegistry φ) := do
  calls.foldlM hookStep (← auraFuncInit r)

end Aura.Ref
