import Mathlib.Data.Rat.Defs
import Aura.Ref.Mem

/-!
# The Lua stack, as the packers see it

The C side reads call arguments off the stack with `lua_tonumber` and
`lua_tostring` and pushes results with `lua_pushnumber` and `lua_pushstring`.
Lua itself is not part of this repository: how it prints a number and which
strings it takes for numerals are left open, as two functions of the state.
-/

namespace Aura.Ref

/-- What a stack slot holds. A `lua_Number` that matters to a packer is
finite, so a rational says it exactly. -/
inductive LuaValue
  | nil
  | boolean (b : Bool)
  | number (q : Rat)
  | string (s : List UInt8)
  /-- Tables, functions, userdata, threads: nothing a packer can read. -/
  | other
  deriving DecidableEq

/-- A `lua_State`: the stack of the running C function, slot 1 first, and
Lua's two conversions between numbers and strings. -/
structure LuaState where
  stack : List LuaValue
  numberToString : Rat → List UInt8
  stringToNumber : List UInt8 → Option Rat

/-- The value at a positive stack index; above the top there is none. -/
def LuaState.slot (L : LuaState) (n : Nat) : LuaValue :=
  match n with
  | 0 => .nil
  | n + 1 => L.stack.getD n .nil

/-- `lua_tonumber`. -/
def luaToNumber (L : LuaState) (n : Nat) : Rat :=
  match L.slot n with
  | .number q => q
  | .string s => (L.stringToNumber s).getD 0
  | _ => 0

/-- `lua_tostring`: `none` is NULL, and what a C caller sees of the string
ends at its first NUL. (Lua also turns the number in the slot into its
string; no slot is read twice.) -/
def luaToString (L : LuaState) (n : Nat) : Option (List UInt8) :=
  match L.slot n with
  | .string s => some (s.takeWhile (· ≠ 0))
  | .number q => some ((L.numberToString q).takeWhile (· ≠ 0))
  | _ => none

/-- The truncation a C conversion from `double` to an integer performs. -/
def truncRat (q : Rat) : Int := q.num.tdiv q.den

@[simp] theorem truncRat_intCast (z : Int) : truncRat z = z := by
  simp [truncRat]

end Aura.Ref
