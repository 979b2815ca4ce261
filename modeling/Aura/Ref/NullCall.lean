import Aura.Ref.Null
import Aura.Ref.Urpc

/-!
# Calls of the null transport (urpcnull.c, urpc.c, init.lua)

The null transport answers its calls itself: it packs the arguments, prints
them, and unpacks the name of the host as if a device had sent it. The objects
are static, so the caches a discovery puts into them are those of all
instances, and so is the buffer the name is in. What it prints is left out.
-/

namespace Aura.Ref

open Aura.Lib

/-! ## What the instances share -/

/-- `o1`, `o2` and `o3` as they are initialised, less the links. A head is no
object. -/
def nullObject : NullAddr → Option UrpcObject
  | .o1 => some
      { flags := 1, name := some ("hostname".toList.map chr), args := none
        acache := none, reply := some ("s;".toList.map chr), rcache := none }
  | .o2 => some
      { flags := 1, name := some ("packnumbers".toList.map chr)
        args := some ("1d;2d;1u;2u;".toList.map chr), acache := none
        reply := none, rcache := none }
  | .o3 => some
      { flags := 1, name := some ("unpacknumbers".toList.map chr), args := none
        acache := none, reply := some ("1d;2d;1u;2u;".toList.map chr)
        rcache := none }
  | .head _ => none

/-- The lists and arrays, the objects, and the buffer `reply`. -/
structure NullWorld where
  lists : NullState
  statics : NullAddr → Option UrpcObject
  reply : List UInt8

def nullWorldStart : NullWorld :=
  { lists := nullStart, statics := nullObject
    reply := "(none)".toList.map chr ++ List.replicate 58 0 }

/-! ## Discovery -/

/-- The caches `l_urpc_discovery` puts into the objects it comes by, from the
one with index `j` on. -/
def cacheNull (locals : Nat → ArgcacheLocals) :
    Nat → List NullAddr → (NullAddr → Option UrpcObject) →
      Res (NullAddr → Option UrpcObject)
  | _, [], objects => pure objects
  | j, a :: as, objects =>
      match objects a with
      | none => .error .outOfBounds
      | some o => do
          let o ← cacheObject (locals j) o
          cacheNull locals (j + 1) as fun b => if b = a then some o else objects b

/-- `l_urpc_discovery` on instance `k`, and the table it returns. -/
def discoverNull (k : Nat) (mem : Bool) (locals : Nat → ArgcacheLocals)
    (w : NullWorld) : Res (List LuaObject × NullWorld) := do
  let lists ← lUrpcDiscoveryNull k mem w.lists
  let found := (lists.objects k).getD []
  let statics ← cacheNull locals 0 found w.statics
  pure (found.filterMap fun a => (statics a).map luaObject,
    { w with lists, statics })

/-! ## Calls -/

/-- `gethostname`: the name with its terminator, as far as `len` bytes go. -/
def gethostname (name : List UInt8) (len : Nat) (buf : List UInt8) :
    List UInt8 :=
  (name ++ [0]).take len ++ buf.drop (min len (name.length + 1))

/-- What a call is given: the Lua stack, the allocator's answers, the fuel of
the packing loop, and the name of the host. -/
structure NullCallEnv where
  L : LuaState
  mem : Grant
  grants : Nat → Grant
  fuel : Nat
  hostname : List UInt8

/-- `urpc_null_call`, and the values it returns: the topmost of those
pushed. -/
def urpcNullCall (host : Endian) (env : NullCallEnv) (k id : Nat)
    (w : NullWorld) : Res (List LuaValue × NullWorld) :=
  match w.lists.objects k with
  | none => .error .nullDeref
  | some objects =>
      match objects[id]?.bind w.statics with
      | none => .error .outOfBounds
      | some o => do
          match ← urpcPackData host env.mem env.grants env.fuel env.L 256 0
              o.acache false with
          | none => pure ([], w)
          | some chunk =>
              let w := { w with reply := gethostname env.hostname 64 w.reply }
              -- the bytes of the chunk are printed
              if chunk.alloc < chunk.size then .error .outOfBounds
              else if o.reply.isSome then
                let (pushed, n) ← urpcUnpackData host w.reply o.rcache false
                pure (pushed.drop (pushed.length - n), w)
              else pure ([], w)

/-! ## Scripts -/

/-- `urpc_open` with the null transport, for `argc` arguments of `__urpc_open`.
`pairs` is the order the table of the objects is gone through in. `none` is the
nil of an instance that was not opened, or the error of an object without a
name. -/
def urpcOpenNull (argc : Nat) (priv inst mem : Bool)
    (locals : Nat → ArgcacheLocals)
    (pairs : List (Nat × LuaObject) → List (Nat × LuaObject))
    (w : NullWorld) : Res (Option LuaNode × NullWorld) := do
  let lists ← lUrpcOpenNull argc priv inst w.lists
  if argc < 2 then pure (none, { w with lists })
  else
    let (table, w) ←
      discoverNull w.lists.opened mem locals { w with lists }
    pure (urpcOpenLoop (pairs (luaTable table)) newNode, w)

/-- The function for the entry with key `i` of a node of instance `k`. -/
def callNullMethod (host : Endian) (env : NullCallEnv) (node : LuaNode)
    (k i : Nat) (args : List LuaValue) (w : NullWorld) :
    Res (List LuaValue × NullWorld) :=
  callMethod env.L
    (fun L id k => urpcNullCall host { env with L } k id w) node i args k

/-- What scripts do with the null transport. -/
inductive NullScript
  | opens (argc : Nat) (priv inst : Bool)
  | discovers (k : Nat) (mem : Bool) (locals : Nat → ArgcacheLocals)
  | calls (env : NullCallEnv) (i : Option Nat)

def nullScriptStep (host : Endian) (w : NullWorld) :
    NullScript → Res NullWorld
  | .opens argc priv inst => do
      let lists ← lUrpcOpenNull argc priv inst w.lists
      pure { w with lists }
  | .discovers k mem locals => do
      let (_, w) ← discoverNull k mem locals w
      pure w
  | .calls env i => do
      let (_, w) ← lUrpcCall env.L
        (fun id k => urpcNullCall host env k id w) i
      pure w

end Aura.Ref
