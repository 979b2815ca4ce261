import Aura.Ref.Serial

/-!
# The urpc plugin and its Lua side (urpc.c, init.lua)

A discovery gives the objects of an instance three lives: as the list the
transport appended them to, as the array `inst->objects` that calls index, and
as a Lua table from which `urpc_open` makes a node with one function per
method. The array and the list share the objects, so the caches filled in
along the way show in both.
-/

namespace Aura.Ref

open Aura.Lib

/-! ## `l_urpc_discovery` -/

/-- `OBJECT_IS_METHOD`, the bit `FLAG_METHOD`. -/
def objectIsMethod (o : UrpcObject) : Bool := o.flags &&& 1 ≠ 0

/-- What `l_urpc_discovery` tells Lua about an object; `none` is nil. -/
structure LuaObject where
  isMethod : Bool
  name : Option (List UInt8)
  args : Option (List UInt8)
  reply : Option (List UInt8)
  deriving DecidableEq, Repr

def luaObject (o : UrpcObject) : LuaObject :=
  { isMethod := objectIsMethod o, name := o.name, args := o.args
    reply := o.reply }

/-- What the locals `len` and `fmt` of `urpc_argcache` hold on entry, for the
two calls an object leads to. -/
structure ArgcacheLocals where
  args : Int × UInt8
  reply : Int × UInt8

/-- The caches of an object. The arguments of an event are cached for
unpacking. -/
def cacheObject (l : ArgcacheLocals) (o : UrpcObject) : Res UrpcObject :=
  if objectIsMethod o then do
    let acache ← urpcArgcache l.args.1 l.args.2 o.args true
    let rcache ← urpcArgcache l.reply.1 l.reply.2 o.reply false
    pure { o with acache, rcache }
  else do
    let acache ← urpcArgcache l.args.1 l.args.2 o.args false
    pure { o with acache, rcache := none }

/-- The walk over `objlist`, from the object with index `j` on, with `slots`
pointers allocated. -/
def fillLoop (locals : Nat → ArgcacheLocals) (slots : Nat) :
    Nat → List UrpcObject → Res (List UrpcObject)
  | _, [] => pure []
  | j, o :: os =>
      if j < slots then do
        let o ← cacheObject (locals j) o
        let os ← fillLoop locals slots (j + 1) os
        pure (o :: os)
      else .error .outOfBounds

/-- `l_urpc_discovery` once the transport has returned `n`. `mem` answers the
unchecked `malloc`. -/
def lUrpcDiscovery (mem : Bool) (locals : Nat → ArgcacheLocals) (n : Nat)
    (inst : UrpcInstance) : Res (UrpcInstance × List LuaObject) :=
  if !mem && !inst.objlist.isEmpty then .error .nullDeref
  else do
    let objects ← fillLoop locals n 0 inst.objlist
    pure (⟨objects, objects⟩, objects.map luaObject)

/-! ## `urpc_open`, in Lua -/

/-- What a field of a node holds: the transport, the instance, or the function
made for the entry with key `i`. -/
inductive NodeField
  | transport
  | inst
  | method (i : Nat)
  deriving DecidableEq, Repr

/-- A node: its fields by name. -/
abbrev LuaNode := List UInt8 → Option NodeField

def transportKey : List UInt8 :=
  [chr '_', chr '_', chr 't', chr 'r', chr 'a', chr 'n', chr 's', chr 'p',
    chr 'o', chr 'r', chr 't']

def instanceKey : List UInt8 :=
  [chr '_', chr '_', chr 'i', chr 'n', chr 's', chr 't', chr 'a', chr 'n',
    chr 'c', chr 'e']

def LuaNode.set (node : LuaNode) (key : List UInt8) (v : NodeField) :
    LuaNode :=
  fun k => if k = key then some v else node k

/-- The node before the discovery. -/
def newNode : LuaNode := fun k =>
  if k = instanceKey then some .inst
  else if k = transportKey then some .transport
  else none

/-- The table of the objects: keys count from one. -/
def luaTable (objects : List LuaObject) : List (Nat × LuaObject) :=
  (List.range' 1 objects.length).zip objects

/-- The loop of `urpc_open` over the entries in the order `pairs` gives them;
`none` is the error a nil index raises. The table of an object never has a
field `is_event`. -/
def urpcOpenLoop : List (Nat × LuaObject) → LuaNode → Option LuaNode
  | [], node => some node
  | (i, j) :: entries, node =>
      if j.isMethod then
        match j.name with
        | none => none
        | some name => urpcOpenLoop entries (node.set name (.method i))
      else urpcOpenLoop entries node

/-! ## Calls -/

/-- `l_urpc_call`, where `call` is `i->transport->call`; `lua_touserdata` gives
NULL for anything but a userdata. -/
def lUrpcCall {ι α : Type} (L : LuaState) (call : Nat → ι → Res α)
    (i : Option ι) : Res α :=
  match i with
  | none => .error .nullDeref
  | some i =>
      let id := cInt (truncRat (luaToNumber L 2))
      if id < 0 then .error .outOfBounds
      else call id.toNat i

/-- The stack `__urpc_call` finds: instance, id, arguments. -/
def methodStack (L : LuaState) (i : Nat) (args : List LuaValue) : LuaState :=
  { L with stack := .other :: .number (((i : Int) - 1 : Int) : Rat) :: args }

/-- The function `urpc_open` made for the entry with key `i` of a node,
applied to `args`. It looks the instance `inst` up in the node when it is
called. -/
def callMethod {ι α : Type} (L : LuaState) (call : LuaState → Nat → ι → Res α)
    (node : LuaNode) (i : Nat) (args : List LuaValue) (inst : ι) : Res α :=
  let L := methodStack L i args
  lUrpcCall L (call L) (if node instanceKey = some .inst then some inst else none)

end Aura.Ref
