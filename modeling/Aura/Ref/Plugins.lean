import Aura.Ref.Lua
import Aura.Ref.Datahelpers

/-!
# Plugins (plugin.c, init.lua, urpc.c)

`load_plugin` looks for a library along the search path and has the first one
that can be loaded initialise itself. What the initialisers do that lasts is in
Lua's globals: the urpc plugin makes a table of transports, and the transports
put themselves into it by way of a function of the urpc plugin, which the
dynamic linker looks for when it is called.
-/

namespace Aura.Ref

/-! ## Libraries -/

inductive Plugin
  | dummy
  | tcp
  | urpc
  | urpcNull
  | urpcSerial
  deriving DecidableEq, Repr

/-- A library and which of the plugins it is. Each copy has a `struct
urpc_transport` of its own, which it is known by. -/
structure Library where
  handle : Nat
  plugin : Plugin
  deriving DecidableEq, Repr

/-- What is found at a path. -/
inductive LibFile
  /-- `access` refuses. -/
  | unreadable
  /-- `dlopen` returns NULL. -/
  | notLoadable
  /-- `dlsym` finds no `aura_plugin_init`. -/
  | noInit
  | library (l : Library)
  deriving DecidableEq, Repr

/-- Why the loading of plugins does not go on. -/
inductive LoadFault
  /-- A function is called that no library loaded so far has: the process is
  ended. -/
  | symbolLookup
  /-- A field of nil is set or asked for: an error in Lua. -/
  | indexNil
  deriving DecidableEq, Repr

/-- Whether the symbols of the urpc plugin are there, and the global
`__urpc_transports`; `none` is nil. -/
structure PluginWorld where
  linked : Bool
  transports : Option (List UInt8 → Option Library)

abbrev Loaded := Except LoadFault

/-! ## Initialisation -/

/-- `urpc_register_transport`, called from another library. -/
def urpcRegisterTransport (name : List UInt8) (t : Library) (s : PluginWorld) :
    Loaded PluginWorld :=
  if s.linked then
    match s.transports with
    | none => .error .indexNil
    | some table =>
        pure { s with
          transports := some fun n => if n = name then some t else table n }
  else .error .symbolLookup

/-- `aura_plugin_init` of the urpc plugin; the functions it registers are left
out. -/
def urpcPluginInit (s : PluginWorld) : Loaded PluginWorld :=
  pure { s with transports := some fun _ => none }

/-- `aura_plugin_init` of a library. -/
def auraPluginInit (l : Library) (s : PluginWorld) : Loaded PluginWorld :=
  match l.plugin with
  | .dummy | .tcp => pure s
  | .urpc => urpcPluginInit s
  | .urpcNull => urpcRegisterTransport ("null".toList.map chr) l s
  | .urpcSerial => urpcRegisterTransport ("serial".toList.map chr) l s

/-- `l_plugin_load` on a path. A library that is loaded has its symbols looked
up by all that are loaded later. Every `aura_plugin_init` returns the number
1. -/
def lPluginLoad (files : List UInt8 → LibFile) (path : List UInt8)
    (s : PluginWorld) : Loaded (List LuaValue × PluginWorld) :=
  match files path with
  | .unreadable | .notLoadable | .noInit => pure ([], s)
  | .library l => do
      let s ←
        auraPluginInit l { s with linked := s.linked || l.plugin = .urpc }
      pure ([.number 1], s)

/-! ## Scripts -/

/-- `j.."lib"..name..".so"`. -/
def pluginPath (j name : List UInt8) : List UInt8 :=
  j ++ "lib".toList.map chr ++ name ++ ".so".toList.map chr

/-- The loop of `load_plugin`: the first path that gives anything but nil ends
it. -/
def loadPlugin (files : List UInt8 → LibFile) (name : List UInt8) :
    List (List UInt8) → PluginWorld → Loaded PluginWorld
  | [], s => pure s
  | j :: paths, s => do
      let (results, s) ← lPluginLoad files (pluginPath j name) s
      if results.headD .nil ≠ .nil then pure s
      else loadPlugin files name paths s

/-- A call of `load_plugin`, with the files there are at the time and
`config.pluginpaths`. -/
structure LoadCall where
  files : List UInt8 → LibFile
  paths : List (List UInt8)
  name : List UInt8

def loadStep (s : PluginWorld) (c : LoadCall) : Loaded PluginWorld :=
  loadPlugin c.files c.name c.paths s

/-- The calls of `load_plugin` that init.lua makes for `config.plugins`, and
those of later scripts. -/
def loadRun (cs : List LoadCall) : Loaded PluginWorld :=
  cs.foldlM loadStep ⟨false, none⟩

/-- The transport `urpc_open` finds under a name. -/
def urpcTransport (name : List UInt8) (s : PluginWorld) :
    Loaded (Option Library) :=
  match s.transports with
  | none => .error .indexNil
  | some table => pure (table name)

end Aura.Ref
