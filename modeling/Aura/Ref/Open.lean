import Aura.Ref.Serial

/-!
# Opening a serial instance (uart.c, serial.c)

Settings are parsed, the port is opened, a transfer object is made for it and
gets a receive buffer. Each of these can fail, and what each of them answers
is part of an attempt. The flags the settings set on the port are left out:
nothing else looks at them.
-/

namespace Aura.Ref

open Aura.Lib

/-! ## The port -/

/-- `struct uart_settings_t`, less the flags; `none` is a NULL `port`. -/
structure UartSettings where
  port : Option (List UInt8)
  fd : Int
  deriving DecidableEq, Repr

/-- The cases of `MAPSPEED`. -/
def mapSpeed : List Int :=
  [230400, 115200, 57600, 38400, 19200, 9600, 4800, 2400, 1200, 300]

/-- The cases of `MAPBITS`. -/
def mapBits : List Int := [5, 6, 7, 8]

/-- `sscanf(tok, "%d", &v)`. -/
def sscanfD (tok : List UInt8) (v : Int) : Int :=
  let (neg, rest) := scanSign (tok.dropWhile isSpace)
  let digits := rest.takeWhile isDigit
  if digits = [] then v else scanValue neg digits

/-- What `urpcserial_make_settings` makes of a string; `none` is `FAULT`.
`speed` is what the local of that name holds on entry. Parity and stop bits
are never at fault. -/
def parseSettings (speed : Int) (str : List UInt8) : Option UartSettings :=
  let toks := strtok str (chr ':')
  if toks[1]?.any fun t => sscanfD t speed ∉ mapSpeed then none
  else if toks[2]?.any fun t => sscanfD t 0 ∉ mapBits then none
  else some { port := toks[0]?, fd := 0 }

/-- What `strtok` takes apart: the copy of the settings, and where `strdup` has
none to give (`str`), what is left of the string it was last given, `left`. -/
def strtokText (str : Bool) (left settings : Option (List UInt8)) :
    Option (List UInt8) :=
  settings.bind fun settings => if str then some settings else left

/-- `urpcserial_make_settings`. `us` answers the `calloc`, whose result is
written to before it is looked at; the result of `strdup` is not looked at
either. -/
def urpcserialMakeSettings (us str : Bool) (left : Option (List UInt8))
    (speed : Int) (settings : Option (List UInt8)) :
    Res (Option UartSettings) :=
  if us then
    match strtokText str left settings with
    | none => .error .nullDeref
    | some text => pure (parseSettings speed text)
  else .error .nullDeref

/-- `urpcserial_uart_init`; `fd` is what `open` answers. -/
def urpcserialUartInit (fd : Int) (us : UartSettings) : Int × UartSettings :=
  if us.fd ≤ 0 then
    if fd < 0 then (-5, { us with fd }) else (fd, { us with fd })
  else (us.fd, us)

/-! ## The instance -/

/-- What an attempt to open is given: the arguments from Lua, the answers of
the allocator (to `malloc` of the instance, `calloc` of the settings, `strdup`,
`malloc` of the transfer object, and for the receive buffer), of `open` and of
the two `epoll_ctl`s, and what memory holds that is not set: there is nothing
`left` for `strtok` when it has been given no string or one that was freed. -/
structure OpenEnv where
  argc : Nat
  settings : Option (List UInt8)
  priv : Bool
  us : Bool
  str : Bool
  left : Option (List UInt8)
  speed : Int
  fd : Int
  xfer : Bool
  add : Bool
  mod : Bool
  rxb : Grant
  data : SerialInstance
  handleData : Handler

/-- An instance that was returned. A transfer object without a receiver has a
NULL buffer, here an empty one. -/
structure OpenSerial where
  xfer : SerialXfer
  receiver : Bool

/-- `urpc_serial_open`; `none` is NULL. -/
def urpcSerialOpen (a : OpenEnv) (efd : EpollSet) :
    Res (Option OpenSerial × EpollSet) := do
  if a.argc < 2 then pure (none, efd)
  -- nl->L is set before nl is looked at
  else if !a.priv then .error .nullDeref
  else
    match ← urpcserialMakeSettings a.us a.str a.left a.speed a.settings with
    | none => pure (none, efd)
    | some us =>
        let (ret, us) := urpcserialUartInit a.fd us
        if 0 > ret then pure (none, efd)
        else
          let hook : AuraEpollHook := ⟨us.fd, ⟨true, false⟩⟩
          match auraCreateAsyncXfer a.xfer a.add a.mod efd hook ⟨[], 0⟩ a.data
              a.handleData with
          -- nl->xfer->data is set before nl->xfer is looked at
          | (none, _) => .error .nullDeref
          | (some x, efd) =>
              let rxb := auraChunkAllocate a.rxb 256
              let x := { x with recv := rxb.getD ⟨[], 0⟩, expectBytes := 0 }
              pure (some ⟨x, rxb.isSome⟩, efd)

/-- The kernel's epoll set and the instances that were returned. -/
structure SerialWorld where
  efd : EpollSet
  instances : List OpenSerial

def openStep (w : SerialWorld) (a : OpenEnv) : Res SerialWorld := do
  let (nl, efd) ← urpcSerialOpen a w.efd
  pure ⟨efd, w.instances ++ nl.toList⟩

/-- One attempt after the other. -/
def openRun (as : List OpenEnv) : Res SerialWorld :=
  as.foldlM openStep ⟨fun _ => none, []⟩

end Aura.Ref
