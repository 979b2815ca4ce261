import Aura.Ref.Open

/-!
# The line settings of a serial port (uart.c, uart.h)

`Ref.Open` keeps of a settings string what an attempt to open depends on. Here
are the flag words the string is turned into and the `termios` they end up in.
The flags are those of Linux.
-/

namespace Aura.Ref

open Aura.Lib

/-! ## termios.h -/

/-- `tcflag_t`. -/
abbrev Tcflag := BitVec 32

def cstopb : Tcflag := 0o100

def cread : Tcflag := 0o200

def parenb : Tcflag := 0o400

def parodd : Tcflag := 0o1000

def clocal : Tcflag := 0o4000

/-- The flag of each case of `MAPSPEED`. -/
def baudFlags : List (Int × Tcflag) :=
  [(230400, 0o10003), (115200, 0o10002), (57600, 0o10001), (38400, 0o17),
    (19200, 0o16), (9600, 0o15), (4800, 0o14), (2400, 0o13), (1200, 0o11),
    (300, 0o7)]

/-- The flag of each case of `MAPBITS`. -/
def sizeFlags : List (Int × Tcflag) :=
  [(5, 0), (6, 0o20), (7, 0o40), (8, 0o60)]

/-- `struct termios`, as far as it is written to. -/
structure Termios where
  cIflag : Tcflag
  cOflag : Tcflag
  cCflag : Tcflag
  cLflag : Tcflag
  vtime : UInt8
  vmin : UInt8
  deriving DecidableEq, Repr

/-- `cfmakeraw`: no input or output processing, no line editing, eight bits
without parity. -/
def cfmakeraw (t : Termios) : Termios :=
  { cIflag := t.cIflag &&& ~~~0o2753
    cOflag := t.cOflag &&& ~~~0o1
    cLflag := t.cLflag &&& ~~~0o100113
    cCflag := t.cCflag &&& ~~~0o460 ||| 0o60
    vtime := 0
    vmin := 1 }

/-! ## From the string to the port -/

/-- `struct uart_settings_t`, with its flag words. -/
structure UartSettingsT where
  ifl : Tcflag
  cfl : Tcflag
  ofl : Tcflag
  port : Option (List UInt8)
  fd : Int
  deriving DecidableEq, Repr

/-- What `Ref.Open` keeps of the settings. -/
def UartSettingsT.plain (s : UartSettingsT) : UartSettings := ⟨s.port, s.fd⟩

/-- `s->cfl |= flag`. -/
def UartSettingsT.orCfl (s : UartSettingsT) (flag : Tcflag) : UartSettingsT :=
  { s with cfl := s.cfl ||| flag }

/-- The parity field: `o`, `e`, or anything else for none. -/
def parityFlags (t : List UInt8) : Tcflag :=
  if t = [chr 'o'] then parenb ||| parodd
  else if t = [chr 'e'] then parenb
  else 0

/-- The `switch` over a number, where there is a token for it; `none` is
`FAULT`. `v` is what the local holds on entry. -/
def UartSettingsT.switch (flags : List (Int × Tcflag)) (v : Int)
    (s : UartSettingsT) : Option (List UInt8) → Option UartSettingsT
  | none => some s
  | some t => s.orCfl <$> flags.lookup (sscanfD t v)

def UartSettingsT.setParity (s : UartSettingsT) :
    Option (List UInt8) → UartSettingsT
  | none => s
  | some t => s.orCfl (parityFlags t)

def UartSettingsT.setStop (s : UartSettingsT) :
    Option (List UInt8) → UartSettingsT
  | none => s
  | some t =>
      if t.head? = some (chr '2') then { s with ofl := s.ofl ||| cstopb } else s

/-- `urpcserial_make_settings`, once there is memory for the result. `speed` is
what the local of that name holds on entry. -/
def makeSettings (speed : Int) (str : List UInt8) : Option UartSettingsT := do
  let toks := strtok str (chr ':')
  let s : UartSettingsT :=
    { ifl := 0, cfl := 0, ofl := 0, port := toks[0]?, fd := 0 }
  let s ← s.switch baudFlags speed toks[1]?
  let s ← s.switch sizeFlags 0 toks[2]?
  pure ((s.setParity toks[3]?).setStop toks[4]?)

/-- What `urpcserial_uart_init` gives `tcsetattr`. -/
def uartTermios (us : UartSettingsT) : Termios :=
  let newtio := cfmakeraw ⟨0, 0, 0, 0, 0, 0⟩
  { newtio with
    cCflag := us.cfl ||| clocal ||| cread
    cIflag := us.ifl
    cOflag := us.ofl
    cLflag := 0
    vtime := 0
    vmin := 0 }

end Aura.Ref
