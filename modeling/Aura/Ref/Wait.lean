import Aura.Ref.Serial

/-!
# Waiting for the device (serial.c, main_loop.c)

A discovery, and a call of a method with a reply, run the main loop until
`state` is set. Of what a turn of the loop can bring, this instance sees what
happens on its own descriptor; everything else is a turn in which nothing
happens.
-/

namespace Aura.Ref

open Aura.Lib

/-- What one `aura_loop_once` does to an instance. -/
inductive Turn
  | timeout
  | epollin (r : ReadResult) (g : Grant)
  | epollout (ws : List WriteResult) (ctl : Bool)

def loopTurn (host : Endian) (p : Port) : Turn → Res Port
  | .timeout => pure p
  | .epollin r g => serialStep host p (.epollin r g)
  | .epollout ws ctl => serialStep host p (.epollout ws ctl)

/-- `while ((s->state==0)) aura_loop_once(L)`, with what the turns bring; behind
the last of them nothing happens any more. The counter `loops` of the discovery
has no part in it. -/
def waitLoop (host : Endian) : Nat → List Turn → Port → Res Port
  | 0, _, _ => .error .outOfFuel
  | fuel + 1, turns, p =>
      if p.xfer.data.state = 0 then do
        let p ← loopTurn host p (turns.headD .timeout)
        waitLoop host fuel turns.tail p
      else pure p

end Aura.Ref
