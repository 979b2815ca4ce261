import Aura.Ref.Open
import Aura.Ref.Urpc

/-!
# The process (main_loop.c, serial.c, urpc.c)

One epoll set, any number of serial instances. Scripts open instances, have
them discover their objects and call these; in between, and while a call or a
discovery waits, the main loop takes events one at a time and hands each to the
transfer handler of the hook it came with. No handler runs a script, so what
happens is one sequence, whoever is waiting in it.
-/

namespace Aura.Ref

open Aura.Lib

/-- What happens to one instance: an event of its descriptor, a call or a
discovery up to their wait loops, and the caches a discovery fills in when its
wait is over. -/
inductive InstanceEvent
  | turn (ev : EpollEvents) (r : ReadResult) (ws : List WriteResult)
      (ctl : Bool) (g : Grant)
  | call (env : CallEnv) (id : Nat)
  | discovery (env : CallEnv)
  | caches (mem : Bool) (locals : Nat → ArgcacheLocals) (n : Nat)

/-- One event, with the epoll set of the process. Without a receiver there is
no buffer to read into or to measure. -/
def instanceStep (host : Endian) (o : OpenSerial) (efd : EpollSet) :
    InstanceEvent → Res (OpenSerial × EpollSet)
  | .turn ev r ws ctl g => do
      if ev.epollin && !o.receiver then .error .nullDeref
      else
        let (_, xfer, efd) ←
          auraAsyncXferHandler (handleData host g) ev r ws ctl efd o.xfer
        pure ({ o with xfer }, efd)
  | .call env id => do
      let p ← urpcSerialCall host env id ⟨o.xfer, efd⟩
      pure ({ o with xfer := p.xfer }, p.efd)
  | .discovery env => do
      if !o.receiver then .error .nullDeref
      else
        let p ← urpcSerialDiscovery env ⟨o.xfer, efd⟩
        pure ({ o with xfer := p.xfer }, p.efd)
  | .caches mem locals n => do
      let (inst, _) ← lUrpcDiscovery mem locals n o.xfer.data.inst
      pure ({ o with xfer := { o.xfer with
        data := { o.xfer.data with inst } } }, efd)

inductive ServerEvent
  | opens (a : OpenEnv)
  | on (k : Nat) (e : InstanceEvent)

/-- One event of the process. A script that names no instance hands in the NULL
`lua_touserdata` makes of it. -/
def serverStep (host : Endian) (w : SerialWorld) :
    ServerEvent → Res SerialWorld
  | .opens a => openStep w a
  | .on k e =>
      match w.instances[k]? with
      | none => .error .nullDeref
      | some o => do
          let (o, efd) ← instanceStep host o w.efd e
          pure ⟨efd, w.instances.set k o⟩

end Aura.Ref
