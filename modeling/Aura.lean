import Aura.Lib.Bytes
import Aura.Lib.Run
import Aura.Lib.Collector
import Aura.Lib.Scan
import Aura.Lib.Ring
import Aura.Lib.Surgery
import Aura.Lib.Shelves
import Aura.Lib.Simulation
import Aura.Lib.Chain
import Aura.Lib.Interleave
import Aura.Lib.Confined
import Aura.Spec.Pipe
import Aura.Ref.Mem
import Aura.Ref.Chunk
import Aura.Ref.Lua
import Aura.Ref.Datahelpers
import Aura.Ref.Asyncio
import Aura.Ref.Serial
import Aura.Ref.Urpc
import Aura.Ref.List
import Aura.Ref.Null
import Aura.Ref.Open
import Aura.Ref.Uart
import Aura.Ref.MainLoop
import Aura.Ref.Wait
import Aura.Ref.Perflimits
import Aura.Ref.Hooks
import Aura.Ref.XferHeap
import Aura.Ref.SerialHeap
import Aura.Ref.Server
import Aura.Ref.NullCall
import Aura.Ref.Plugins
import Aura.Proofs.Queue
import Aura.Proofs.TxStream
import Aura.Proofs.Fields
import Aura.Proofs.Argcache
import Aura.Proofs.PackLoop
import Aura.Proofs.RoundTrip
import Aura.Proofs.Growth
import Aura.Proofs.Frame
import Aura.Proofs.Layout
import Aura.Proofs.CallFrame
import Aura.Proofs.Receiver
import Aura.Proofs.Transitions
import Aura.Proofs.Packets
import Aura.Proofs.Framing
import Aura.Proofs.Checksum
import Aura.Proofs.Discovery
import Aura.Proofs.Modes
import Aura.Proofs.RxBuffer
import Aura.Proofs.Interest
import Aura.Proofs.Table
import Aura.Proofs.Rejected
import Aura.Proofs.Calls
import Aura.Proofs.ByteOrder
import Aura.Proofs.Lengths
import Aura.Proofs.Parser
import Aura.Proofs.NullLists
import Aura.Proofs.Opens
import Aura.Proofs.Grammar
import Aura.Proofs.Iterations
import Aura.Proofs.Retries
import Aura.Proofs.Staged
import Aura.Proofs.Reports
import Aura.Proofs.Uart
import Aura.Proofs.Dispatch
import Aura.Proofs.Perflimits
import Aura.Proofs.Arrivals
import Aura.Proofs.Reading
import Aura.Proofs.Waits
import Aura.Proofs.Accounting
import Aura.Proofs.Resync
import Aura.Proofs.Swaps
import Aura.Proofs.Hooks
import Aura.Proofs.Lists
import Aura.Proofs.References
import Aura.Proofs.Ownership
import Aura.Proofs.Duplex
import Aura.Proofs.Delivery
import Aura.Proofs.Progress
import Aura.Proofs.Heard
import Aura.Proofs.Footprint
import Aura.Proofs.Isolation
import Aura.Proofs.NullCalls
import Aura.Proofs.Plugins
