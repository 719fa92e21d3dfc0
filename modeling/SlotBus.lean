import SlotBus.Foundation.AtomicProgram
import SlotBus.Foundation.Interleaving
import SlotBus.Foundation.ByteMemory
import SlotBus.Foundation.Numeral
import SlotBus.Foundation.Typestate
import SlotBus.Foundation.HoareTriple
import SlotBus.Foundation.Utf8
import SlotBus.Foundation.WindowsPath
import SlotBus.Foundation.SharedOwnership
import SlotBus.Foundation.RemoteCall
import SlotBus.Foundation.Completion
import SlotBus.Foundation.Fairness
import SlotBus.Foundation.NamedObject
import SlotBus.Foundation.Service
import SlotBus.Foundation.CasLoop
import SlotBus.Types
import SlotBus.Config
import SlotBus.World
import SlotBus.Region
import SlotBus.Transport
import SlotBus.Layout
import SlotBus.Names
import SlotBus.Effects
import SlotBus.Placement
import SlotBus.Tenancy
import SlotBus.Records
import SlotBus.Isolation
import SlotBus.Lossless
import SlotBus.Overflow
import SlotBus.Ledger
import SlotBus.Ownership
import SlotBus.Protocol
import SlotBus.Preservation
import SlotBus.Leases
import SlotBus.Conformance
import SlotBus.Startup
import SlotBus.Exclusive
import SlotBus.Delivery
import SlotBus.Retry
import SlotBus.Registration
import SlotBus.Geometry
import SlotBus.Peers
import SlotBus.Identifiers
import SlotBus.Generations
import SlotBus.Identity
import SlotBus.Solo
import SlotBus.Failures
import SlotBus.Capacity
import SlotBus.Bounds
import SlotBus.Reclaim
import SlotBus.Handles
import SlotBus.Sessions
import SlotBus.Bookkeeping
import SlotBus.Traffic
import SlotBus.Requests
import SlotBus.Wakeup
import SlotBus.Custody
import SlotBus.Retention
import SlotBus.Exchange
import SlotBus.Drain
import SlotBus.Liveness
import SlotBus.Allocator
import SlotBus.Joining
import SlotBus.Leaks
import SlotBus.Events
import SlotBus.Semaphores
import SlotBus.EventHandles
