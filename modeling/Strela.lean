import Strela.Foundation.Transition
import Strela.Foundation.Unsigned
import Strela.Foundation.Bytes
import Strela.Foundation.Blocks
import Strela.Foundation.Ledger
import Strela.Foundation.Gather
import Strela.Foundation.Cells
import Strela.Foundation.Handles
import Strela.Foundation.Simulation
import Strela.Foundation.Segments
import Strela.Foundation.Cache
import Strela.Foundation.Deferred
import Strela.Foundation.Unwind
import Strela.Allocator.Layout
import Strela.Allocator.FreeList
import Strela.Allocator.Chain
import Strela.Allocator.Pool
import Strela.Allocator.Initialisers
import Strela.Allocator.Search
import Strela.Allocator.Represents
import Strela.Allocator.Alloc
import Strela.Allocator.Free
import Strela.Allocator.Spared
import Strela.Allocator.Runs
import Strela.Allocator.Guarantees
import Strela.Allocator.Lines
import Strela.Allocator.PoolRuns
import Strela.Allocator.Arena
import Strela.Allocator.ArenaRuns
import Strela.Driver.Binding
import Strela.Driver.Sync
import Strela.Driver.Program
import Strela.Driver.Simulator
import Strela.Driver.Column
import Strela.Driver.Permute
import Strela.Driver.Submit
import Strela.Driver.GemNew
import Strela.Driver.Order
import Strela.Driver.References
import Strela.Driver.Lifecycle
import Strela.Driver.Interrupt
import Strela.Driver.Worker
import Strela.Driver.Module
import Strela.Driver.Clients
import Strela.Driver.Backing
import Strela.Legacy.Control
import Strela.Legacy.Completion
import Strela.Legacy.Probe
import Strela.Lib.World
import Strela.Lib.Memory
import Strela.Lib.Job
import Strela.Lib.Calls
import Strela.Lib.Buffers
import Strela.Lib.Spared
import Strela.Lib.Isolation
import Strela.Lib.Pointers
import Strela.Lib.Slots
import Strela.Lib.Simulation
import Strela.Lib.Quiet
import Strela.Lib.Execute
import Strela.Lib.Syncobjs
import Strela.Lib.Fences
import Strela.Lib.Device
import Strela.Lib.Compat
import Strela.Lib.Submissions
import Strela.Lib.Results
import Strela.Lib.Teardown
import Strela.Lib.Enumerate
import Strela.Lib.Initialize
import Strela.System.Coherence
import Strela.System.Jobs
import Strela.System.Synchronous
