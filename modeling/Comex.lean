import Comex.Lib.Aligned
import Comex.Lib.CircularList
import Comex.Lib.Completions
import Comex.Lib.Congruential
import Comex.Lib.Cyclic
import Comex.Lib.Eventually
import Comex.Lib.Ledger
import Comex.Lib.Linked
import Comex.Lib.Locks
import Comex.Lib.Numeral
import Comex.Lib.Region
import Comex.Lib.Runs
import Comex.Lib.Separated
import Comex.Lib.Tally
import Comex.Lib.Throttle
import Comex.Lib.Words
import Comex.Buddy.Alloc
import Comex.Buddy.Batch
import Comex.Buddy.Bounds
import Comex.Buddy.Canonical
import Comex.Buddy.Complete
import Comex.Buddy.Intrusive
import Comex.Buddy.Invariant
import Comex.Buddy.Links
import Comex.Buddy.Loops
import Comex.Buddy.Rejected
import Comex.Buddy.Serve
import Comex.Buddy.Startup
import Comex.Remote.Coherence
import Comex.Remote.Contiguous
import Comex.Remote.Fifo
import Comex.Remote.FlushWindow
import Comex.Remote.FreeBatch
import Comex.Remote.FreeGroup
import Comex.Remote.FreeList
import Comex.Remote.Locks
import Comex.Remote.Node
import Comex.Remote.Prefetch
import Comex.Remote.Refused
import Comex.Remote.Search
import Comex.Remote.WriteAfterFree
import Comex.Remote.WriteOut
import Comex.Cluster.Boot
import Comex.Cluster.Command
import Comex.Cluster.Config
import Comex.Cluster.Connection
import Comex.Cluster.Contents
import Comex.Cluster.Flow
import Comex.Cluster.Guard
import Comex.Cluster.Handshake
import Comex.Cluster.Layout
import Comex.Cluster.Lossy
import Comex.Cluster.Network
import Comex.Cluster.Ownership
import Comex.Cluster.Ready
import Comex.Cluster.Transfer
import Comex.Cluster.Wire
import Comex.Swap.Accounting
import Comex.Swap.FreeOnce
import Comex.Swap.Leak
import Comex.Swap.LostUpdate
import Comex.Swap.Machine
import Comex.Swap.Occupied
import Comex.Swap.PageTable
import Comex.Swap.Pending
import Comex.Swap.Turns
