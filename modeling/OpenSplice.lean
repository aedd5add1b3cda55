import OpenSplice.Kernel.Reader.Lifespan
import OpenSplice.Kernel.Reader.Resources
import OpenSplice.Kernel.Reader.MaskedRead
import OpenSplice.Kernel.Reader.QueryTest
import OpenSplice.Kernel.Filter
import OpenSplice.Database.Value
import OpenSplice.Database.Terms
import OpenSplice.Utilities.Fibheap.Runs
import OpenSplice.Utilities.AvlHeap.Runs
import OpenSplice.Ddsi.DataFrag.Transfer
import OpenSplice.Ddsi.Whc.Bytes
import OpenSplice.Ddsi.Whc.Retention
import OpenSplice.Kernel.GroupHistory
import OpenSplice.Kernel.DeadLineList
import OpenSplice.Ddsi.Lease
import OpenSplice.Ddsi.WriterInfo
import OpenSplice.Kernel.Coherent.Atomicity
import OpenSplice.Durability.Merge
import OpenSplice.Durability.BeadOrder
import OpenSplice.Durability.LegacyElection
import OpenSplice.Database.Table.Read
import OpenSplice.Ddsi.PartitionMatch
import OpenSplice.Ddsi.Timestamp
import OpenSplice.Ddsi.Bitset
import OpenSplice.Ddsi.DataFrag.Extent
import OpenSplice.Ddsi.Reorder.Nackmap
