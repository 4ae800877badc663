import UnifiedCache.Base.Transition
import UnifiedCache.Base.DoublyLinked
import UnifiedCache.Base.Memory
import UnifiedCache.Cache.TransBuffer
import UnifiedCache.Cache.BufferIndex
import UnifiedCache.Cache.BufferCalls
import UnifiedCache.Compress.Tunstall
import UnifiedCache.Compress.LutChoices
import UnifiedCache.Compress.LutBuild
import UnifiedCache.Compress.Encode
import UnifiedCache.Compress.Stream
import UnifiedCache.Compress.LutTable
import UnifiedCache.Compress.OneSymbol
import UnifiedCache.Compress.RoundTrip
import UnifiedCache.Compress.Bf16
import UnifiedCache.Compress.Bf16Layout
import UnifiedCache.Compress.Bf16Decode
import UnifiedCache.Compress.Bf16Inplace
import UnifiedCache.Compress.Bf16Room
import UnifiedCache.Compress.Bf16Agree
import UnifiedCache.Compress.Bf16Slack
import UnifiedCache.Posix.AioRing
import UnifiedCache.Base.Tally
import UnifiedCache.Detail.Accounting
import UnifiedCache.Posix.BlockFiles
import UnifiedCache.Posix.Psync
import UnifiedCache.Posix.PsyncRuns
import UnifiedCache.Posix.Aio
import UnifiedCache.Posix.AioRuns
import UnifiedCache.Posix.StoreRuns
import UnifiedCache.Cache.Ownership
import UnifiedCache.Cache.Get
import UnifiedCache.Cache.Store
import UnifiedCache.Cache.StoreItems
import UnifiedCache.Cache.Reuse
import UnifiedCache.Cache.Orphans
import UnifiedCache.Cache.StoreTasks
import UnifiedCache.Cache.LoadWait
import UnifiedCache.Cache.Dumps
import UnifiedCache.Cache.Lookup
import UnifiedCache.Cache.WaitOrder
import UnifiedCache.Cache.WaitProgress
import UnifiedCache.Compress.Action
import UnifiedCache.Connector.RankConsistency
import UnifiedCache.Cache.Completion
import UnifiedCache.Ds3fs.Transfers
import UnifiedCache.Ds3fs.Matched
import UnifiedCache.PcStore.TransQueue
import UnifiedCache.PcStore.TransRuns
import UnifiedCache.Base.Probing
import UnifiedCache.PcStore.ShareBuffer
import UnifiedCache.PcStore.ShareReads
import UnifiedCache.Mooncake.ShareBuffer
import UnifiedCache.Mooncake.ShareLoads
import UnifiedCache.Mooncake.HostQueues
import UnifiedCache.Mooncake.HostTasks
import UnifiedCache.Mooncake.HostBuffers
import UnifiedCache.Mooncake.HostHolder
import UnifiedCache.Mooncake.HostLoads
import UnifiedCache.Mooncake.ShareTasks
import UnifiedCache.Mooncake.ShareTaskLoads
import UnifiedCache.Mooncake.LoadsDone
import UnifiedCache.Metrics.Buffer
import UnifiedCache.Metrics.Exact
import UnifiedCache.Gdr.Frontier
import UnifiedCache.Gdr.Stream
import UnifiedCache.Gdr.Order
import UnifiedCache.Gdr.Synchronized
import UnifiedCache.Base.Chain
import UnifiedCache.Base.Md5
import UnifiedCache.Connector.BlockKeys
import UnifiedCache.Base.Selection
import UnifiedCache.Base.Lists
import UnifiedCache.Kvstar.Kernel
import UnifiedCache.Kvstar.Tasks
import UnifiedCache.Kvstar.Reports
import UnifiedCache.Base.Popcount
import UnifiedCache.HashRetrieval.Distance
import UnifiedCache.HashRetrieval.Rows
import UnifiedCache.HashRetrieval.Requests
import UnifiedCache.Connector.BlendChunks
import UnifiedCache.Connector.BlendPlan
import UnifiedCache.Gdr.Regions
import UnifiedCache.Gdr.Registered
import UnifiedCache.Gdr.InForce
import UnifiedCache.Cache.PrefixLookup
import UnifiedCache.Posix.Lookup
import UnifiedCache.Posix.LookupResults
import UnifiedCache.Mooncake.Lookup
import UnifiedCache.Cache.Alloc
import UnifiedCache.Base.OpenAddressing
import UnifiedCache.Infra.HashSet
import UnifiedCache.Infra.HashSetProbes
import UnifiedCache.Base.BinaryHeap
import UnifiedCache.Infra.BestN
import UnifiedCache.Connector.HybridLookup
import UnifiedCache.Infra.RotatingSink
import UnifiedCache.Base.Fair
import UnifiedCache.Infra.FillAndEmpty
import UnifiedCache.NfsStore.Recycle
import UnifiedCache.NfsStore.RecyclePasses
import UnifiedCache.Connector.LayerLoadOrder
import UnifiedCache.Base.SlidingWindow
import UnifiedCache.Pipeline.HealthBreaker
import UnifiedCache.Base.PyIndex
import UnifiedCache.Connector.FawaLookup
import UnifiedCache.Base.Shares
import UnifiedCache.Base.Binary64
import UnifiedCache.Connector.FawaDump
import UnifiedCache.Connector.KVCacheLayout
import UnifiedCache.Connector.SharedIndexer
import UnifiedCache.Connector.RowMapping
import UnifiedCache.Base.Strides
import UnifiedCache.Connector.ContextParallel
import UnifiedCache.Connector.PlanWindows
import UnifiedCache.Posix.OldestFiles
import UnifiedCache.Posix.ShardGc
import UnifiedCache.Posix.ShardGcRuns
import UnifiedCache.Infra.ThreadPool
import UnifiedCache.Infra.ThreadPoolRuns
import UnifiedCache.Infra.ThreadPoolProgress
import UnifiedCache.Compress.EncodeBounds
import UnifiedCache.Compress.Bf16Neon
import UnifiedCache.Compress.Bf16Checked
import UnifiedCache.Compress.Bf16Bounds
import UnifiedCache.Base.Refinement
import UnifiedCache.Base.Fifo
import UnifiedCache.Infra.SpscRingQueue
import UnifiedCache.Infra.SpscRingQueueFifo
import UnifiedCache.Base.Pool
import UnifiedCache.Infra.IndexPool
import UnifiedCache.Infra.IndexPoolRuns
import UnifiedCache.Gsa.MoveMap
import UnifiedCache.Connector.AsyncDump
import UnifiedCache.Connector.AsyncDumpRuns
