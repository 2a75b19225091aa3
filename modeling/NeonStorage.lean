import NeonStorage.Lib.SortedMap
import NeonStorage.Lib.Range
import NeonStorage.Lib.EStateM
import NeonStorage.Lib.Trace
import NeonStorage.Lib.Bytes
import NeonStorage.Lib.Reader
import NeonStorage.Lib.Forest
import NeonStorage.Lib.Text
import NeonStorage.Lib.Base64
import NeonStorage.Lib.Wrapping
import NeonStorage.Lib.Slice
import NeonStorage.Lib.Hex
import NeonStorage.Pageserver.Key
import NeonStorage.Pageserver.StorageLayer.FileName
import NeonStorage.Pageserver.Shard
import NeonStorage.Pageserver.LayerMap.Coverage
import NeonStorage.Pageserver.LayerMap.Historic
import NeonStorage.Pageserver.LayerMap.Batched
import NeonStorage.Pageserver.LayerMap.Search
import NeonStorage.Pageserver.Timeline.Gc
import NeonStorage.Pageserver.Timeline.FindLsn
import NeonStorage.Pageserver.Tenant.GcBranch
import NeonStorage.Pageserver.Tenant.BlobIo
import NeonStorage.Utils.PageserverFeedback
import NeonStorage.Utils.VecMap
import NeonStorage.Utils.SeqWait
import NeonStorage.Safekeeper.State
import NeonStorage.Safekeeper.WalStorage
import NeonStorage.Safekeeper.SafeKeeper
import NeonStorage.Safekeeper.Invariants
import NeonStorage.Safekeeper.Run
import NeonStorage.Safekeeper.CommonPoint
import NeonStorage.Safekeeper.ControlFile
import NeonStorage.Safekeeper.Wire
import NeonStorage.Safekeeper.WalBackup
import NeonStorage.Safekeeper.Offload
import NeonStorage.Compute.LibPageStore
import NeonStorage.TenantSizeModel.Calculation
import NeonStorage.TenantSizeModel.Optimal
import NeonStorage.Proxy.Scram
import NeonStorage.PostgresFfi.CheckPoint
import NeonStorage.PostgresFfi.Multixact
import NeonStorage.Pageserver.Multixact
import NeonStorage.Pageserver.PgDatadirMapping
import NeonStorage.Lib.RangeList
import NeonStorage.Pageserver.Keyspace
import NeonStorage.Pageserver.Partition
import NeonStorage.Pageserver.LayerMap.Difficulty
import NeonStorage.Proxy.Protocol2
import NeonStorage.AttachmentService.Service
import NeonStorage.PostgresFfi.Clog
import NeonStorage.Pageserver.Clog
import NeonStorage.Utils.Lsn
import NeonStorage.Lib.Versions
import NeonStorage.Pageserver.SlruStore
import NeonStorage.Pageserver.ClogIngest
import NeonStorage.Pageserver.ClogHistory
import NeonStorage.Lib.BinarySearch
import NeonStorage.Pageserver.PageCache
import NeonStorage.Pageserver.CachedRead
