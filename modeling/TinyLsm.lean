import TinyLsm.Block.BlockCache
import TinyLsm.Block.BlockMeta
import TinyLsm.Iterator.ItemOrder
import TinyLsm.Lsm.Abort
import TinyLsm.Lsm.CommitOrder
import TinyLsm.Lsm.Conflicts
import TinyLsm.Lsm.Finished
import TinyLsm.Lsm.FlushedIds
import TinyLsm.Lsm.LevelMinimum
import TinyLsm.Lsm.LevelScan
import TinyLsm.Lsm.LevelTree
import TinyLsm.Lsm.LoggedRecords
import TinyLsm.Lsm.Reads
import TinyLsm.Lsm.Recovery
import TinyLsm.Lsm.Serializable
import TinyLsm.Lsm.Settled
import TinyLsm.Lsm.Shortcut
import TinyLsm.Lsm.Shutdown
import TinyLsm.Lsm.Snapshot
import TinyLsm.Lsm.TrancIdBytes
import TinyLsm.Lsm.TwoMergeScan
import TinyLsm.Lsm.Visibility
import TinyLsm.Lsm.WriteAhead
import TinyLsm.MemTable.FlushAll
import TinyLsm.MemTable.GetBatch
import TinyLsm.MemTable.LockOrder
import TinyLsm.RedisWrapper.Commands
import TinyLsm.RedisWrapper.Deletion
import TinyLsm.RedisWrapper.Discipline
import TinyLsm.RedisWrapper.Expiry
import TinyLsm.RedisWrapper.Flushall
import TinyLsm.RedisWrapper.Footprint
import TinyLsm.RedisWrapper.HashMap
import TinyLsm.RedisWrapper.Increments
import TinyLsm.RedisWrapper.Isolation
import TinyLsm.RedisWrapper.Keyspace
import TinyLsm.RedisWrapper.Lapsed
import TinyLsm.RedisWrapper.LazyExpiry
import TinyLsm.RedisWrapper.ListSequence
import TinyLsm.RedisWrapper.Ranks
import TinyLsm.RedisWrapper.SetCardinality
import TinyLsm.RedisWrapper.StoredLists
import TinyLsm.RedisWrapper.ZsetIndex
import TinyLsm.Server.Crashes
import TinyLsm.Server.Framing
import TinyLsm.Server.Requests
import TinyLsm.Server.Requests
import TinyLsm.SkipList.FlushOrder
import TinyLsm.SkipList.Shape
import TinyLsm.SkipList.SnapshotRead
import TinyLsm.Sst.CachedPair
import TinyLsm.Sst.PredicateRange
import TinyLsm.Sst.SnapshotScan
import TinyLsm.Sst.StoredValue
import TinyLsm.Utils.BloomFilter
import TinyLsm.Wal.Cleaning
import TinyLsm.Wal.Replay
import TinyLsm.Wal.Torn
