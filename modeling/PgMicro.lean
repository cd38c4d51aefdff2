import PgMicro.Mvcc.NewRowid
import PgMicro.Mvcc.Headers
import PgMicro.PersistentStorage.LogPrefix
import PgMicro.Wal.CommittedPrefix
import PgMicro.SharedWal.LiveReaders
import PgMicro.Paging.RollbackRestores
import PgMicro.Types.RecordRoundTrip
import PgMicro.Freelist.FreePool
import PgMicro.Incremental.JoinRecomputation
import PgMicro.BTree.IntegritySound
import PgMicro.BTree.SeekTrees
import PgMicro.Incremental.ViewRollback
import PgMicro.Optimizer.FusedUpdate
import PgMicro.Optimizer.SeekRange
import PgMicro.CompoundSelect.Refinement
import PgMicro.PersistentStorage.ChunkedParse
import PgMicro.LazyStorage.LatestWrites
import PgMicro.Translate.Autoincrement
import PgMicro.Translate.ChangeCapture
import PgMicro.Translate.ForeignKeyActions
import PgMicro.Types.MalformedRecord
import PgMicro.Storage.CacheEviction
import PgMicro.Types.ExactOrder
import PgMicro.Incremental.MergeOperator
import PgMicro.Json.PathSteps
import PgMicro.Incremental.StoredView
