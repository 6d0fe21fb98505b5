import Plexdb.RespConnection
import Plexdb.ColumnRoundTrip
import Plexdb.PagerDurability
import Plexdb.BlobRefinement
import Plexdb.SchemaStored
import Plexdb.SchemaWellFounded
import Plexdb.NativeFrameRoundTrip
import Plexdb.NativeSegmentation
import Plexdb.TransactionFairness
import Plexdb.PagerReads
import Plexdb.NativeValueRoundTrip
import Plexdb.BindMarkers
import Plexdb.BufferPool
import Plexdb.AioCompletion
import Plexdb.UringCompletion
import Plexdb.ClusteringOrder
import Plexdb.PreparedStatements
import Plexdb.ConnectionTable
import Plexdb.ConnectionFailures
import Plexdb.CollectionPatches
import Plexdb.ColumnSkip
import Plexdb.ColumnSync
import Plexdb.ColumnDefaults
import Plexdb.GrownTypes
import Plexdb.RowBlob
import Plexdb.RowCells
import Plexdb.RowRoundTrip
import Plexdb.Buckets
import Plexdb.NestedValues
import Plexdb.NestedEquality
import Plexdb.NestedHistories
import Plexdb.TypedConversions
import Plexdb.ConversionChains
import Plexdb.SelectConversions
import Plexdb.SelectNests
import Plexdb.StaticBlob
import Plexdb.StaticBlobStored
import Plexdb.StaticBlobAccess
import Plexdb.StaticBlobPages
import Plexdb.BTreeDurability
import Plexdb.WalRoundTrip
import Plexdb.GlobMatch
import Plexdb.StringEquality
import Plexdb.TokenStream
import Plexdb.ArenaRuns
import Plexdb.IntegerTerms
import Plexdb.TimeuuidBounds
import Plexdb.DurationValues
import Plexdb.RespPointers
import Plexdb.KeyCodec
import Plexdb.TypeSerialization
import Plexdb.ScratchTransactions
import Plexdb.ShardToken
import Plexdb.SpscQueue
import Plexdb.DynamicMaps
import Plexdb.SlottedLeafRuns
import Plexdb.SlottedInternalRuns
import Plexdb.WhenAllRuns
import Plexdb.KvStrings
