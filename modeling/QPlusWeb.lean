import QPlusWeb.LevelDBIteratorRuns
import QPlusWeb.BackingStoreTotalOrder
import QPlusWeb.HashTableRuns
import QPlusWeb.MetaAllocatorGuarantees
import QPlusWeb.RegionExpressions
import QPlusWeb.StorageConvergence
import QPlusWeb.LocalStorageUpdates
import QPlusWeb.ArgumentRoundTrip
import QPlusWeb.ArgumentSafety
import QPlusWeb.UnixDelivery
import QPlusWeb.SyncMessageDelivery
import QPlusWeb.VisitedLinkRuns
import QPlusWeb.WebCLImageTransfers
import QPlusWeb.WebCLLinearTransfers
import QPlusWeb.UTF8Exactness
import QPlusWeb.PropertyTableRuns
import QPlusWeb.JSONRoundTrip
import QPlusWeb.JSONPParsing
import QPlusWeb.SourceListSafety
import QPlusWeb.IDBTransactionCoordinator
import QPlusWeb.BoundaryPoints
import QPlusWeb.BlobContents
import QPlusWeb.MediaTime
import QPlusWeb.WaitForMessage
import QPlusWeb.YarrCharacters
import QPlusWeb.YarrQuantifiers
import QPlusWeb.TimeRanges
import QPlusWeb.SampleMap
import QPlusWeb.WebSocketChannel
import QPlusWeb.ExpressionRanges
import QPlusWeb.LayoutUnit
import QPlusWeb.SQLTransactionCoordinator
