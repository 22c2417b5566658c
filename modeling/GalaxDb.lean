import GalaxDb.Storage.WalNumbers
import GalaxDb.Storage.WalFaults
import GalaxDb.Storage.Interleaving
import GalaxDb.Storage.RepeatableReads
import GalaxDb.Storage.PinnedReads
import GalaxDb.Storage.ArtCalls
import GalaxDb.Storage.SstNumbers
import GalaxDb.Sql.Atomicity
import GalaxDb.Sql.PrimaryKeys
import GalaxDb.Sql.Updates
import GalaxDb.Sql.OpenTransactions
import GalaxDb.Sql.Records
import GalaxDb.Server.Portals
import GalaxDb.Server.CopyRoundTrip
import GalaxDb.Wire.Backend
import GalaxDb.Auth.Login
import GalaxDb.Storage.UnreadBlocks
import GalaxDb.Storage.TdeReads
import GalaxDb.Storage.ColumnarAgreement
import GalaxDb.Sql.BoundStatements
import GalaxDb.Vector.HnswMerge
import GalaxDb.Vector.HnswSearch
import GalaxDb.Vector.DiskAnnMap
import GalaxDb.Sql.Certifier
import GalaxDb.Versioning.NearDuplicates
import GalaxDb.Vector.CacheRuns
import GalaxDb.Sql.GroupCells
import GalaxDb.Sql.LineageRuns
import GalaxDb.Versioning.TrainingExport
import GalaxDb.Server.Savepoints
import GalaxDb.Sql.FilterTruth
import GalaxDb.Sql.IntegerArithmetic
import GalaxDb.Versioning.ContentHash
import GalaxDb.Versioning.SnapshotRoot
import GalaxDb.Sql.IndexLookups
import GalaxDb.Sql.SortedReads
import GalaxDb.Storage.FlushFiles
import GalaxDb.Sql.TypedDates
import GalaxDb.Storage.SeparatedValues
import GalaxDb.Storage.Bloom
import GalaxDb.Vector.EmbeddingTracker
import GalaxDb.Storage.BackPressure
import GalaxDb.Storage.MergeIterator
import GalaxDb.Storage.ClockSweep
import GalaxDb.Storage.RecencyList
import GalaxDb.Wire.ParameterTexts
import GalaxDb.Vector.DiskAnnRecords
import GalaxDb.Storage.InnerNodeMaps
import GalaxDb.Sql.RecreatedTable
