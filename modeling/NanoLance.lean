import NanoLance.FieldIds
import NanoLance.CleanupSafety
import NanoLance.CompactionRace
import NanoLance.OptimizeRuns
import NanoLance.MetadataUpdates
import NanoLance.RepDefRoundTrip
import NanoLance.VersionChain
import NanoLance.RowIdRuns
import NanoLance.PhraseVerdicts
import NanoLance.CompactionRows
import NanoLance.ScanCandidates
import NanoLance.ScanRange
import NanoLance.FilterCandidates
import NanoLance.NGram
import NanoLance.ExprExact
import NanoLance.Like
import NanoLance.MergeKeys
import NanoLance.DeletionBitmap
import NanoLance.Bitpack
import NanoLance.FuzzyTerms
import NanoLance.TakeCache
import NanoLance.BlockReads
import NanoLance.ColumnSlice
import NanoLance.SliceSafety
import NanoLance.SliceBounds
