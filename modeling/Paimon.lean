import Paimon.Lib.IndexMap
import Paimon.Lib.Net
import Paimon.Lib.Tournament
import Paimon.Lib.KeyGroups
import Paimon.Lib.Compare
import Paimon.Lib.Digits
import Paimon.Lib.Sections
import Paimon.Lib.RunPacking
import Paimon.Lib.Census
import Paimon.Lib.Latest
import Paimon.Lib.Odometer
import Paimon.Lib.Bisect
import Paimon.Lib.Traverse
import Paimon.Lib.Decode
import Paimon.Lib.BitSlices
import Paimon.Lib.Utf8
import Paimon.Lib.TupleBounds
import Paimon.Spec.Manifest
import Paimon.Spec.Datum
import Paimon.Spec.Predicate
import Paimon.Spec.BinaryRow
import Paimon.Spec.BinaryRowBuilder
import Paimon.Spec.BinaryRowRoundTrip
import Paimon.Table.RowRange
import Paimon.Table.RowRangeAlgebra
import Paimon.Table.RowIdPredicate
import Paimon.Table.TimeTravel
import Paimon.Table.Watermark
import Paimon.Commit.Table
import Paimon.Commit.Conflicts
import Paimon.Commit.Index
import Paimon.Commit.GlobalIndex
import Paimon.Commit.Resolve
import Paimon.Commit.Prepare
import Paimon.Commit.Machine
import Paimon.Commit.Runs
import Paimon.Commit.ExactlyOnce
import Paimon.Commit.Messages
import Paimon.Commit.Recovery
import Paimon.Commit.Retry
import Paimon.Commit.ConflictBase
import Paimon.Commit.Published
import Paimon.Commit.IndexState
import Paimon.Commit.RecordCount
import Paimon.Commit.FileSet
import Paimon.Lib.Tiling
import Paimon.Commit.RowTracking
import Paimon.Commit.IndexSources
import Paimon.Commit.Serial
import Paimon.SortMerge.LoserTree
import Paimon.SortMerge.Stream
import Paimon.SortMerge.MergeFunction
import Paimon.SortMerge.PartialUpdate
import Paimon.SortMerge.Invariant
import Paimon.SortMerge.Refines
import Paimon.Arrow.Residual
import Paimon.Aggregate.Sum
import Paimon.Aggregate.Division
import Paimon.Arrow.Comparison
import Paimon.Predicate.Stats
import Paimon.Predicate.Bounds
import Paimon.Predicate.Pruning
import Paimon.Predicate.Row
import Paimon.Predicate.Trees
import Paimon.Predicate.Projection
import Paimon.Predicate.Like
import Paimon.Split.MergeTree
import Paimon.Split.Planning
import Paimon.Split.Components
import Paimon.Split.SortedRuns
import Paimon.Bucket.CrossPartition
import Paimon.Bucket.Routing
import Paimon.Bucket.OnePlace
import Paimon.Bucket.Dynamic
import Paimon.Bucket.DynamicIndex
import Paimon.Bucket.NeverSplit
import Paimon.Write.Flush
import Paimon.Write.Transparent
import Paimon.Scan.PartitionFilter
import Paimon.Scan.PartitionAgree
import Paimon.Scan.Manifests
import Paimon.Scan.Netting
import Paimon.FileIndex.Remap
import Paimon.FileIndex.Format
import Paimon.BTree.KeySerde
import Paimon.BTree.CompositeKey
import Paimon.BTree.CompositePredicate
import Paimon.BTree.KeyOrder
import Paimon.BTree.CompositeCover
import Paimon.Lib.Interact
import Paimon.Stream.Directory
import Paimon.Stream.LatestHint
import Paimon.Stream.TableScan
import Paimon.Stream.Runs
import Paimon.Stream.AppendRows
import Paimon.FileIndex.Bsi
import Paimon.Vindex.RangeReader
