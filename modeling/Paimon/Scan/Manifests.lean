import Paimon.Scan.PartitionFilter
import Paimon.Table.RowRange

/-!
# Reading the manifest entries of a snapshot

`read_all_manifest_entries` of `table/table_scan.rs`.  The filters of a scan work at three
granularities before additions and deletions are netted:

* whole manifests, by their metadata  `retainPartition`, `retainManifestBucket`, `retainManifestRowRange`;
* Avro blocks, by a published sidecar  `SidecarBlock.selected`;
* entries  `entryFilter` while decoding, `postFilter` after it.

`mergeManifestEntries` nets what is left, `retainEntryRowRange` runs on the netted entries.

A manifest is its metadata, its blocks of decoded entries and the decoded sidecar, which is `none`
when none is published or when reading or validating it fails.  The bucket predicate stands as the
buckets it can hold for a given total (`compute_target_buckets`), `none` where it cannot tell.
-/

namespace Paimon.Scan

/-! ## entries -/

structure DataFileStats where
  keyStats : BinaryTableStats
  valueStats : BinaryTableStats
  valueStatsCols : Option (List String)
deriving DecidableEq, Repr

/-- a manifest entry together with the statistics of its file -/
structure ScanEntry extends ManifestEntry where
  stats : DataFileStats
deriving DecidableEq, Repr

namespace ScanEntry

def identifier (e : ScanEntry) : Identifier := e.toManifestEntry.identifier

def isAdd (e : ScanEntry) : Bool := e.kind == .add

end ScanEntry

/-! ## statistics of a file -/

/-- name to position, a later column of one name in the place of an earlier one -/
def denseStatsColMapping (schemaFields : List DataField) (statsColumns : List String) : List (Option Nat) :=
  schemaFields.map fun field =>
    (statsColumns.zipIdx.reverse.find? fun c => c.1 == field.name).map Prod.snd

/-- `FileStatsRows`: statistics of the columns of a schema -/
def fileStatsRows (rowCount : Int) (stats : BinaryTableStats) (mapping : Option (List (Option Nat))) :
    StatsAccessor :=
  let statsIndex := fun i : Nat =>
    match mapping with
    | none => some i
    | some m => m[i]?.join
  { rowCount := rowCount
    nullCount := fun i => (statsIndex i).bind fun j => stats.nullCounts.getD j none
    minValue := fun i t =>
      (statsIndex i).bind fun j => statsDatum (fromSerializedBytes stats.minValues) j t.root
    maxValue := fun i t =>
      (statsIndex i).bind fun j => statsDatum (fromSerializedBytes stats.maxValues) j t.root
    supportsInMinMaxPruning := true }

/-- `FileStatsRows::from_data_file` -/
def valueStatsRows (e : ScanEntry) (schemaFields : List DataField) : StatsAccessor :=
  fileStatsRows e.file.rowCount e.stats.valueStats
    ((e.stats.valueStatsCols.or e.file.writeCols).map (denseStatsColMapping schemaFields))

/-- `FileStatsRows::from_key_stats` -/
def keyStatsRows (e : ScanEntry) (schemaFields : List DataField) (keyFields : List String) :
    StatsAccessor :=
  fileStatsRows e.file.rowCount e.stats.keyStats
    (some (denseStatsColMapping schemaFields keyFields))

def currentColumns (schemaFields : List DataField) : FileColumns where
  fileTypes := schemaFields.map DataField.dataType
  fieldMapping := (List.range schemaFields.length).map some
  inFile := fun j hj => by
    obtain ⟨i, hi, h⟩ := List.mem_map.mp hj
    obtain rfl := Option.some.inj h
    rw [List.length_map]
    exact List.mem_range.mp hi

/-! ## arguments of a scan -/

structure ScanFilters where
  skipLevelZero : Bool := false
  scanAllFiles : Bool := false
  hasPrimaryKeys : Bool := false
  partitionFilter : Option PartitionFilter := none
  partitionFields : List DataField := []
  dataPredicates : List Predicate := []
  keyPredicates : List Predicate := []
  currentSchemaId : Int := 0
  schemaFields : List DataField := []
  keyFields : List String := []
  targetBuckets : Option (Int → Option (List Int)) := none
  rowRangeIndex : Option RowRangeIndex := none
  manifestSidecarEnabled : Bool := false

def isAlwaysFalse : Predicate → Bool
  | .alwaysFalse => true
  | _ => false

def hasAlwaysFalse (predicates keyPredicates : List Predicate) : Bool :=
  (predicates ++ keyPredicates).any isAlwaysFalse

namespace ScanFilters

variable (scan : ScanFilters)

def dataFileMatchesPredicatesWithKeyStats (e : ScanEntry) : Bool :=
  if scan.dataPredicates.isEmpty && scan.keyPredicates.isEmpty then true
  else if hasAlwaysFalse scan.dataPredicates scan.keyPredicates then false
  else if e.file.schemaId != scan.currentSchemaId then true
  else if !predicatesMayMatch (valueStatsRows e scan.schemaFields)
      (currentColumns scan.schemaFields) scan.dataPredicates then false
  else if scan.keyPredicates.isEmpty then true
  else predicatesMayMatch (keyStatsRows e scan.schemaFields scan.keyFields)
    (currentColumns scan.schemaFields) scan.keyPredicates

/-! ## the filters of one entry -/

def bucketTargeted (bucket totalBuckets : Int) : Bool :=
  match scan.targetBuckets with
  | none => true
  | some compute =>
    match compute totalBuckets with
    | none => true
    | some targets => targets.contains bucket

/-- a primary-key table reads real buckets only -/
def onlyRealBuckets : Bool := scan.hasPrimaryKeys && !scan.scanAllFiles

def partitionPasses (partition : Bytes) : Bool :=
  match scan.partitionFilter with
  | none => true
  | some filter => filter.passes partition

def entryFilter (e : ScanEntry) : Bool :=
  !(scan.onlyRealBuckets && decide (e.bucket < 0)) && scan.bucketTargeted e.bucket e.totalBuckets &&
    scan.partitionPasses e.partition

/-- the filters that need the data file -/
def postFilter (e : ScanEntry) : Bool :=
  !(scan.skipLevelZero && scan.hasPrimaryKeys && e.file.level == 0) &&
    scan.dataFileMatchesPredicatesWithKeyStats e

/-- `data_file_overlaps_row_range_index` -/
def retainEntryRowRange (e : ScanEntry) : Bool :=
  match scan.rowRangeIndex with
  | none => true
  | some index =>
    match e.file.rowIdRange with
    | none => true
    | some (frm, upTo) => index.intersects frm upTo

def passes (e : ScanEntry) : Bool :=
  scan.entryFilter e && scan.postFilter e && scan.retainEntryRowRange e

end ScanFilters

/-! ## manifests and sidecars -/

structure ManifestFileMeta where
  numAddedFiles : Int
  numDeletedFiles : Int
  partitionStats : BinaryTableStats
  minBucket : Option Int := none
  maxBucket : Option Int := none
  totalBuckets : Option Int := none
  minRowId : Option Int := none
  maxRowId : Option Int := none
deriving DecidableEq, Repr

/-- row ids of a block: the envelope and the gaps in it, each as the end of one range and the start
of the next -/
structure RowPayload where
  minimum : Int
  maximum : Int
  gaps : List (Int × Int)
deriving DecidableEq, Repr

def rangesFrom (start maximum : Int) : List (Int × Int) → List (Int × Int)
  | [] => [(start, maximum)]
  | (stop, next) :: gaps => (start, stop) :: rangesFrom next maximum gaps

def RowPayload.ranges (p : RowPayload) : List (Int × Int) := rangesFrom p.minimum p.maximum p.gaps

/-- what the sidecar says of one block; a payload may be missing -/
structure SidecarBlock where
  partitions : Option (List Bytes) := none
  rows : Option RowPayload := none
  buckets : Option (List (Int × Int)) := none
deriving DecidableEq, Repr

structure ManifestFile where
  metadata : ManifestFileMeta
  blocks : List (List ScanEntry)
  sidecar : Option (List SidecarBlock) := none
  /-- `should_read_full`, from the sizes of the selected blocks -/
  readsFull : List Bool → Bool := fun _ => false

def ManifestFile.entries (m : ManifestFile) : List ScanEntry := m.blocks.flatten

/-- the arity in the first four bytes -/
def partitionArity (partition : Bytes) : Int := toSigned 32 (beNat (partition.take 4))

namespace ScanFilters

variable (scan : ScanFilters)

/-! ### one block -/

/-- the envelope first, then range by range -/
def rowsSelected (index : RowRangeIndex) (p : RowPayload) : Bool :=
  index.intersects p.minimum p.maximum &&
    (p.gaps.isEmpty || p.ranges.any fun r => index.intersects r.1 r.2)

/-- `rowIndex` is the row-range index, withheld from incremental scans -/
def blockSelected (rowIndex : Option RowRangeIndex) (b : SidecarBlock) : Bool :=
  (match rowIndex, b.rows with
    | some index, some p => rowsSelected index p
    | _, _ => true) &&
  (match scan.partitionFilter, b.partitions with
    | some filter, some partitions => partitions.any filter.passes
    | _, _ => true) &&
  (match scan.targetBuckets, b.buckets with
    | some _, some buckets => buckets.any fun x => scan.bucketTargeted x.1 x.2
    | _, _ => true)

/-- `ManifestSidecarPruning::has_filter` -/
def hasSidecarFilter (rowIndex : Option RowRangeIndex) : Bool :=
  rowIndex.isSome || scan.partitionFilter.isSome || scan.targetBuckets.isSome

/-- every partition of a sidecar has the arity of the table -/
def sidecarUsable (blocks : List SidecarBlock) : Bool :=
  blocks.all fun b => (b.partitions.getD []).all fun p =>
    partitionArity p == (scan.partitionFields.length : Int)

/-- `read_manifest_bytes_with_sidecar` -/
def readManifest (rowIndex : Option RowRangeIndex) (m : ManifestFile) : List ScanEntry :=
  if !scan.manifestSidecarEnabled || !scan.hasSidecarFilter rowIndex then m.entries
  else
    match m.sidecar with
    | none => m.entries
    | some sidecar =>
      if !scan.sidecarUsable sidecar then m.entries
      else
        let selected := sidecar.map (scan.blockSelected rowIndex)
        if m.readsFull selected then m.entries
        else ((m.blocks.zip selected).filter Prod.snd).flatMap Prod.fst

/-! ### whole manifests -/

def retainPartition (info : ManifestFileMeta) : Bool :=
  match scan.partitionFilter with
  | none => true
  | some filter => filter.matchesManifest (info.numAddedFiles + info.numDeletedFiles)
      info.partitionStats scan.partitionFields

/-- `retain_manifest_buckets` -/
def retainManifestBucket (info : ManifestFileMeta) : Bool :=
  match info.minBucket, info.maxBucket with
  | some minBucket, some maxBucket =>
    if minBucket > maxBucket then true
    else if scan.onlyRealBuckets && decide (maxBucket < 0) then false
    else
      match scan.targetBuckets, info.totalBuckets.filter (fun t => decide (0 < t)) with
      | some compute, some totalBuckets =>
        -- a range with the unassigned bucket in it says nothing about the real ones
        if minBucket < 0 ∨ totalBuckets ≤ maxBucket then true
        else
          match compute totalBuckets with
          | none => true
          | some targets => targets.any fun b => decide (minBucket ≤ b ∧ b ≤ maxBucket)
      | _, _ => true
  | _, _ => true

def manifestRowIdRange (info : ManifestFileMeta) : Option (Int × Int) :=
  match info.minRowId, info.maxRowId with
  | some min, some max => if min ≤ max then some (min, max) else none
  | _, _ => none

/-- `manifest_file_overlaps_row_range_index` -/
def retainManifestRowRange (info : ManifestFileMeta) : Bool :=
  match scan.rowRangeIndex with
  | none => true
  | some index =>
    match manifestRowIdRange info with
    | none => true
    | some (min, max) => index.intersects min max

def retainManifest (m : ManifestFile) : Bool :=
  scan.retainPartition m.metadata && scan.retainManifestBucket m.metadata &&
    scan.retainManifestRowRange m.metadata

end ScanFilters

/-! ## the scan -/

/-- the identifiers of all deletions first, then the additions that none of them names -/
def mergeManifestEntries (entries : List ScanEntry) : List ScanEntry :=
  let deleted := (entries.filter fun e => e.kind == .delete).map ScanEntry.identifier
  entries.filter fun e => e.kind == .add && !deleted.contains e.identifier

def validateIncrementalEntries (entries : List ScanEntry) : Result Unit :=
  if entries.any fun e => e.kind != .add then
    .error (.dataInvalid "Incremental manifests must contain only ADD entries")
  else .ok ()

inductive ManifestListSource where
  | snapshot (base delta : List ManifestFile)
  | incremental (lists : List (List ManifestFile))

def ManifestListSource.manifests : ManifestListSource → List ManifestFile
  | .snapshot base delta => base ++ delta
  | .incremental lists => lists.flatten

namespace ScanFilters

variable (scan : ScanFilters)

def readEntries (rowIndex : Option RowRangeIndex) (manifests : List ManifestFile) : List ScanEntry :=
  (manifests.filter scan.retainManifest).flatMap fun m =>
    ((scan.readManifest rowIndex m).filter scan.entryFilter).filter scan.postFilter

def readAllManifestEntries (source : ManifestListSource) : Result (List ScanEntry) :=
  match source with
  | .snapshot base delta =>
    .ok ((mergeManifestEntries (scan.readEntries scan.rowRangeIndex (base ++ delta))).filter
      scan.retainEntryRowRange)
  | .incremental lists => do
    let entries := scan.readEntries none lists.flatten
    validateIncrementalEntries entries
    .ok (entries.filter scan.retainEntryRowRange)

end ScanFilters

end Paimon.Scan
