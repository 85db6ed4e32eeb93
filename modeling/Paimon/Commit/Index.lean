import Paimon.Commit.Conflicts
import Paimon.Table.RowRange

/-!
# Index entries of a commit

Merging of the index manifest and the checks on it (`TableCommit::merge_index_entries`,
`validate_global_index_overlap`, `check_deletion_vector_references`, `check_global_index_sources`).

* `normalizeIndexEntries`: the live entries of an index manifest;
* `mergeIndexEntries`: previous entries, less the deleted and replaced ones, plus the added ones, under the
  overlap and deletion-vector checks;
* `checkDeletionVectorReferences`: the deletion vectors of the merged manifest against the data files of the
  attempt.
-/

namespace Paimon

def deletionVectorsIndexType : String := "DELETION_VECTORS"

def sameIndexPartition (left right : Bytes) : Bool :=
  left == right || (isEmptyPartition left && isEmptyPartition right)

def sameIndexFileEntry (left right : IndexManifestEntry) : Bool :=
  sameIndexPartition left.partition right.partition && left.bucket == right.bucket &&
    left.indexFile.indexType == right.indexFile.indexType &&
    left.indexFile.fileName == right.indexFile.fileName

/-- one entry of an index manifest takes the place of the entry of the same index file -/
def normalizeStep (active : List IndexManifestEntry) (entry : IndexManifestEntry) : List IndexManifestEntry :=
  let others := active.filter (fun current => !sameIndexFileEntry current entry)
  match entry.kind with
  | .add => others ++ [entry]
  | .delete => others

def normalizeIndexEntries (entries : List IndexManifestEntry) : List IndexManifestEntry :=
  entries.foldl normalizeStep []

def readPrevIndexEntries (latestSnapshot : Option Snapshot) : List IndexManifestEntry :=
  match latestSnapshot with
  | none => []
  | some s =>
    match s.indexManifest with
    | none => []
    | some entries => normalizeIndexEntries entries

/-! ## equality of index entries -/

def sameRanges : Option (IndexMap String DeletionVectorMeta) →
    Option (IndexMap String DeletionVectorMeta) → Bool
  | none, none => true
  | some a, some b => a.same b
  | _, _ => false

/-- `PartialEq` of `IndexManifestEntry` -/
def IndexManifestEntry.same (a b : IndexManifestEntry) : Bool :=
  { a with indexFile := { a.indexFile with deletionVectorsRanges := none } } ==
    { b with indexFile := { b.indexFile with deletionVectorsRanges := none } } &&
    sameRanges a.indexFile.deletionVectorsRanges b.indexFile.deletionVectorsRanges

def sameIndexEntries : List IndexManifestEntry → List IndexManifestEntry → Bool
  | [], [] => true
  | a :: as, b :: bs => a.same b && sameIndexEntries as bs
  | _, _ => false

/-! ## overlap of global indexes -/

def sameExtraFieldIds (a b : Option (List Int)) : Bool := a.getD [] == b.getD []

/-- two added global-index entries of one index whose row ranges meet -/
def globalIndexOverlap (left right : IndexManifestEntry) : Bool :=
  match left.kind, right.kind, left.indexFile.globalIndexMeta, right.indexFile.globalIndexMeta with
  | .add, .add, some lm, some rm =>
    lm.indexFieldId == rm.indexFieldId && left.indexFile.indexType == right.indexFile.indexType &&
      sameExtraFieldIds lm.extraFieldIds rm.extraFieldIds &&
      rangesOverlap lm.rowRangeStart lm.rowRangeEnd rm.rowRangeStart rm.rowRangeEnd
  | _, _, _, _ => false

def globalIndexOverlapError (retained added : IndexManifestEntry) : Error :=
  match retained.indexFile.globalIndexMeta, added.indexFile.globalIndexMeta with
  | some rm, some am =>
    .dataInvalid s!"Trying to add global index file {added.indexFile.fileName} of type {added.indexFile.indexType} for index field {am.indexFieldId} with row range [{am.rowRangeStart}, {am.rowRangeEnd}], but previous file {retained.indexFile.fileName} still exists with overlapping row range [{rm.rowRangeStart}, {rm.rowRangeEnd}]. Remove the previous file first."
  | _, _ => .dataInvalid ""

/-- the first entry of the list that overlaps `left` fails -/
def checkOverlapWith (left : IndexManifestEntry) : List IndexManifestEntry → Result Unit
  | [] => .ok ()
  | right :: rest =>
    if globalIndexOverlap left right then .error (globalIndexOverlapError left right)
    else checkOverlapWith left rest

def validateGlobalIndexOverlap (added : List IndexManifestEntry) : List IndexManifestEntry → Result Unit
  | [] => .ok ()
  | retained :: rest => do
    checkOverlapWith retained added
    validateGlobalIndexOverlap added rest

def validateAddedGlobalIndexOverlap : List IndexManifestEntry → Result Unit
  | [] => .ok ()
  | left :: rest => do
    checkOverlapWith left rest
    validateAddedGlobalIndexOverlap rest

/-! ## deletion vectors -/

def isDeletionVectors (e : IndexManifestEntry) : Bool :=
  e.indexFile.indexType == deletionVectorsIndexType

abbrev FileKey := Bytes × Int × String

def fileKey (partition : Bytes) (bucket : Int) (name : String) : FileKey :=
  (partitionKey partition, bucket, name)

def ManifestEntry.fileKey (e : ManifestEntry) : FileKey :=
  Paimon.fileKey e.partition e.bucket e.file.fileName

def dvFiles (e : IndexManifestEntry) : List FileKey :=
  match e.indexFile.deletionVectorsRanges with
  | none => []
  | some ranges => ranges.keys.map (fun name => fileKey e.partition e.bucket name)

def insertDvFiles (files : List FileKey) : List FileKey → Result (List FileKey)
  | [] => .ok files
  | f :: fs =>
    if f ∈ files then .error (.dataInvalid s!"Conflicting deletion vectors for data file '{f.2.2}'; prepare the DELETE again from the latest snapshot")
    else insertDvFiles (f :: files) fs

/-- one entry per index file name and one deletion vector per data file -/
def checkDvUnique (names files : List FileKey) : List IndexManifestEntry → Result Unit
  | [] => .ok ()
  | e :: es =>
    let name := fileKey e.partition e.bucket e.indexFile.fileName
    if name ∈ names then
      .error (.dataInvalid s!"Duplicate deletion vector index '{e.indexFile.fileName}'")
    else do
      let files ← insertDvFiles files (dvFiles e)
      checkDvUnique (name :: names) files es

/-! ## merging -/

def removeDeleted (all : List IndexManifestEntry) : List IndexManifestEntry → Result (List IndexManifestEntry)
  | [] => .ok all
  | deletion :: rest =>
    match all.findIdx? (fun entry => sameIndexFileEntry entry deletion) with
    | some position => removeDeleted (all.eraseIdx position) rest
    | none =>
      if deletion.indexFile.indexType == deletionVectorsIndexType then
        .error (.dataInvalid s!"Cannot replace missing deletion vector index '{deletion.indexFile.fileName}'; prepare the DELETE again from the latest snapshot")
      else removeDeleted all rest

def mergeIndexEntries (previous new : List IndexManifestEntry) (dropPreviousGlobalIndexes : Bool) :
    Result (List IndexManifestEntry) := do
  let all := if dropPreviousGlobalIndexes then
      previous.filter (fun e => e.indexFile.globalIndexMeta.isNone) else previous
  let all ← removeDeleted all (new.filter (fun e => e.kind = .delete))
  let additions := new.filter (fun e => e.kind = .add)
  let newHashKeys := (additions.filter (fun e => e.indexFile.indexType = "HASH")).map
    (fun e => (e.partition, e.bucket))
  let all := all.filter (fun e =>
    !(e.indexFile.indexType == "HASH" && newHashKeys.contains (e.partition, e.bucket)))
  validateGlobalIndexOverlap additions all
  validateAddedGlobalIndexOverlap additions
  checkDvUnique [] [] ((all ++ additions).filter isDeletionVectors)
  return all ++ additions

/-! ## references of deletion vectors -/

def activeFilesAfter (active : List FileKey) : List ManifestEntry → List FileKey
  | [] => active
  | e :: es =>
    match e.kind with
    | .add => activeFilesAfter (e.fileKey :: active) es
    | .delete => activeFilesAfter (active.filter (fun k => k ≠ e.fileKey)) es

def referencedFiles (dataEntries : List ManifestEntry)
    (indexEntries mergedIndexes : List IndexManifestEntry) : List FileKey :=
  let deletedFiles := (dataEntries.filter (fun e => e.kind = .delete)).map ManifestEntry.fileKey
  let addedDvs := (indexEntries.filter (fun e => e.kind = .add ∧ isDeletionVectors e)).map
    (fun e => fileKey e.partition e.bucket e.indexFile.fileName)
  (mergedIndexes.filter isDeletionVectors).flatMap fun e =>
    let isAdded := addedDvs.contains (fileKey e.partition e.bucket e.indexFile.fileName)
    (dvFiles e).filter (fun key => isAdded || deletedFiles.contains key)

def missingDataFileError (key : FileKey) : Error :=
  .dataInvalid s!"Deletion vector references missing data file '{key.2.2}' in bucket {key.2.1}; prepare the DELETE again from the latest snapshot"

def keysPartitionFilter (t : Table) (keys : List FileKey) : Result (Option PartitionFilter) :=
  if t.partitioned then do
    let f ← fromPartitionSet t (keys.map (fun key => key.1))
    return some f
  else .ok none

def checkDeletionVectorReferences (t : Table) (latestSnapshot : Option Snapshot)
    (dataEntries : List ManifestEntry) (indexEntries mergedIndexes : List IndexManifestEntry) :
    Result Unit :=
  let referenced := referencedFiles dataEntries indexEntries mergedIndexes
  if referenced = [] then .ok () else do
    let filter ← keysPartitionFilter t referenced
    let base ← scanSnapshotEntries latestSnapshot filter
    let active := activeFilesAfter (base.map ManifestEntry.fileKey) dataEntries
    referenced.forM fun key => if key ∈ active then pure () else throw (missingDataFileError key)

end Paimon
