import Paimon.Commit.Index

/-!
# Global indexes and the data of a commit

`TableCommit::global_index_update_entries` (what happens to an existing global index when indexed
columns are rewritten) and `TableCommit::check_global_index_sources` (an added global index must lie
on current data and its source columns must not have changed since it was built).
-/

namespace Paimon

/-! ## `DataEvolutionIndexSourceMeta` -/

def dataEvolutionMagic : Bytes := [0x44, 0x45, 0x49, 0x58]

/-- two's complement reading of a big-endian byte string -/
def beInt (bs : Bytes) : Int :=
  let n := beNat bs
  if n < 2 ^ (8 * bs.length - 1) then (n : Int) else (n : Int) - 2 ^ (8 * bs.length)

def isDataEvolutionMeta : Option Bytes → Bool
  | none => false
  | some bytes => dataEvolutionMagic.isPrefixOf bytes

/-- the scan snapshot id of a data-evolution source -/
def deserializeIndexSource (bytes : Bytes) : Result Int :=
  if bytes.length ≠ 16 ∨ !isDataEvolutionMeta (some bytes) then
    .error (.dataInvalid "Invalid data-evolution index source metadata.")
  else
    let version := beInt ((bytes.drop 4).take 4)
    if version ≠ 1 then
      .error (.dataInvalid s!"Unsupported data-evolution index source version: {version}.")
    else
      let id := beInt (bytes.drop 8)
      if id ≤ 0 then .error (.dataInvalid "Scan snapshot id must be positive.") else .ok id

/-! ## updates of indexed columns -/

/-- the files that may invalidate an existing index: they target existing row ids -/
def updatesRowIds (e : ManifestEntry) : Bool :=
  e.kind == .add && match e.file.writeCols with
    | none => false
    | some cols => e.file.firstRowId.isSome || cols.contains rowIdFieldName

def indexedFieldIds (m : GlobalIndexMeta) : List Int := m.indexFieldId :: m.extraFieldIds.getD []

def conflictedColumns (t : Table) (updatedCols : List String) (m : GlobalIndexMeta) : List String :=
  (indexedFieldIds m).filterMap (fun i =>
    match t.fields.find? (fun f => f.id = i) with
    | some f => if updatedCols.contains f.name then some f.name else none
    | none => none)

def debugNames (names : List String) : String :=
  "[" ++ ", ".intercalate ((names.dedup.insertionSort (fun a b => a ≤ b)).map
    (fun n => "\"" ++ n ++ "\"")) ++ "]"

def globalIndexUpdateEntries (t : Table) (previous : List IndexManifestEntry)
    (commitEntries : List ManifestEntry) (newIndexEntries : List IndexManifestEntry) :
    Result (List IndexManifestEntry) :=
  let updating := commitEntries.filter updatesRowIds
  let updatedCols := updating.flatMap (fun e =>
    (e.file.writeCols.getD []).filter (fun col => !isSystemField col))
  let writtenPartitions := updating.map ManifestEntry.partition
  if updatedCols = [] ∨ writtenPartitions = [] then .ok [] else
  let candidates := previous.filter (fun e => e.kind = .add ∧
    ¬ newIndexEntries.any (fun d => d.kind == .delete && sameIndexFileEntry e d) ∧
    writtenPartitions.any (fun p => sameIndexPartition p e.partition))
  let matched := fun e : IndexManifestEntry =>
    match e.indexFile.globalIndexMeta with
    | none => []
    | some m => conflictedColumns t updatedCols m
  let affected := candidates.filter (fun e => matched e ≠ [])
  if affected = [] then .ok [] else do
    let action ← t.globalIndexColumnUpdateAction
    match action with
    | .ignore => pure []
    | .dropPartitionIndex => pure (affected.map (fun e => { e with kind := .delete }))
    | .throwError => throw (.dataInvalid
        ("Update columns contain globally indexed columns, not supported now. Updated columns: "
          ++ debugNames updatedCols ++ ". Conflicted columns: "
          ++ debugNames (affected.flatMap matched) ++ "."))

/-! ## sources of added indexes -/

/-- row ranges of the data files of one partition and bucket, merged -/
def coveredRanges (current : List ManifestEntry) (partition : Bytes) (bucket : Int) : List RowRange :=
  mergeRowRanges ((current.filter (fun e =>
      partitionKey e.partition = partitionKey partition ∧ e.bucket = bucket)).filterMap (fun e =>
    match e.file.rowIdRange with
    | none => none
    | some (start, stop) => if h : start ≤ stop then some ⟨start, stop, h⟩ else none))

def checkIndexColumnChanges (t : Table) (sources : List (Int × IndexManifestEntry))
    (changes : List ManifestEntry) (snapshotId : Option Int) : Result Unit :=
  changes.forM fun change =>
    match change.file.rowIdRange with
    | none => pure ()
    | some (start, stop) =>
      let overlapping := sources.filter (fun s =>
        (match snapshotId with
          | none => true
          | some id => decide (s.1 < id)) &&
        sameIndexPartition s.2.partition change.partition && s.2.bucket == change.bucket &&
        match s.2.indexFile.globalIndexMeta with
          | none => false
          | some m => rangesOverlap start stop m.rowRangeStart m.rowRangeEnd)
      if overlapping = [] then pure () else do
        let written ← writeFieldIds t change.file
        overlapping.forM fun s =>
          match s.2.indexFile.globalIndexMeta with
          | none => pure ()
          | some m =>
            if (indexedFieldIds m).any (fun i => written.contains i) then
              throw (.dataInvalid s!"Global index source conflict: indexed values changed after building index file '{s.2.indexFile.fileName}'.")
            else pure ()

/-- the added indexes that carry a data-evolution source, with their snapshot ids -/
def collectIndexSources (read : Reader) (latestSnapshot : Option Snapshot) (current : List ManifestEntry) :
    List IndexManifestEntry → Result (List (Int × IndexManifestEntry))
  | [] => .ok []
  | e :: es =>
    match e.indexFile.globalIndexMeta with
    | none => collectIndexSources read latestSnapshot current es
    | some m =>
      if !(coveredRanges current e.partition e.bucket).any (fun r =>
          decide (r.fromId ≤ m.rowRangeStart) && decide (m.rowRangeEnd ≤ r.toId)) then
        .error (.dataInvalid s!"Global index row ID existence conflict: index file '{e.indexFile.fileName}' is not fully covered by current data files.")
      else if !isDataEvolutionMeta m.sourceMeta then
        collectIndexSources read latestSnapshot current es
      else do
        let sourceId ← deserializeIndexSource (m.sourceMeta.getD [])
        match latestSnapshot with
        | none => throw (.dataInvalid "Global index source conflict: no snapshot exists.")
        | some latest =>
          if latest.id < sourceId then
            throw (.dataInvalid "Global index source conflict: source snapshot is newer than the latest snapshot.")
          if sourceId ≠ latest.id then
            let _ ← read sourceId
          let rest ← collectIndexSources read latestSnapshot current es
          return (sourceId, e) :: rest

def checkGlobalIndexSources (c : TableCommit) (read : Reader) (latestSnapshot : Option Snapshot)
    (dataEntries : List ManifestEntry) (indexEntries : List IndexManifestEntry) : Result Unit :=
  let additions := indexEntries.filter (fun e =>
    e.kind = .add ∧ e.indexFile.globalIndexMeta.isSome)
  if !c.dataEvolutionEnabled || additions = [] then .ok () else do
    let filter ← if c.table.partitioned then
        (do let f ← fromPartitionSet c.table (additions.map IndexManifestEntry.partition)
            return some f)
      else pure none
    let scanned ← scanSnapshotEntries latestSnapshot filter
    let current := mergeActiveEntries (scanned ++ dataEntries)
    let sources ← collectIndexSources read latestSnapshot current additions
    match sources, latestSnapshot with
    | s :: ss, some latest =>
      checkIndexColumnChanges c.table (s :: ss) dataEntries none
      let earliest := ss.foldl (fun acc x => min acc x.1) s.1
      (idsAfter earliest latest.id).forM fun id => do
        let snapshot ← if id = latest.id then pure latest else read id
        if snapshot.commitKind = .compact then return ()
        let changes ← readDeltaEntries filter snapshot
        checkIndexColumnChanges c.table (s :: ss) changes (some id)
    | _, _ => pure ()

end Paimon
