import Paimon.Commit.Resolve

/-!
# Preparing the snapshot of an attempt

Row-tracking metadata (`table_commit/row_tracking.rs`), rolling of manifest files
(`write_manifest_files`) and `TableCommit::prepare_snapshot`.

Row tracking fills in sequence numbers and first row ids, and may group entries by partition; it
never touches what identifies a file or its row count (`untracked`, `prepareEntries_untracked`).
Rolling keeps the entries and their order (`writeManifestFiles_flatten`).
-/

namespace Paimon

open List

/-! ## row tracking -/

def partitionsInOrder : List ManifestEntry → List Bytes
  | [] => []
  | e :: es => e.partition :: (partitionsInOrder es).filter (fun p => p ≠ e.partition)

def groupByPartition (entries : List ManifestEntry) : List ManifestEntry :=
  (partitionsInOrder entries).flatMap (fun p => entries.filter (fun e => e.partition = p))

def assignSnapshotId (snapshotId : Int) (e : ManifestEntry) : ManifestEntry :=
  if e.file.minSequenceNumber = 0 then e.withSequenceNumber snapshotId snapshotId
  else if e.file.maxSequenceNumber = 0 then
    e.withSequenceNumber e.file.minSequenceNumber snapshotId
  else e

structure RowTracking where
  start : Int
  blobStartDefault : Int
  blobStarts : String → Option Int
  vectorStoreStart : Int

def RowTracking.init (firstRowIdStart : Int) : RowTracking :=
  ⟨firstRowIdStart, firstRowIdStart, fun _ => none, firstRowIdStart⟩

def needsRowIds (e : ManifestEntry) : Bool :=
  e.kind == .add && e.file.fileSource == some 0 && e.file.firstRowId.isNone &&
    !(match e.file.writeCols with
      | none => false
      | some cols => cols.contains rowIdFieldName)

def assignRowIds (st : RowTracking) (e : ManifestEntry) : Result (ManifestEntry × RowTracking) :=
  if !needsRowIds e then .ok (e, st)
  else if isBlobDataFile e.file then
    match e.file.writeCols.bind List.head? with
    | none => .error (.dataInvalid s!"Blob file '{e.file.fileName}' must have write_cols for row-tracking assignment.")
    | some field =>
      let blobStart := (st.blobStarts field).getD st.blobStartDefault
      if st.start ≤ blobStart then
        .error (.dataInvalid s!"This is a bug, blobStart {blobStart} should be less than start {st.start} when assigning a blob entry file.")
      else .ok (e.withFirstRowId blobStart,
        { st with blobStarts :=
            Function.update st.blobStarts field (some (blobStart + e.file.rowCount)) })
  else if isVectorStoreFile e.file then
    if st.start ≤ st.vectorStoreStart then
      .error (.dataInvalid s!"This is a bug, vectorStoreStart {st.vectorStoreStart} should be less than start {st.start} when assigning a vector-store entry file.")
    else .ok (e.withFirstRowId st.vectorStoreStart,
      { st with vectorStoreStart := st.vectorStoreStart + e.file.rowCount })
  else .ok (e.withFirstRowId st.start,
    { st with start := st.start + e.file.rowCount, blobStartDefault := st.start,
              blobStarts := fun _ => none })

def assignRowTrackingFrom (snapshotId : Int) (st : RowTracking) :
    List ManifestEntry → Result (List ManifestEntry × Int)
  | [] => .ok ([], st.start)
  | e :: es => do
    let e := assignSnapshotId snapshotId e
    if e.file.fileSource.isNone then
      throw (.dataInvalid s!"file_source must be present for row-tracking table, file={e.file.fileName}")
    let (e, st) ← assignRowIds st e
    let (rest, next) ← assignRowTrackingFrom snapshotId st es
    return (e :: rest, next)

def assignRowTracking (snapshotId firstRowIdStart : Int) (entries : List ManifestEntry) :
    Result (List ManifestEntry × Int) :=
  assignRowTrackingFrom snapshotId (.init firstRowIdStart) entries

/-- the entries a snapshot publishes, and its next row id -/
def prepareEntries (c : TableCommit) (newSnapshotId : Int) (latestSnapshot : Option Snapshot)
    (entries : List ManifestEntry) : Result (List ManifestEntry × Option Int) :=
  if !c.rowTrackingEnabled then .ok (entries, none)
  else
    let firstRowIdStart := (latestSnapshot.bind Snapshot.nextRowId).getD 0
    if entries = [] then .ok (entries, some firstRowIdStart)
    else do
      let entries := if c.table.rowTrackingPartitionGroupOnCommit then groupByPartition entries
        else entries
      let (assigned, next) ← assignRowTracking newSnapshotId firstRowIdStart entries
      return (assigned, some next)

/-! ## manifests -/

def checkRollingRecordCount : Nat := 1000

/-- cut the entries into manifest files: a full one is closed at a multiple of the check cadence -/
def rollManifests (t : Table) (targetSize : Nat) :
    List ManifestEntry → Nat → List ManifestEntry → List Manifest
  | chunk, _, [] => if chunk = [] then [] else [chunk]
  | chunk, count, e :: es =>
    let chunk := chunk ++ [e]
    if (count + 1) % checkRollingRecordCount = 0 ∧ targetSize ≤ t.manifestBytes chunk then
      chunk :: rollManifests t targetSize [] (count + 1) es
    else rollManifests t targetSize chunk (count + 1) es

def writeManifestFiles (c : TableCommit) (entries : List ManifestEntry) : List Manifest :=
  rollManifests c.table (max c.manifestTargetSize 1).toNat [] 0 entries

/-! ## the snapshot -/

def addRecordCount (count : Int) (e : ManifestEntry) : Int :=
  match e.kind with
  | .add => count + e.file.rowCount
  | .delete => count - e.file.rowCount

def deltaRecordCount (entries : List ManifestEntry) : Int := entries.foldl addRecordCount 0

def nextSnapshotId (latestSnapshot : Option Snapshot) : Int :=
  match latestSnapshot with
  | none => 1
  | some s => s.id + 1

def existingManifestFiles (latestSnapshot : Option Snapshot) : List Manifest :=
  match latestSnapshot with
  | none => []
  | some s => s.baseManifestList ++ s.deltaManifestList

def prepareSnapshot (c : TableCommit) (resolved : ResolvedCommit)
    (latestSnapshot : Option Snapshot) (commitIdentifier : Int) : Result Snapshot := do
  let newSnapshotId := nextSnapshotId latestSnapshot
  let (entries, nextRowId) ← prepareEntries c newSnapshotId latestSnapshot resolved.entries
  let delta := deltaRecordCount entries
  let total := (latestSnapshot.bind Snapshot.totalRecordCount).getD 0 + delta
  let changelog := if resolved.changelogEntries = [] then none
    else some (writeManifestFiles c resolved.changelogEntries)
  -- an empty index manifest is not written
  let indexManifest := match resolved.newIndexManifestEntries with
    | none => resolved.indexManifest
    | some [] => none
    | some all => some all
  let schemaId ← c.table.latestSchemaId
  return {
    id := newSnapshotId
    schemaId := schemaId
    baseManifestList := existingManifestFiles latestSnapshot
    deltaManifestList := writeManifestFiles c entries
    changelogManifestList := changelog
    indexManifest := indexManifest
    commitUser := c.commitUser
    commitIdentifier := commitIdentifier
    commitKind := resolved.kind
    totalRecordCount := some total
    deltaRecordCount := some delta
    changelogRecordCount := changelog.map (fun _ =>
      (resolved.changelogEntries.map (fun e => e.file.rowCount)).sum)
    nextRowId := nextRowId }

/-! ## what row tracking and rolling keep -/

theorem rollManifests_flatten (t : Table) (n : Nat) (chunk : List ManifestEntry) (count : Nat)
    (es : List ManifestEntry) : (rollManifests t n chunk count es).flatten = chunk ++ es := by
  induction es generalizing chunk count with
  | nil =>
    unfold rollManifests
    by_cases h : chunk = []
    · simp [h]
    · simp [h]
  | cons e es ih =>
    unfold rollManifests
    simp only []
    split
    · rw [flatten_cons, ih, append_assoc, nil_append, singleton_append]
    · rw [ih, append_assoc, singleton_append]

theorem writeManifestFiles_flatten (c : TableCommit) (es : List ManifestEntry) :
    (writeManifestFiles c es).flatten = es := by
  rw [writeManifestFiles, rollManifests_flatten, nil_append]

/-- an entry without the fields that row tracking fills in -/
def untracked (e : ManifestEntry) : ManifestEntry :=
  { e with file := { e.file with minSequenceNumber := 0, maxSequenceNumber := 0,
                                 firstRowId := none } }

theorem untracked_identifier (e : ManifestEntry) : (untracked e).identifier = e.identifier := rfl
theorem untracked_rowCount (e : ManifestEntry) : (untracked e).file.rowCount = e.file.rowCount := rfl

theorem untracked_assignSnapshotId (n : Int) (e : ManifestEntry) :
    untracked (assignSnapshotId n e) = untracked e := by
  unfold assignSnapshotId
  split
  · rfl
  · split <;> rfl

theorem untracked_assignRowIds {st st' : RowTracking} {e e' : ManifestEntry}
    (h : assignRowIds st e = .ok (e', st')) : untracked e' = untracked e := by
  unfold assignRowIds at h
  split at h
  · injection h with h; injection h with h _; rw [h]
  · split at h
    · split at h
      · exact nomatch h
      · simp only [] at h
        split at h
        · exact nomatch h
        · injection h with h; injection h with h _; rw [← h]; rfl
    · split at h
      · split at h
        · exact nomatch h
        · injection h with h; injection h with h _; rw [← h]; rfl
      · injection h with h; injection h with h _; rw [← h]; rfl

variable {es r : List ManifestEntry} {n : Int}

theorem assignRowTrackingFrom_untracked {st : RowTracking}
    {next : Int} (h : assignRowTrackingFrom n st es = .ok (r, next)) :
    r.map untracked = es.map untracked := by
  induction es generalizing st r next with
  | nil => injection h with h; injection h with h _; rw [← h]
  | cons e es ih =>
    simp only [assignRowTrackingFrom] at h
    split at h
    · exact nomatch h
    · obtain ⟨⟨e', st'⟩, he, h⟩ := bind_ok h
      obtain ⟨⟨rest, next'⟩, hrest, h⟩ := bind_ok h
      injection h with h; injection h with h _
      rw [← h, map_cons, map_cons, ih hrest, untracked_assignRowIds he, untracked_assignSnapshotId]

variable {latest : Option Snapshot} {next : Option Int} {c : TableCommit}

/-- **Published entries are the resolved ones up to row-tracking fields** (grouped by partition when
the table asks for it). -/
theorem prepareEntries_untracked (h : prepareEntries c n latest es = .ok (r, next)) :
    r.map untracked = es.map untracked ∨ r.map untracked = (groupByPartition es).map untracked := by
  unfold prepareEntries at h
  split at h
  · injection h with h; injection h with h _; rw [h]; exact Or.inl rfl
  · simp only [] at h
    split at h
    · injection h with h; injection h with h _; rw [h]; exact Or.inl rfl
    · obtain ⟨⟨assigned, next'⟩, ha, h⟩ := bind_ok h
      injection h with h; injection h with h _
      have h1 := assignRowTrackingFrom_untracked ha
      rw [← h, h1]
      split
      · exact Or.inr rfl
      · exact Or.inl rfl

/-! ## grouping by partition -/

variable {es : List ManifestEntry}

theorem mem_partitionsInOrder {p : Bytes} :
    p ∈ partitionsInOrder es ↔ ∃ e ∈ es, e.partition = p := by
  induction es with
  | nil => simp [partitionsInOrder]
  | cons e es ih =>
    simp only [partitionsInOrder, mem_cons, mem_filter, ih, decide_eq_true_eq]
    by_cases hp : p = e.partition
    · simp [hp]
    · simp [hp, Ne.symm hp]

theorem partitionsInOrder_nodup (es : List ManifestEntry) : (partitionsInOrder es).Nodup := by
  induction es with
  | nil => exact nodup_nil
  | cons e es ih =>
    refine nodup_cons.mpr ⟨?_, ih.filter _⟩
    simp

variable {ps : List Bytes}

theorem flatMap_partition_perm (hn : ps.Nodup)
    (hc : ∀ e ∈ es, e.partition ∈ ps) :
    (ps.flatMap (fun p => es.filter (fun e => e.partition = p))).Perm es := by
  induction ps generalizing es with
  | nil =>
    have : es = [] := eq_nil_iff_forall_not_mem.mpr (fun e he => by simpa using hc e he)
    rw [this]
    exact List.Perm.refl _
  | cons p ps ih =>
    obtain ⟨hp, hn⟩ := nodup_cons.mp hn
    let others := es.filter (fun e => !decide (e.partition = p))
    have hrest : ps.flatMap (fun q => es.filter (fun e => e.partition = q))
        = ps.flatMap (fun q => others.filter (fun e => e.partition = q)) := by
      refine flatMap_congr (fun q hq => ?_)
      rw [filter_filter]
      refine filter_congr (fun e _ => ?_)
      have : q ≠ p := fun h => hp (h ▸ hq)
      by_cases he : e.partition = q <;> simp [he, this]
    have hothers : ∀ e ∈ others, e.partition ∈ ps := by
      intro e he
      obtain ⟨he, hne⟩ := mem_filter.mp he
      have := hc e he
      simp only [mem_cons] at this
      rcases this with h | h
      · simp [h] at hne
      · exact h
    rw [flatMap_cons, hrest]
    exact ((ih hn hothers).append_left _).trans (filter_append_perm _ es)

theorem groupByPartition_perm (es : List ManifestEntry) : (groupByPartition es).Perm es :=
  flatMap_partition_perm (partitionsInOrder_nodup es) (fun e he => mem_partitionsInOrder.mpr ⟨e, he, rfl⟩)

/-- **A snapshot publishes the resolved entries**, row-tracking fields apart. -/
theorem prepareEntries_perm (h : prepareEntries c n latest es = .ok (r, next)) :
    (r.map untracked).Perm (es.map untracked) := by
  rcases prepareEntries_untracked h with h | h
  · rw [h]
  · rw [h]
    exact (groupByPartition_perm es).map _

theorem flatMap_partition_identifier (hn : ps.Nodup) (es : List ManifestEntry)
    (i : Identifier) :
    (ps.flatMap (fun p => es.filter (fun e => e.partition = p))).filter (fun e => e.identifier = i)
      = if i.partition ∈ ps then es.filter (fun e => e.identifier = i) else [] := by
  have hpart : ∀ e : ManifestEntry, e.identifier = i → e.partition = i.partition :=
    fun e he => congrArg Identifier.partition he
  induction ps with
  | nil => simp
  | cons p ps ih =>
    obtain ⟨hp, hn⟩ := nodup_cons.mp hn
    rw [flatMap_cons, filter_append, ih hn, filter_filter]
    by_cases hi : i.partition = p
    · have hnot : i.partition ∉ ps := hi ▸ hp
      rw [if_neg hnot, append_nil, if_pos (by simp [hi])]
      refine filter_congr (fun e _ => ?_)
      by_cases he : e.identifier = i
      · simp [he, hpart e he, hi]
      · simp [he]
    · have hnil : es.filter (fun e => decide (e.identifier = i) && decide (e.partition = p)) = [] := by
        refine filter_eq_nil_iff.mpr (fun e _ => ?_)
        by_cases he : e.identifier = i
        · simp [hpart e he, hi]
        · simp [he]
      simp only [hnil, nil_append, mem_cons, hi, false_or]

theorem groupByPartition_identifier (es : List ManifestEntry) (i : Identifier) :
    (groupByPartition es).filter (fun e => e.identifier = i) = es.filter (fun e => e.identifier = i) := by
  rw [groupByPartition, flatMap_partition_identifier (partitionsInOrder_nodup es)]
  by_cases hi : i.partition ∈ partitionsInOrder es
  · rw [if_pos hi]
  · rw [if_neg hi, eq_comm, filter_eq_nil_iff]
    intro e he
    have hne : e.identifier ≠ i := fun h =>
      hi (mem_partitionsInOrder.mpr ⟨e, he, congrArg Identifier.partition h⟩)
    simpa using hne

/-- **What a snapshot publishes replays as what was resolved**, row-tracking fields apart. -/
theorem look_prepared (h : prepareEntries c n latest es = .ok (r, next)) (live : List ManifestEntry)
    (i : Identifier) :
    (Net.look ManifestEntry.identifier
      (Net.run ManifestEntry.identifier ManifestEntry.isAdd live r) i).map untracked
      = (Net.look ManifestEntry.identifier
        (Net.run ManifestEntry.identifier ManifestEntry.isAdd live es) i).map untracked := by
  have hmap : ∀ log : List ManifestEntry, (Net.look ManifestEntry.identifier
        (Net.run ManifestEntry.identifier ManifestEntry.isAdd live log) i).map untracked
        = Net.look ManifestEntry.identifier (Net.run ManifestEntry.identifier ManifestEntry.isAdd
          (live.map untracked) (log.map untracked)) i :=
    fun log => (Net.look_run_map (g := untracked) untracked_identifier (fun _ => rfl) live log i).symm
  rw [hmap, hmap]
  rcases prepareEntries_untracked h with h | h
  · rw [h]
  · rw [h, ← hmap, ← hmap, Net.look_run_key, groupByPartition_identifier, ← Net.look_run_key]

end Paimon
