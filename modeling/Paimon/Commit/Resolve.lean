import Paimon.Commit.GlobalIndex

/-!
# Resolving a commit plan against the latest snapshot

`TableCommit::resolve_commit` with the state it keeps between attempts: the overwrite cache inside
the plan (`provide_overwrite_entries`, `can_use_overwrite_cache`) and the conflict base inside the
retry state (`resolve_conflict_base_entries`, `read_incremental_changes`).

A Rust `&mut plan` is a plan returned next to the result.
-/

namespace Paimon

def postponeBucket : Int := -2

inductive CommitEntriesPlan where
  | direct (entries changelogEntries : List ManifestEntry)
      (newIndexEntries : List IndexManifestEntry) (checkFromSnapshot : Option Int)
  | overwrite (partitionFilter : Option PartitionFilter) (newEntries : List ManifestEntry)
      (newIndexEntries : List IndexManifestEntry) (checkFromSnapshot : Option Int)
      (cachedSnapshot : Option Snapshot) (cachedEntries : List ManifestEntry)

def directCommitKind (entries : List ManifestEntry) (indexEntries : List IndexManifestEntry) :
    CommitKind :=
  if entries.any (fun e => e.kind == .delete) || indexEntries.any isDeletionVectors then .overwrite
  else .append

def CommitEntriesPlan.commitKindHint : CommitEntriesPlan → CommitKind
  | .direct entries _ newIndexEntries _ => directCommitKind entries newIndexEntries
  | .overwrite .. => .overwrite

def CommitEntriesPlan.callerEntries : CommitEntriesPlan → List ManifestEntry
  | .direct entries _ _ _ => entries
  | .overwrite _ newEntries _ _ _ _ => newEntries

def CommitEntriesPlan.isDirect : CommitEntriesPlan → Bool
  | .direct .. => true
  | .overwrite .. => false

/-- a plan before its first attempt: nothing cached -/
def CommitEntriesPlan.fresh : CommitEntriesPlan → Bool
  | .direct .. => true
  | .overwrite _ _ _ _ cachedSnapshot _ => cachedSnapshot.isNone

structure ResolvedCommit where
  entries : List ManifestEntry
  changelogEntries : List ManifestEntry
  kind : CommitKind
  /-- contents of the inherited index manifest -/
  indexManifest : Option (List IndexManifestEntry)
  indexManifestChanged : Bool
  newIndexManifestEntries : Option (List IndexManifestEntry)
  baseDataFiles : Option (List ManifestEntry)

structure RetryState where
  latestSnapshot : Option Snapshot
  baseDataFiles : Option (List ManifestEntry)

/-! ## the overwrite provider -/

def buildOverwriteResult (existing new : List ManifestEntry) : List ManifestEntry :=
  existing.map (fun e => e.withKind .delete) ++ new

/-- every snapshot of the list is an APPEND that left the filtered partitions alone; one that
cannot be read does not count as such -/
def probeDeltas (read : Reader) (f : PartitionFilter) : List Int → Result Bool
  | [] => .ok true
  | id :: ids =>
    match read id with
    | .error _ => .ok false
    | .ok snapshot =>
      if snapshot.commitKind ≠ .append then .ok false
      else do
        let delta ← readDeltaEntries (some f) snapshot
        if delta ≠ [] then return false
        probeDeltas read f ids

def canUseOverwriteCache (read : Reader) (cached latest : Snapshot) (f : Option PartitionFilter) :
    Result Bool :=
  match f with
  | none => .ok false
  | some f => probeDeltas read f (idsAfter cached.id latest.id)

def rebuildOverwriteCache (read : Reader) (latest : Snapshot) (f : Option PartitionFilter)
    (cachedSnapshot : Option Snapshot) : Result Bool :=
  match cachedSnapshot with
  | none => .ok true
  | some cached =>
    if latest.id < cached.id then
      .error (.dataInvalid s!"Cached snapshot id {cached.id} is greater than latest snapshot id {latest.id}.")
    else if cached.id < latest.id then do
      let usable ← canUseOverwriteCache read cached latest f
      return !usable
    else .ok false

/-- the entries of an overwrite attempt, with the new cache -/
def provideOverwriteEntries (read : Reader) (latestSnapshot : Option Snapshot)
    (f : Option PartitionFilter) (newEntries : List ManifestEntry)
    (cachedSnapshot : Option Snapshot) (cachedEntries : List ManifestEntry) :
    Result (List ManifestEntry × Option Snapshot × List ManifestEntry) :=
  match latestSnapshot with
  | none => .ok (buildOverwriteResult [] newEntries, cachedSnapshot, cachedEntries)
  | some latest => do
    let rebuild ← rebuildOverwriteCache read latest f cachedSnapshot
    let cached ← if rebuild then scanSnapshotEntries latestSnapshot f else pure cachedEntries
    return (buildOverwriteResult cached newEntries, some latest, cached)

/-! ## the conflict base -/

/-- deltas of the given snapshots in the filtered partitions; `none` when one cannot be read -/
def incrementalDeltas (read : Reader) (f : Option PartitionFilter) :
    List Int → Result (Option (List ManifestEntry))
  | [] => .ok (some [])
  | id :: ids =>
    match read id with
    | .error _ => .ok none
    | .ok snapshot => do
      let delta ← readDeltaEntries f snapshot
      let rest ← incrementalDeltas read f ids
      return rest.map (fun r => delta ++ r)

def readIncrementalChanges (t : Table) (read : Reader) (frm upto : Snapshot)
    (commitEntries : List ManifestEntry) : Result (Option (List ManifestEntry)) := do
  let f ← buildEntriesPartitionFilter t commitEntries
  incrementalDeltas read f (idsAfter frm.id upto.id)

def resolveConflictBaseEntries (t : Table) (read : Reader) (latestSnapshot : Option Snapshot)
    (retryState : Option RetryState) (commitEntries : List ManifestEntry) :
    Result (List ManifestEntry) :=
  match latestSnapshot with
  | none => .ok []
  | some latest =>
    match retryState with
    | some ⟨some previousSnapshot, some previousBase⟩ => do
      let incremental ← readIncrementalChanges t read previousSnapshot latest commitEntries
      match incremental with
      | some incremental => return mergeActiveEntries (previousBase ++ incremental)
      | none => scanChangedPartitionEntries t latestSnapshot commitEntries
    | _ => scanChangedPartitionEntries t latestSnapshot commitEntries

def detectCommitConflicts (c : TableCommit) (read : Reader) (latestSnapshot : Option Snapshot)
    (retryState : Option RetryState) (commitEntries : List ManifestEntry) (commitKind : CommitKind)
    (checkFromSnapshot : Option Int) : Result (Option (List ManifestEntry)) := do
  let base ← resolveConflictBaseEntries c.table read latestSnapshot retryState commitEntries
  checkCommitConflicts c read latestSnapshot base commitEntries commitKind checkFromSnapshot
  return some base

/-! ## checks of an APPEND that skips conflict detection -/

/-- `merge_manifest_entries` of the scan: a deleted identifier stays deleted -/
def mergeManifestEntries (entries : List ManifestEntry) : List ManifestEntry :=
  let deleted := (entries.filter (fun e => e.kind = .delete)).map ManifestEntry.identifier
  entries.filter (fun e => e.kind = .add ∧ e.identifier ∉ deleted)

def planManifestEntries (f : Option PartitionFilter) (s : Snapshot) : List ManifestEntry :=
  mergeManifestEntries (s.entries.filter (fun e => acceptsOpt f e.partition))

def validateRowIdAlignment (t : Table) (commitEntries : List ManifestEntry)
    (latestSnapshot : Option Snapshot) : Result Unit :=
  let filesToCheck := commitEntries.filter (fun e => e.kind = .add ∧ e.file.firstRowId.isSome)
  match filesToCheck, latestSnapshot with
  | [], _ => .ok ()
  | e :: _, none => .error (.dataInvalid s!"Row ID conflict: file '{e.file.fileName}' has pre-assigned first_row_id={e.file.firstRowId.getD 0} but no snapshot exists. The referenced files may have been removed by a concurrent compaction.")
  | e :: es, some snap => do
    let f ← buildEntriesPartitionFilter t (e :: es)
    let existing := planManifestEntries f snap
    (e :: es).forM fun e =>
      if existing.any (fun x => x.partition == e.partition && x.bucket == e.bucket &&
          x.file.firstRowId == e.file.firstRowId && x.file.rowCount == e.file.rowCount) then pure ()
      else throw (.dataInvalid s!"Row ID conflict: file '{e.file.fileName}' references first_row_id={e.file.firstRowId.getD 0}, row_count={e.file.rowCount} in partition/bucket ({e.bucket}, {e.file.rowCount}), but no matching file exists in the current snapshot. The referenced file may have been rewritten by a concurrent compaction.")

def validateDeletedFiles (t : Table) (commitEntries : List ManifestEntry)
    (latestSnapshot : Option Snapshot) : Result Unit :=
  let deleteEntries := commitEntries.filter (fun e => e.kind = .delete)
  match deleteEntries, latestSnapshot with
  | [], _ => .ok ()
  | e :: _, none => .error (.dataInvalid s!"Delete conflict: file '{e.file.fileName}' is marked for deletion but no snapshot exists.")
  | e :: es, some snap => do
    let f ← buildEntriesPartitionFilter t (e :: es)
    let existing := planManifestEntries f snap
    (e :: es).forM fun e =>
      if existing.any (fun x => x.partition == e.partition && x.bucket == e.bucket &&
          x.file.fileName == e.file.fileName) then pure ()
      else throw (.dataInvalid s!"Delete conflict: file '{e.file.fileName}' in partition/bucket ({e.bucket}) does not exist in the current snapshot. It may have been removed by a concurrent operation.")

/-! ## `resolve_commit` -/

/-- index entries of an overwrite that the filter does not drop -/
def retainedIndexEntries (f : Option PartitionFilter) :
    List IndexManifestEntry → Result (List IndexManifestEntry)
  | [] => .ok []
  | e :: es =>
    match f with
    | none => .ok []
    | some g => do
      let dropped ← g.matchesEntry e.partition
      let rest ← retainedIndexEntries f es
      return if dropped then rest else e :: rest

/-- what both kinds of plan do with the merged index entries -/
def withIndex (latestSnapshot : Option Snapshot) (previous all : List IndexManifestEntry)
    (entries changelogEntries : List ManifestEntry) (kind : CommitKind)
    (baseDataFiles : Option (List ManifestEntry)) : ResolvedCommit :=
  let changed := !sameIndexEntries all previous
  { entries := entries
    changelogEntries := changelogEntries
    kind := kind
    indexManifest := latestSnapshot.bind Snapshot.indexManifest
    indexManifestChanged := changed
    newIndexManifestEntries := if changed then some all else none
    baseDataFiles := baseDataFiles }

def detectsConflicts (c : TableCommit) (entries : List ManifestEntry) (kind : CommitKind)
    (checkFromSnapshot : Option Int) (checkAppendFiles : Bool) : Bool :=
  checkAppendFiles || kind == .overwrite || checkFromSnapshot.isSome ||
    entries.any (fun e => e.totalBuckets != c.totalBuckets) ||
    (c.totalBuckets == postponeBucket &&
      entries.any (fun e => e.kind == .add && e.bucket == postponeBucket))

/-- the checks of an APPEND that needs no conflict detection -/
def validateAppend (c : TableCommit) (entries : List ManifestEntry)
    (latestSnapshot : Option Snapshot) : Result Unit := do
  if c.rowTrackingEnabled then
    validateRowIdAlignment c.table entries latestSnapshot
  validateDeletedFiles c.table entries latestSnapshot

def checkDirect (c : TableCommit) (read : Reader) (latestSnapshot : Option Snapshot)
    (retryState : Option RetryState) (checkAppendFiles : Bool) (entries : List ManifestEntry)
    (kind : CommitKind) (checkFromSnapshot : Option Int) : Result (Option (List ManifestEntry)) :=
  if detectsConflicts c entries kind checkFromSnapshot checkAppendFiles then
    detectCommitConflicts c read latestSnapshot retryState entries kind checkFromSnapshot
  else do
    validateAppend c entries latestSnapshot
    return none

def resolveDirect (c : TableCommit) (read : Reader) (latestSnapshot : Option Snapshot)
    (retryState : Option RetryState) (checkAppendFiles : Bool)
    (entries changelogEntries : List ManifestEntry) (newIndexEntries : List IndexManifestEntry)
    (checkFromSnapshot : Option Int) : Result ResolvedCommit := do
  validateFileEntries entries
  let kind := directCommitKind entries newIndexEntries
  let baseDataFiles ← checkDirect c read latestSnapshot retryState checkAppendFiles entries kind
    checkFromSnapshot
  let previous := readPrevIndexEntries latestSnapshot
  checkGlobalIndexSources c read latestSnapshot entries newIndexEntries
  let updates ← globalIndexUpdateEntries c.table previous entries newIndexEntries
  let all ← mergeIndexEntries previous (newIndexEntries ++ updates) false
  checkDeletionVectorReferences c.table latestSnapshot entries (newIndexEntries ++ updates) all
  return withIndex latestSnapshot previous all entries changelogEntries kind baseDataFiles

/-- the part of an overwrite after its entries are known -/
def resolveOverwrite (c : TableCommit) (read : Reader) (latestSnapshot : Option Snapshot)
    (retryState : Option RetryState) (f : Option PartitionFilter) (entries : List ManifestEntry)
    (newIndexEntries : List IndexManifestEntry) (checkFromSnapshot : Option Int) :
    Result ResolvedCommit := do
  validateFileEntries entries
  let baseDataFiles ←
    detectCommitConflicts c read latestSnapshot retryState entries .overwrite checkFromSnapshot
  let previous := readPrevIndexEntries latestSnapshot
  checkGlobalIndexSources c read latestSnapshot entries newIndexEntries
  let retained ← retainedIndexEntries f previous
  let all ← mergeIndexEntries retained newIndexEntries false
  checkDeletionVectorReferences c.table latestSnapshot entries newIndexEntries all
  return withIndex latestSnapshot previous all entries [] .overwrite baseDataFiles

def resolveCommit (c : TableCommit) (read : Reader) (plan : CommitEntriesPlan)
    (latestSnapshot : Option Snapshot) (retryState : Option RetryState) (checkAppendFiles : Bool) :
    Result (CommitEntriesPlan × ResolvedCommit) :=
  match plan with
  | .direct entries changelogEntries newIndexEntries checkFrom => do
    let resolved ← resolveDirect c read latestSnapshot retryState checkAppendFiles entries
      changelogEntries newIndexEntries checkFrom
    return (plan, resolved)
  | .overwrite f newEntries newIndexEntries checkFrom cachedSnapshot cachedEntries => do
    let (entries, cachedSnapshot, cachedEntries) ←
      provideOverwriteEntries read latestSnapshot f newEntries cachedSnapshot cachedEntries
    let resolved ← resolveOverwrite c read latestSnapshot retryState f entries newIndexEntries
      checkFrom
    return (.overwrite f newEntries newIndexEntries checkFrom cachedSnapshot cachedEntries, resolved)

/-! ## accepted attempts -/

section
variable {c : TableCommit} {read : Reader} {latest : Option Snapshot} {rs : Option RetryState}
  {ix : List IndexManifestEntry} {r : ResolvedCommit} {cf : Option Int}

theorem resolveDirect_ok {b : Bool} {es cl : List ManifestEntry}
    (h : resolveDirect c read latest rs b es cl ix cf = .ok r) : ∃ base updates all,
      validateFileEntries es = .ok () ∧
      checkDirect c read latest rs b es (directCommitKind es ix) cf = .ok base ∧
      globalIndexUpdateEntries c.table (readPrevIndexEntries latest) es ix = .ok updates ∧
      mergeIndexEntries (readPrevIndexEntries latest) (ix ++ updates) false = .ok all ∧
      checkDeletionVectorReferences c.table latest es (ix ++ updates) all = .ok () ∧
      r = withIndex latest (readPrevIndexEntries latest) all es cl (directCommitKind es ix) base := by
  obtain ⟨_, hv, h⟩ := bind_ok h
  obtain ⟨base, hb, h⟩ := bind_ok h
  obtain ⟨_, _, h⟩ := bind_ok h
  obtain ⟨updates, hu, h⟩ := bind_ok h
  obtain ⟨all, ha, h⟩ := bind_ok h
  obtain ⟨_, hd, h⟩ := bind_ok h
  injection h with h
  exact ⟨base, updates, all, hv, hb, hu, ha, hd, h.symm⟩

theorem resolveOverwrite_ok {f : Option PartitionFilter} {es : List ManifestEntry}
    (h : resolveOverwrite c read latest rs f es ix cf = .ok r) : ∃ base retained all,
      validateFileEntries es = .ok () ∧
      detectCommitConflicts c read latest rs es .overwrite cf = .ok base ∧
      retainedIndexEntries f (readPrevIndexEntries latest) = .ok retained ∧
      mergeIndexEntries retained ix false = .ok all ∧
      checkDeletionVectorReferences c.table latest es ix all = .ok () ∧
      r = withIndex latest (readPrevIndexEntries latest) all es [] .overwrite base := by
  obtain ⟨_, hv, h⟩ := bind_ok h
  obtain ⟨base, hb, h⟩ := bind_ok h
  obtain ⟨_, _, h⟩ := bind_ok h
  obtain ⟨retained, hr, h⟩ := bind_ok h
  obtain ⟨all, ha, h⟩ := bind_ok h
  obtain ⟨_, hd, h⟩ := bind_ok h
  injection h with h
  exact ⟨base, retained, all, hv, hb, hr, ha, hd, h.symm⟩

end

end Paimon
