import Paimon.Commit.Table

/-!
# Conflict checks on data entries

The checks `TableCommit::check_commit_conflicts` runs on a base and a delta, and what those that
guard the file set let through:

* `validateFileEntries_shape`: per normalized identifier a checked list is empty, one ADD, one DELETE, or an
  ADD and then a DELETE;
* `checkDeleteEntries_ok`: every DELETE hits an identifier live at that point;
* `checkTotalBucketsFrom_ok`: the counted entries of a partition have one bucket count.

The remaining checks (bucket ownership, row ids) only reject.
-/

namespace Paimon

/-! ## `validate_file_entries` -/

structure FileState where
  added : Bool := false
  deleted : Bool := false
  present : Bool := false
deriving DecidableEq, Repr

def alreadyPresentError (e : ManifestEntry) : Error :=
  .dataInvalid s!"File conflict: trying to add file '{e.file.fileName}' in bucket {e.bucket} which is already present."

def duplicateEntryError (e : ManifestEntry) : Error :=
  let kind := match e.kind with
    | .add => "ADD"
    | .delete => "DELETE"
  .dataInvalid s!"Duplicate {kind} entry for file '{e.file.fileName}' in bucket {e.bucket}."

def validateFileEntriesFrom (files : Identifier → FileState) : List ManifestEntry → Result Unit
  | [] => .ok ()
  | e :: es =>
    let id := commitFileIdentifier e
    let state := files id
    match e.kind with
    | .add =>
      if state.present && !state.added then .error (alreadyPresentError e)
      else if state.added then .error (duplicateEntryError e)
      else validateFileEntriesFrom
        (Function.update files id { state with added := true, present := true }) es
    | .delete =>
      if state.deleted then .error (duplicateEntryError e)
      else validateFileEntriesFrom
        (Function.update files id { state with deleted := true, present := !state.present }) es

def validateFileEntries (entries : List ManifestEntry) : Result Unit :=
  validateFileEntriesFrom (fun _ => {}) entries

/-- the kinds of the entries of one normalized identifier, in order -/
def kindsOf (i : Identifier) (es : List ManifestEntry) : List FileKind :=
  (es.filter (fun e => commitFileIdentifier e = i)).map ManifestEntry.kind

theorem kindsOf_nil (i : Identifier) : kindsOf i [] = [] := rfl
theorem kindsOf_cons (i : Identifier) (e : ManifestEntry) (es : List ManifestEntry) :
    kindsOf i (e :: es) = if commitFileIdentifier e = i then e.kind :: kindsOf i es
      else kindsOf i es := by
  unfold kindsOf
  rw [List.filter_cons]
  by_cases h : commitFileIdentifier e = i <;> simp [h]
theorem kindsOf_append (i : Identifier) (a b : List ManifestEntry) :
    kindsOf i (a ++ b) = kindsOf i a ++ kindsOf i b := by
  simp [kindsOf]

/-- the entries of an identifier that led to a state -/
def FileState.history (st : FileState) : List FileKind :=
  (if st.added then [.add] else []) ++ (if st.deleted then [.delete] else [])

/-- the lists of entries of one file that a commit may hold -/
def fileShapes : List (List FileKind) := [[], [.add], [.delete], [.add, .delete]]

def FileState.Sound (st : FileState) : Prop := st.present = (st.added ^^ st.deleted)

theorem history_mem_fileShapes (st : FileState) : st.history ∈ fileShapes := by
  obtain ⟨a, d, p⟩ := st
  cases a <;> cases d <;> decide +revert

theorem validateFileEntriesFrom_shape {files : Identifier → FileState} {es : List ManifestEntry}
    (hst : ∀ i, (files i).Sound) (h : validateFileEntriesFrom files es = .ok ()) (i : Identifier) :
    (files i).history ++ kindsOf i es ∈ fileShapes := by
  induction es generalizing files with
  | nil =>
    rw [kindsOf_nil, List.append_nil]
    exact history_mem_fileShapes _
  | cons e es ih =>
    -- the state after `e`: still sound, and its history is one entry longer
    have key : ∀ st' : FileState, st'.Sound →
        st'.history = (files (commitFileIdentifier e)).history ++ [e.kind] →
        validateFileEntriesFrom (Function.update files (commitFileIdentifier e) st') es = .ok () →
        (files i).history ++ kindsOf i (e :: es) ∈ fileShapes := by
      intro st' hs' hh hrun
      have ih' := ih (fun j => by
        by_cases hj : j = commitFileIdentifier e
        · rw [hj, Function.update_self]
          exact hs'
        · rw [Function.update_of_ne hj]
          exact hst j) hrun
      rw [kindsOf_cons]
      by_cases hi : commitFileIdentifier e = i
      · subst hi
        rw [if_pos rfl]
        rwa [Function.update_self, hh, List.append_assoc] at ih'
      · rw [if_neg hi]
        rwa [Function.update_of_ne (Ne.symm hi)] at ih'
    have hs := hst (commitFileIdentifier e)
    unfold FileState.Sound at hs
    simp only [validateFileEntriesFrom] at h
    cases hk : e.kind with
    | add =>
      simp only [hk] at h
      split at h
      · exact nomatch h
      · split at h
        · exact nomatch h
        · rename_i h1 h2
          have hadd : (files (commitFileIdentifier e)).added = false := by simpa using h2
          have hpre : (files (commitFileIdentifier e)).present = false := by simpa [hadd] using h1
          have hdel : (files (commitFileIdentifier e)).deleted = false := by
            simpa [hadd, hpre] using hs.symm
          refine key _ ?_ ?_ h
          · simp [FileState.Sound, hdel]
          · simp [FileState.history, hadd, hdel, hk]
    | delete =>
      simp only [hk] at h
      split at h
      · exact nomatch h
      · rename_i h1
        have hdel : (files (commitFileIdentifier e)).deleted = false := by simpa using h1
        refine key _ ?_ ?_ h
        · simp [FileState.Sound, hs, hdel]
        · simp [FileState.history, hdel, hk]

/-- **What a checked list of entries holds for one file.** -/
theorem validateFileEntries_shape {es : List ManifestEntry} (h : validateFileEntries es = .ok ())
    (i : Identifier) : kindsOf i es ∈ fileShapes :=
  @validateFileEntriesFrom_shape (fun _ => {}) es (fun _ => rfl) h i

/-! ## `check_delete_entries_against_base` -/

def checkDeleteEntries (active : List Identifier) : List ManifestEntry → Result Unit
  | [] => .ok ()
  | e :: es =>
    let id := commitFileIdentifier e
    match e.kind with
    | .add => checkDeleteEntries (id :: active) es
    | .delete =>
      if id ∈ active then checkDeleteEntries (active.filter (fun j => j ≠ id)) es
      else .error (.dataInvalid s!"Delete conflict: file '{e.file.fileName}' in bucket {e.bucket} does not exist in the current snapshot.")

def checkDeleteEntriesAgainstBase (base delta : List ManifestEntry) : Result Unit :=
  checkDeleteEntries (base.map commitFileIdentifier) delta

def activeAfter (active : List Identifier) (es : List ManifestEntry) : List Identifier :=
  es.foldl (fun active e =>
    match e.kind with
    | .add => commitFileIdentifier e :: active
    | .delete => active.filter (fun j => j ≠ commitFileIdentifier e)) active

theorem checkDeleteEntries_ok {active : List Identifier} {es : List ManifestEntry}
    (h : checkDeleteEntries active es = .ok ()) {a b : List ManifestEntry} {e : ManifestEntry}
    (hes : es = a ++ e :: b) (hk : e.kind = .delete) :
    commitFileIdentifier e ∈ activeAfter active a := by
  induction a generalizing active es with
  | nil =>
    subst hes
    simp only [List.nil_append, checkDeleteEntries, hk] at h
    split at h
    · assumption
    · exact nomatch h
  | cons x a ih =>
    subst hes
    simp only [List.cons_append, checkDeleteEntries] at h
    show commitFileIdentifier e ∈ activeAfter (match x.kind with
      | .add => commitFileIdentifier x :: active
      | .delete => active.filter (fun j => j ≠ commitFileIdentifier x)) a
    cases hx : x.kind with
    | add =>
      simp only [hx] at h
      exact ih h rfl
    | delete =>
      simp only [hx] at h
      split at h
      · exact ih h rfl
      · exact nomatch h

/-! ## bucket counts and bucket ownership -/

def totalBucketsError (previous : Int) (e : ManifestEntry) : Error :=
  .dataInvalid s!"Fixed-bucket conflict: one partition uses different total bucket counts {previous} and {e.totalBuckets}"

def checkTotalBucketsFrom (counts : Bytes → Option Int) : List ManifestEntry → Result Unit
  | [] => .ok ()
  | e :: es =>
    if e.kind ≠ .add ∨ e.bucket < 0 ∨ e.totalBuckets ≤ 0 then checkTotalBucketsFrom counts es
    else match counts e.partition with
      | some previous =>
        if previous ≠ e.totalBuckets then .error (totalBucketsError previous e)
        else checkTotalBucketsFrom (Function.update counts e.partition (some e.totalBuckets)) es
      | none => checkTotalBucketsFrom (Function.update counts e.partition (some e.totalBuckets)) es

def checkTotalBucketConflicts (entries : List ManifestEntry) : Result Unit :=
  checkTotalBucketsFrom (fun _ => none) entries

/-- an entry that `check_total_bucket_conflicts` does not skip -/
def BucketCounted (e : ManifestEntry) : Prop := e.kind = .add ∧ 0 ≤ e.bucket ∧ 0 < e.totalBuckets

theorem checkTotalBucketsFrom_ok {counts : Bytes → Option Int} {es : List ManifestEntry}
    (h : checkTotalBucketsFrom counts es = .ok ()) :
    ∃ total : Bytes → Int, (∀ p n, counts p = some n → total p = n) ∧
      ∀ e ∈ es, BucketCounted e → e.totalBuckets = total e.partition := by
  induction es generalizing counts with
  | nil => exact ⟨fun p => (counts p).getD 0, fun p n hp => by simp [hp], by simp⟩
  | cons e es ih =>
    simp only [checkTotalBucketsFrom] at h
    split at h
    · next hskip =>
      obtain ⟨total, hext, hall⟩ := ih h
      refine ⟨total, hext, List.forall_mem_cons.mpr ⟨fun hc => ?_, hall⟩⟩
      obtain ⟨hk, hb, ht⟩ := hc
      rcases hskip with hs | hs | hs
      · exact absurd hk hs
      · omega
      · omega
    · have hstep : (∀ n, counts e.partition = some n → e.totalBuckets = n) ∧
          checkTotalBucketsFrom (Function.update counts e.partition (some e.totalBuckets)) es = .ok () := by
        split at h
        · next previous hp =>
          split at h
          · cases h
          · next hne =>
            refine ⟨fun n hn => ?_, h⟩
            rw [hp, Option.some.injEq] at hn
            rw [← hn, not_not.mp hne]
        · next hp =>
          refine ⟨fun n hn => ?_, h⟩
          rw [hp] at hn
          cases hn
      obtain ⟨total, hext, hall⟩ := ih hstep.2
      have he : total e.partition = e.totalBuckets := hext _ _ (Function.update_self ..)
      refine ⟨total, fun p n hp => ?_, List.forall_mem_cons.mpr ⟨fun _ => he.symm, hall⟩⟩
      by_cases hpe : p = e.partition
      · subst hpe
        rw [he, hstep.1 n hp]
      · exact hext p n (by rwa [Function.update_of_ne hpe])

def checkFixedBucketOwnershipConflicts (c : TableCommit) (read : Reader)
    (latestSnapshot : Option Snapshot) (entries : List ManifestEntry) (commitKind : CommitKind)
    (checkFromSnapshot : Option Int) : Result Unit :=
  match checkFromSnapshot, latestSnapshot with
  | some checkFrom, some latest =>
    if latest.id ≤ checkFrom then .ok () else
    let fixedEntries := entries.filter (fun e =>
      e.kind = .add ∧ e.totalBuckets ≠ c.totalBuckets ∧ 0 < e.totalBuckets)
    if fixedEntries = [] then .ok () else do
      let filter ← buildEntriesPartitionFilter c.table fixedEntries
      (idsAfter (max checkFrom 0) latest.id).forM fun id => do
        let snapshot ← read id
        let concurrent ← readDeltaEntries filter snapshot
        concurrent.forM fun e =>
          if commitKind = .overwrite ∧ e.partition ∈ fixedEntries.map ManifestEntry.partition then
            throw (.dataInvalid s!"Postpone fixed-bucket overwrite conflict: another commit wrote the same partition after snapshot {checkFrom}")
          else if e.kind ≠ .add then pure ()
          else if (e.partition, e.bucket) ∈ fixedEntries.map (fun x => (x.partition, x.bucket)) then
            throw (.dataInvalid s!"Postpone fixed-bucket writer ownership conflict for bucket {e.bucket}: another commit wrote the same partition and bucket after snapshot {checkFrom}")
          else pure ()
  | _, _ => .ok ()

/-! ## row ids -/

def rangesOverlap (leftStart leftEnd rightStart rightEnd : Int) : Bool :=
  decide (leftStart ≤ rightEnd) && decide (rightStart ≤ leftEnd)

def isBlobOrVideoFileName (fileName : String) : Bool :=
  let lower := fileName.toList.map Char.toLower
  ".blob".toList.isSuffixOf lower || ".video".toList.isSuffixOf lower

def isBlobDataFile (f : DataFileMeta) : Bool := isBlobOrVideoFileName f.fileName

def isVectorStoreFile (f : DataFileMeta) : Bool :=
  decide (".vector.".toList <:+: f.fileName.toList)

/-- files stored next to the normal data files of a row range: blobs and vectors -/
def isDedicatedStorageFile (f : DataFileMeta) : Bool := isBlobDataFile f || isVectorStoreFile f

def valueKindFieldName : String := "_VALUE_KIND"

def isSystemField (name : String) : Bool :=
  name == rowIdFieldName || name == sequenceNumberFieldName || name == valueKindFieldName

def rowIdExistenceError (e : ManifestEntry) (firstRowId : Int) : Error :=
  .dataInvalid s!"Row ID existence conflict: file '{e.file.fileName}' references first_row_id={firstRowId}, row_count={e.file.rowCount} in bucket {e.bucket}, but no matching file exists in the current snapshot."

/-- some normal base file of the partition and bucket covers the row range of the entry -/
def coveredByExisting (base : List ManifestEntry) (e : ManifestEntry) : Bool :=
  match e.file.rowIdRange with
  | none => false
  | some (start, stop) => base.any fun b =>
    !isDedicatedStorageFile b.file && b.partition == e.partition && b.bucket == e.bucket &&
      match b.file.firstRowId with
      | none => false
      | some first => decide (first ≤ start) && decide (stop ≤ first + b.file.rowCount - 1)

def checkRowIdExistence (base delta : List ManifestEntry) (nextRowId : Option Int) : Result Unit :=
  match nextRowId with
  | none => .ok ()
  | some nextRowId => delta.forM fun e =>
    match e.kind, e.file.firstRowId with
    | .add, some first =>
      if nextRowId ≤ first then pure ()
      else if isDedicatedStorageFile e.file && coveredByExisting base e then pure ()
      else if base.any (fun b => !isDedicatedStorageFile b.file && b.partition == e.partition &&
          b.bucket == e.bucket && b.file.firstRowId == some first &&
          b.file.rowCount == e.file.rowCount) then pure ()
      else throw (rowIdExistenceError e first)
    | _, _ => pure ()

def rowIdRangeError (l r : ManifestEntry) (ls le rs re : Int) : Error :=
  .dataInvalid s!"For Data Evolution table, multiple operations have row-id range conflicts: {l.file.fileName} [{ls}, {le}] and {r.file.fileName} [{rs}, {re}]."

/-- two normal files either share their row range or do not meet -/
def checkRangePairs : List ManifestEntry → Result Unit
  | [] => .ok ()
  | l :: rest => do
    match l.file.rowIdRange with
    | none => pure ()
    | some (ls, le) => rest.forM fun r =>
      match r.file.rowIdRange with
      | none => pure ()
      | some (rs, re) =>
        if rangesOverlap ls le rs re && (ls, le) != (rs, re) then
          throw (rowIdRangeError l r ls le rs re)
        else pure ()
    checkRangePairs rest

def checkDedicatedRowIdRanges (normal entries : List ManifestEntry) : Result Unit :=
  (entries.filter (fun e => isDedicatedStorageFile e.file)).forM fun e =>
    match e.file.rowIdRange with
    | none => pure ()
    | some (start, stop) =>
      if normal.any (fun n => n.partition == e.partition && n.bucket == e.bucket &&
          match n.file.rowIdRange with
          | none => false
          | some (bs, be) => decide (bs ≤ start) && decide (stop ≤ be)) then pure ()
      else throw (.dataInvalid s!"For Data Evolution table, dedicated file '{e.file.fileName}' [{start}, {stop}] is not covered by one data file range.")

def checkRowIdRangeConflicts (commitKind : CommitKind) (checkFromSnapshot : Option Int)
    (commitEntries : List ManifestEntry) : Result Unit :=
  if checkFromSnapshot.isNone ∧ commitKind ≠ .compact then .ok () else do
    let entries := commitEntries.filter (fun e =>
      e.file.firstRowId.isSome && !isDedicatedStorageFile e.file)
    checkRangePairs entries
    checkDedicatedRowIdRanges entries commitEntries

/-- ids of the fields a file writes, under its own schema -/
def writeFieldIds (t : Table) (f : DataFileMeta) : Result (List Int) := do
  let fields ← if f.schemaId = t.schemaId then pure t.fields else t.schemas f.schemaId
  let dataFields := fields.filter (fun x => !isSystemField x.name)
  let writeCols := f.writeCols.map (·.filter (fun col => !isSystemField col))
  match t.writeLeafIds with
  | some writeLeafIds => writeLeafIds dataFields writeCols
  | none =>
    match writeCols with
    | none => pure (dataFields.map DataField.id)
    | some cols => cols.mapM fun col =>
      match dataFields.find? (fun x => x.name = col) with
      | some field => pure field.id
      | none => throw (.dataInvalid s!"Cannot find write column '{col}' in schema {f.schemaId}.")

structure RowIdWriteRange where
  start : Int
  stop : Int
  fieldIds : List Int

def buildRowIdWriteRanges (t : Table) : List ManifestEntry → Result (List RowIdWriteRange)
  | [] => .ok []
  | e :: es => do
    match e.file.rowIdRange with
    | none => buildRowIdWriteRanges t es
    | some (start, stop) =>
      let fieldIds ← writeFieldIds t e.file
      let rest ← buildRowIdWriteRanges t es
      return if fieldIds = [] then rest else ⟨start, stop, fieldIds⟩ :: rest

def checkRowIdFromSnapshot (c : TableCommit) (read : Reader) (latestSnapshot : Option Snapshot)
    (delta : List ManifestEntry) (checkFromSnapshot : Option Int) : Result Unit :=
  match checkFromSnapshot, latestSnapshot with
  | some checkFrom, some latest => do
    let writeRanges ← buildRowIdWriteRanges c.table delta
    if writeRanges.isEmpty then return ()
    let source ← if checkFrom = latest.id then pure latest else read checkFrom
    match source.nextRowId with
    | none => throw (.dataInvalid s!"Next row id cannot be null for snapshot {checkFrom}.")
    | some checkNextRowId =>
      let filter ← buildEntriesPartitionFilter c.table delta
      (idsAfter checkFrom latest.id).forM fun id => do
        let snapshot ← if id = latest.id then pure latest else read id
        if snapshot.commitKind = .compact then return ()
        let changes ← readDeltaEntries filter snapshot
        changes.forM fun e =>
          match e.file.rowIdRange with
          | none => pure ()
          | some (start, stop) =>
            if checkNextRowId ≤ start then pure () else do
              let committed ← writeFieldIds c.table e.file
              if writeRanges.any (fun r => rangesOverlap r.start r.stop start stop &&
                  r.fieldIds.any (fun i => committed.contains i)) then
                throw (.dataInvalid "For Data Evolution table, multiple MERGE INTO operations have encountered conflicts, updating the same file, which can render some updates ineffective.")
              else pure ()
  | _, _ => .ok ()

/-! ## the check -/

def checkCommitConflicts (c : TableCommit) (read : Reader) (latestSnapshot : Option Snapshot)
    (base delta : List ManifestEntry) (commitKind : CommitKind) (checkFromSnapshot : Option Int) :
    Result Unit := do
  checkDeleteEntriesAgainstBase base delta
  validateFileEntries (base ++ delta)
  checkTotalBucketConflicts delta
  let merged := mergeActiveEntries (base ++ delta)
  checkTotalBucketConflicts merged
  checkFixedBucketOwnershipConflicts c read latestSnapshot delta commitKind checkFromSnapshot
  if c.dataEvolutionEnabled then
    checkRowIdExistence base delta (latestSnapshot.bind Snapshot.nextRowId)
    checkRowIdRangeConflicts commitKind checkFromSnapshot merged
    checkRowIdFromSnapshot c read latestSnapshot delta checkFromSnapshot

theorem checkCommitConflicts_ok {c : TableCommit} {read : Reader} {latest : Option Snapshot}
    {base delta : List ManifestEntry} {kind : CommitKind} {checkFrom : Option Int}
    (h : checkCommitConflicts c read latest base delta kind checkFrom = .ok ()) :
    checkDeleteEntriesAgainstBase base delta = .ok () ∧ validateFileEntries (base ++ delta) = .ok () ∧
      checkTotalBucketConflicts (mergeActiveEntries (base ++ delta)) = .ok () := by
  obtain ⟨_, h1, h⟩ := bind_ok h
  obtain ⟨_, h2, h⟩ := bind_ok h
  obtain ⟨_, _, h⟩ := bind_ok h
  obtain ⟨_, h4, _⟩ := bind_ok h
  exact ⟨h1, h2, h4⟩

end Paimon
