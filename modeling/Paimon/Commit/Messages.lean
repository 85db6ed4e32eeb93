import Paimon.Commit.Machine

/-!
# Commit messages

What a writer hands over to a committer (`table/commit_message.rs`), the checks of
`commit_with_identifier_impl` and the plan it builds from the messages.
-/

namespace Paimon

structure CommitMessage where
  partition : Bytes
  bucket : Int
  totalBuckets : Option Int := none
  newFiles : List DataFileMeta
  checkFromSnapshot : Option Int := none
  newChangelogFiles : List DataFileMeta := []
  newIndexFiles : List IndexFileMeta := []
  deletedIndexFiles : List IndexFileMeta := []
  deletedFiles : List DataFileMeta := []
  compactBefore : List DataFileMeta := []
  compactAfter : List DataFileMeta := []
  compactChangelogFiles : List DataFileMeta := []
  compactNewIndexFiles : List IndexFileMeta := []
  compactDeletedIndexFiles : List IndexFileMeta := []
  fixedBucketOverwrite : Bool := false
deriving DecidableEq

/-! ## checks -/

def rejectCompactIncrement (messages : List CommitMessage) : Result Unit :=
  if messages.any fun m => !m.compactBefore.isEmpty || !m.compactAfter.isEmpty ||
      !m.compactChangelogFiles.isEmpty || !m.compactNewIndexFiles.isEmpty ||
      !m.compactDeletedIndexFiles.isEmpty then
    .error (.unsupported "Committing a compact increment requires a separate COMPACT snapshot.")
  else .ok ()

def validateFixedBucketCommitMode (messages : List CommitMessage) (overwrite : Bool) : Result Unit :=
  if messages.any fun m => m.totalBuckets.isSome && m.fixedBucketOverwrite != overwrite then
    let prepared := if overwrite then "append" else "overwrite"
    let submitted := if overwrite then "overwrite" else "append"
    .error (.dataInvalid s!"Commit messages were prepared for {prepared} but submitted as {submitted}")
  else .ok ()

/-- `owners` are the partitions and buckets of the messages before -/
def validateBucketOwnershipFrom : List (Bytes × Int) → List CommitMessage → Result Unit
  | _, [] => .ok ()
  | owners, m :: messages =>
    match m.totalBuckets with
    | none => validateBucketOwnershipFrom owners messages
    | some totalBuckets =>
      if totalBuckets ≤ 0 ∨ m.bucket < 0 ∨ totalBuckets ≤ m.bucket then
        .error (.dataInvalid s!"Invalid fixed bucket {m.bucket} for total_buckets={totalBuckets}; expected a bucket in [0, {totalBuckets})")
      else if m.newFiles = [] then validateBucketOwnershipFrom owners messages
      else if (m.partition, m.bucket) ∈ owners then
        .error (.dataInvalid s!"Postpone fixed-bucket writer ownership conflict for bucket {m.bucket}: route all rows for one partition and bucket to a single writer")
      else validateBucketOwnershipFrom ((m.partition, m.bucket) :: owners) messages

def validateBucketOwnership (messages : List CommitMessage) : Result Unit :=
  validateBucketOwnershipFrom [] messages

def smallestCheckFrom : Option Int → List CommitMessage → Result (Option Int)
  | smallest, [] => .ok smallest
  | smallest, m :: messages =>
    match m.checkFromSnapshot with
    | none => smallestCheckFrom smallest messages
    | some snapshot =>
      if snapshot < 0 then .error (.dataInvalid s!"Invalid row-id check snapshot: {snapshot}")
      else smallestCheckFrom (some (smallest.elim snapshot fun previous => min previous snapshot)) messages

def checkFromSnapshot (messages : List CommitMessage) : Result (Option Int) := do
  let smallest ← smallestCheckFrom none messages
  if smallest.isSome && messages.any (fun m => m.checkFromSnapshot.isNone &&
      (m.newFiles ++ m.deletedFiles).any fun file => file.firstRowId.isSome) then
    throw (.dataInvalid "A row-id commit message is missing its check-from snapshot.")
  return smallest

/-! ## entries -/

namespace TableCommit

variable (c : TableCommit)

def messageEntry (m : CommitMessage) (kind : FileKind) (file : DataFileMeta) : ManifestEntry where
  kind := kind
  partition := m.partition
  bucket := m.bucket
  totalBuckets := m.totalBuckets.getD c.totalBuckets
  file := file

def messagesToEntries (messages : List CommitMessage) : List ManifestEntry :=
  messages.flatMap fun m =>
    m.newFiles.map (c.messageEntry m .add) ++ m.deletedFiles.map (c.messageEntry m .delete)

def messagesToChangelogEntries (messages : List CommitMessage) : List ManifestEntry :=
  messages.flatMap fun m => m.newChangelogFiles.map (c.messageEntry m .add)

end TableCommit

def messagesToIndexEntries (messages : List CommitMessage) : List IndexManifestEntry :=
  messages.flatMap fun m =>
    m.newIndexFiles.map (fun file => ⟨1, .add, m.partition, m.bucket, file⟩) ++
      m.deletedIndexFiles.map (fun file => ⟨1, .delete, m.partition, m.bucket, file⟩)

end Paimon
