import Paimon.Lib.Census
import Paimon.Spec.Manifest

/-!
# Dynamic buckets

`table/bucket_assigner_dynamic.rs` for one partition: key hashes are assigned to buckets, and the
assignment is kept in one HASH index file per bucket.

* `PartitionIndex`: the assignment in memory: the map, the counters of the buckets with room, all buckets,
  and one maintainer per bucket for the files;
* `PartitionIndex.assign`: a bucket for a hash;
* `PartitionIndex.load`, `merge`, `notifyPrecomputed`: the other ways into the map;
* `Assigner`: full index, partial index of direct writers, cached files;
* `System`, `Op`, `step`: the assigner beside the committed files, with restarts.

The iteration order of a `HashMap` and the random draw of a bucket are an `Oracle`.
-/

namespace Paimon.Dynamic

def maxDynamicBuckets : Int := 32768

/-- a HASH index file of a bucket as the index manifest lists it, with its contents -/
structure IndexEntry where
  bucket : Int
  rowCount : Int
  hashes : List Int
deriving DecidableEq, Repr

/-- `DynamicBucketIndexMaintainer`: the hashes of one bucket, and whether the file is behind -/
structure Maintainer where
  hashes : List Int
  modified : Bool
deriving DecidableEq, Repr

/-- a set is collected from the restored hashes -/
def Maintainer.new (restoredHashes : List Int) : Maintainer := ⟨restoredHashes.dedup, false⟩

def Maintainer.notifyNewRecord (m : Maintainer) (keyHash : Int) : Maintainer :=
  if keyHash ∈ m.hashes then m else ⟨keyHash :: m.hashes, true⟩

/-- what the source leaves to the hash map and to the random generator -/
structure Oracle where
  order : List Int → List Int
  perm : ∀ l, (order l).Perm l
  draw : Nat

structure PartitionIndex where
  hashToBucket : AList fun _ : Int => Int
  /-- only buckets that may have room -/
  nonFullBuckets : AList fun _ : Int => Int
  allBuckets : List Int
  nextBucketId : Int
  bucketIds : List Int
  targetBucketRowNumber : Int
  bucketMaintainers : AList fun _ : Int => Maintainer

namespace PartitionIndex

def empty (target : Int) : PartitionIndex := ⟨∅, ∅, [], 0, [], target, ∅⟩

/-- `bucket_maintainers.entry(bucket).or_insert_with(empty).notify_new_record(hash)` -/
def notifyMaintainer (idx : PartitionIndex) (bucket hash : Int) : PartitionIndex :=
  { idx with
    bucketMaintainers := idx.bucketMaintainers.insert bucket
      (((idx.bucketMaintainers.lookup bucket).getD (.new [])).notifyNewRecord hash) }

/-- the bucket is made known, with a counter of its own -/
def addBucket (idx : PartitionIndex) (bucket : Int) : PartitionIndex :=
  if bucket ∈ idx.allBuckets then idx
  else { idx with
    allBuckets := bucket :: idx.allBuckets
    bucketIds := idx.bucketIds ++ [bucket]
    nonFullBuckets := idx.nonFullBuckets.insert bucket 0 }

/-- one more hash in the bucket; a counter that reaches the target goes away -/
def bump (idx : PartitionIndex) (bucket : Int) : PartitionIndex :=
  match idx.nonFullBuckets.lookup bucket with
  | none => idx
  | some count =>
    if count + 1 ≥ idx.targetBucketRowNumber then
      { idx with nonFullBuckets := idx.nonFullBuckets.erase bucket }
    else { idx with nonFullBuckets := idx.nonFullBuckets.insert bucket (count + 1) }

def wrongBucket (hash previous bucket : Int) : Error :=
  .dataInvalid ("Precomputed hash " ++ toString hash ++ " belongs to bucket " ++ toString previous
    ++ ", not " ++ toString bucket)

def recordMapping (idx : PartitionIndex) (hash bucket : Int) : Result PartitionIndex :=
  match idx.hashToBucket.lookup hash with
  | some previous =>
    if previous ≠ bucket then .error (wrongBucket hash previous bucket) else .ok idx
  | none =>
    .ok (({ idx with hashToBucket := idx.hashToBucket.insert hash bucket }.addBucket bucket).bump
      bucket)

def merge (idx other : PartitionIndex) : Result PartitionIndex := do
  let idx ← other.hashToBucket.entries.foldlM (fun idx e => idx.recordMapping e.1 e.2) idx
  .ok { idx with
    bucketMaintainers :=
      other.bucketMaintainers.entries.foldl (fun ms e => ms.insert e.1 e.2) idx.bucketMaintainers }

/-- the whole group is checked before anything changes -/
def checkPrecomputed (idx : PartitionIndex) (bucket hash : Int) : Result Unit :=
  match idx.hashToBucket.lookup hash with
  | some previous => if previous ≠ bucket then .error (wrongBucket hash previous bucket) else .ok ()
  | none => .ok ()

def notifyOne (bucket : Int) (idx : PartitionIndex) (hash : Int) : Result PartitionIndex := do
  let idx ← idx.recordMapping hash bucket
  .ok (idx.notifyMaintainer bucket hash)

def notifyPrecomputed (idx : PartitionIndex) (bucket : Int) (hashes : List Int) : Result PartitionIndex := do
  hashes.forM (idx.checkPrecomputed bucket)
  hashes.dedup.foldlM (notifyOne bucket) idx

/-- `hash_to_bucket.insert` during a load -/
def loadHash (bucket : Int) (m : AList fun _ : Int => Int) (hash : Int) : Result (AList fun _ : Int => Int) :=
  match m.lookup hash with
  | some previous =>
    if previous ≠ bucket then
      .error (.dataInvalid ("HASH index assigns hash " ++ toString hash ++ " to both buckets "
        ++ toString previous ++ " and " ++ toString bucket))
    else .ok (m.insert hash bucket)
  | none => .ok (m.insert hash bucket)

/-- the loaded entries give, per bucket, the hashes of its file -/
structure LoadState where
  hashToBucket : AList fun _ : Int => Int
  bucketHashes : AList fun _ : Int => List Int

def loadEntry (st : LoadState) (entry : IndexEntry) : Result LoadState := do
  if ¬ (0 ≤ entry.bucket ∧ entry.bucket < maxDynamicBuckets) then
    .error (.dataInvalid ("Dynamic bucket id must be between 0 and "
      ++ toString (maxDynamicBuckets - 1) ++ ", but was " ++ toString entry.bucket))
  else if (st.bucketHashes.lookup entry.bucket).isSome then
    .error (.dataInvalid ("Multiple HASH indexes for dynamic bucket " ++ toString entry.bucket))
  else if (entry.hashes.length : Int) ≠ entry.rowCount then
    .error (.dataInvalid ("Corrupt HASH index: expected " ++ toString entry.rowCount
      ++ " hashes, got " ++ toString entry.hashes.length))
  else
    let m ← entry.hashes.foldlM (loadHash entry.bucket) st.hashToBucket
    .ok ⟨m, st.bucketHashes.insert entry.bucket entry.hashes⟩

/-- counters of the loaded buckets that are below the target -/
def countersBelow (bucketHashes : AList fun _ : Int => List Int) (target : Int) : AList fun _ : Int => Int :=
  (bucketHashes.entries.filter fun e => decide ((e.2.length : Int) < target)).foldl
    (fun m e => m.insert e.1 (e.2.length : Int)) ∅

def load (entries : List IndexEntry) (target : Int) : Result PartitionIndex := do
  let st ← entries.foldlM loadEntry ⟨∅, ∅⟩
  .ok {
    hashToBucket := st.hashToBucket
    nonFullBuckets := countersBelow st.bucketHashes target
    allBuckets := st.bucketHashes.keys
    nextBucketId := 0
    bucketIds := st.bucketHashes.keys
    targetBucketRowNumber := target
    bucketMaintainers :=
      st.bucketHashes.entries.foldl (fun ms e => ms.insert e.1 (Maintainer.new e.2)) ∅ }

/-- the walk over `non_full_buckets`: the buckets found full on the way, and the first with room -/
def findRoom (counts : AList fun _ : Int => Int) (target : Int) : List Int → List Int × Option Int
  | [] => ([], none)
  | bucket :: buckets =>
    if (counts.lookup bucket).getD 0 < target then ([], some bucket)
    else
      let (full, found) := findRoom counts target buckets
      (bucket :: full, found)

/-- `while next < limit && all.contains(next) { next += 1 }`; the fuel is the distance to the
limit -/
def skipUsed (all : List Int) (limit : Int) : Nat → Int → Int
  | 0, next => next
  | fuel + 1, next =>
    if next < limit ∧ next ∈ all then skipUsed all limit fuel (next + 1) else next

def limitOf (maxBuckets : Int) : Int := if maxBuckets = -1 then maxDynamicBuckets else maxBuckets

/-- the hash is recorded in the map and in the maintainer of its bucket -/
def mapTo (idx : PartitionIndex) (hash bucket : Int) : PartitionIndex :=
  { idx with hashToBucket := idx.hashToBucket.insert hash bucket }.notifyMaintainer bucket hash

/-- a fresh bucket, or with all ids in use one drawn among the known buckets -/
def assignBeyond (idx : PartitionIndex) (o : Oracle) (hash maxBuckets : Int) : PartitionIndex × Result Int :=
  let limit := limitOf maxBuckets
  let next := skipUsed idx.allBuckets limit (limit - idx.nextBucketId).toNat idx.nextBucketId
  if next < limit then
    ({ idx with
        nextBucketId := next + 1
        allBuckets := next :: idx.allBuckets
        bucketIds := idx.bucketIds ++ [next]
        nonFullBuckets := idx.nonFullBuckets.insert next 1 }.mapTo hash next, .ok next)
  else if maxBuckets = -1 then
    ({ idx with nextBucketId := next }, .error (.dataInvalid ("No dynamic bucket id remains below "
      ++ "Java Short.MAX_VALUE. Increase dynamic-bucket.target-row-num.")))
  else match idx.bucketIds[o.draw % idx.bucketIds.length]? with
    | none => ({ idx with nextBucketId := next },
        .error (.dataInvalid "No dynamic bucket is available"))
    | some bucket => ({ idx with nextBucketId := next }.mapTo hash bucket, .ok bucket)

def dropFull (idx : PartitionIndex) (full : List Int) : PartitionIndex :=
  { idx with nonFullBuckets := full.foldl (fun m b => m.erase b) idx.nonFullBuckets }

def assign (idx : PartitionIndex) (o : Oracle) (hash maxBuckets : Int) : PartitionIndex × Result Int :=
  match idx.hashToBucket.lookup hash with
  | some bucket => (idx, .ok bucket)
  | none =>
    let walk := findRoom idx.nonFullBuckets idx.targetBucketRowNumber
      (o.order idx.nonFullBuckets.keys)
    match walk.2 with
    | some bucket =>
      ((({ idx with
          nonFullBuckets := idx.nonFullBuckets.insert bucket
            ((idx.nonFullBuckets.lookup bucket).getD 0 + 1) }).dropFull walk.1).mapTo hash bucket,
        .ok bucket)
    | none => (idx.dropFull walk.1).assignBeyond o hash maxBuckets

/-- `prepare_commit`: one new file per modified maintainer -/
def prepareCommit (idx : PartitionIndex) : List IndexEntry × PartitionIndex :=
  ((idx.bucketMaintainers.entries.filter fun e => e.2.modified).map
      fun e => ⟨e.1, e.2.hashes.length, e.2.hashes⟩,
    { idx with
      bucketMaintainers := idx.bucketMaintainers.entries.foldl
        (fun ms e => ms.insert e.1 { e.2 with modified := false }) ∅ })

end PartitionIndex

open PartitionIndex

/-- `DynamicBucketAssigner`, as far as it concerns one partition -/
structure Assigner where
  partitionIndex : Option PartitionIndex
  precomputedIndex : Option PartitionIndex
  targetBucketRowNumber : Int
  maxBuckets : Int
  /-- the HASH entries of the partition, read once -/
  cachedIndexEntries : Option (List IndexEntry)
  /-- the buckets with data files in the snapshot the index is restored from -/
  dataBuckets : List Int

namespace Assigner

def fresh (target maxBuckets : Int) (dataBuckets : List Int) : Assigner :=
  ⟨none, none, target, maxBuckets, none, dataBuckets⟩

def ensureIndexEntriesLoaded (a : Assigner) (files : List IndexEntry) : Assigner :=
  { a with cachedIndexEntries := some (a.cachedIndexEntries.getD files) }

def entries (a : Assigner) : List IndexEntry := a.cachedIndexEntries.getD []

def loadHashIndexes (a : Assigner) (entries : List IndexEntry) : Result PartitionIndex :=
  if entries ≠ [] then load entries a.targetBucketRowNumber else .ok (empty a.targetBucketRowNumber)

def validateDataBuckets (a : Assigner) (indexes : List IndexEntry) : Result Unit :=
  match a.dataBuckets.find? fun b => decide (b ∉ indexes.map IndexEntry.bucket) with
  | some bucket => .error (.dataInvalid ("Dynamic-bucket partition has data files but no complete "
      ++ "HASH index for bucket " ++ toString bucket
      ++ ". Rewrite the partition before incremental writes."))
  | none => .ok ()

def loadPartitionIndex (a : Assigner) : Result PartitionIndex := do
  a.validateDataBuckets a.entries
  a.loadHashIndexes a.entries

/-- the bucket's own file is restored, an empty maintainer standing for no file -/
def restoreBucket (a : Assigner) (bucket : Int) : Result PartitionIndex := do
  let restored ← a.loadHashIndexes (a.entries.filter fun e => decide (e.bucket = bucket))
  .ok { restored with
    bucketMaintainers := restored.bucketMaintainers.insert bucket
      ((restored.bucketMaintainers.lookup bucket).getD (.new [])) }

/-- the partial index with `bucket` restored -/
def partialWith (a : Assigner) (files : List IndexEntry) (bucket : Int) :
    Result (Assigner × PartitionIndex) :=
  let current := a.precomputedIndex.getD (empty a.targetBucketRowNumber)
  if (current.bucketMaintainers.lookup bucket).isSome then .ok (a, current)
  else do
    let a := a.ensureIndexEntriesLoaded files
    let restored ← a.restoreBucket bucket
    let idx ← current.merge restored
    .ok (a, idx)

def notifyPrecomputedBatch (a : Assigner) (files : List IndexEntry) (bucket : Int)
    (hashes : List Int) : Result Assigner :=
  match a.partitionIndex with
  | some idx => do
    let idx ← idx.notifyPrecomputed bucket hashes
    .ok { a with partitionIndex := some idx }
  | none => do
    let (a, idx) ← a.partialWith files bucket
    let idx ← idx.notifyPrecomputed bucket hashes
    .ok { a with precomputedIndex := some idx }

/-- the first assignment turns a partial index into a full one -/
def ensureFull (a : Assigner) (files : List IndexEntry) : Assigner × Result PartitionIndex :=
  match a.partitionIndex with
  | some idx => (a, .ok idx)
  | none =>
    let a := a.ensureIndexEntriesLoaded files
    match a.loadPartitionIndex with
    | .error e => (a, .error e)
    | .ok index =>
      match a.precomputedIndex with
      | none => ({ a with partitionIndex := some index }, .ok index)
      | some notified =>
        let a := { a with precomputedIndex := none }
        match index.merge notified with
        | .error e => (a, .error e)
        | .ok index => ({ a with partitionIndex := some index }, .ok index)

/-- the row loop of `assign_batch`; an error ends it, the rows before stay assigned -/
def assignRows (maxBuckets : Int) (idx : PartitionIndex) :
    List (Int × Oracle) → PartitionIndex × Result (List Int)
  | [] => (idx, .ok [])
  | (hash, o) :: rows =>
    match idx.assign o hash maxBuckets with
    | (idx, .error e) => (idx, .error e)
    | (idx, .ok bucket) =>
      let (idx, buckets) := assignRows maxBuckets idx rows
      (idx, buckets.map (bucket :: ·))

/-- an empty batch names no partition, so nothing is loaded for it -/
def assignBatch (a : Assigner) (files : List IndexEntry) (rows : List (Int × Oracle)) :
    Assigner × Result (List Int) :=
  if rows = [] then (a, .ok [])
  else match a.ensureFull files with
    | (a, .error e) => (a, .error e)
    | (a, .ok idx) =>
      let (idx, buckets) := assignRows a.maxBuckets idx rows
      ({ a with partitionIndex := some idx }, buckets)

/-- the full index if there is one, else the partial one -/
def prepareCommitIndex (a : Assigner) : List IndexEntry × Assigner :=
  match a.partitionIndex with
  | some idx => (idx.prepareCommit.1, { a with partitionIndex := some idx.prepareCommit.2 })
  | none =>
    match a.precomputedIndex with
    | some idx => (idx.prepareCommit.1, { a with precomputedIndex := some idx.prepareCommit.2 })
    | none => ([], a)

end Assigner

/-- the committed index files of the partition, and the assigner that is alive -/
structure System where
  files : List IndexEntry
  assigner : Assigner

inductive Op where
  | assignBatch (rows : List (Int × Oracle))
  | notifyPrecomputedBatch (bucket : Int) (hashes : List Int)
  | prepareCommitIndex
  /-- the assigner is lost with what it has not committed, a fresh one starts -/
  | restart (dataBuckets : List Int)

/-- a new file replaces the one of its bucket -/
def commitFiles (files new : List IndexEntry) : List IndexEntry :=
  files.filter (fun e => decide (e.bucket ∉ new.map IndexEntry.bucket)) ++ new

/-- `none`: the notification was rejected -/
def step (s : System) : Op → Option System
  | .assignBatch rows => some { s with assigner := (s.assigner.assignBatch s.files rows).1 }
  | .notifyPrecomputedBatch bucket hashes =>
    match s.assigner.notifyPrecomputedBatch s.files bucket hashes with
    | .error _ => none
    | .ok a => some { s with assigner := a }
  | .prepareCommitIndex =>
    some ⟨commitFiles s.files s.assigner.prepareCommitIndex.1, s.assigner.prepareCommitIndex.2⟩
  | .restart dataBuckets =>
    some { s with
      assigner := .fresh s.assigner.targetBucketRowNumber s.assigner.maxBuckets dataBuckets }

def run (s : System) (ops : List Op) : Option System := ops.foldlM step s

end Paimon.Dynamic
