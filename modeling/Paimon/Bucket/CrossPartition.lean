import Paimon.Lib.Census
import Paimon.SortMerge.MergeFunction

/-!
# Routing upserts whose partition may change

`table/bucket_assigner_cross.rs` and the regrouping of `table/table_write.rs`, for tables whose
primary key does not hold the partition: a key may come back in another partition.

* `GlobalPartitionIndex.assign`: where a row of a key goes, and what has to be undone;
* `CrossPartitionAssigner.assignBatch`: the same for the rows of a batch;
* `divideCrossPartitionBatch`: one group of events per bucket, a DELETE for the old place of a key just
  before the row that moves it;
* `writeBatch`, `writeBatches`: the groups reach the writers of their buckets.

A `HashMap` and a `BTreeMap` are the entries they hold (`AList`); where the source walks a
`BTreeMap` in key order the model takes the least key.
-/

namespace Paimon

inductive MergeEngine where
  | deduplicate
  | partialUpdate
  | aggregation
  | firstRow
deriving DecidableEq, Repr

namespace CrossPartition

open SortMerge (RowKind)

abbrev PartitionBucketKey := Bytes × Int

def i32Max : Int := 2147483647

inductive AssignResult where
  /-- the key is new, or stays in its partition -/
  | samePartition (bucket : Int)
  /-- the key keeps its old place and the row takes the partition of that place -/
  | useOldPartition (partition : Bytes) (bucket : Int)
  /-- the key moves: a DELETE is due at the old place -/
  | crossPartition (oldPartition : Bytes) (oldBucket : Int) (newBucket : Int)
  /-- the row is dropped -/
  | skip
deriving DecidableEq, Repr

structure GlobalPartitionIndex where
  keyToLocation : AList fun _ : Bytes => PartitionBucketKey
  /-- absent is empty: every access of the source is `entry(..).or_default()` -/
  partitionBucketCounts : Bytes → AList fun _ : Int => Int
  targetBucketRowNumber : Int
  mergeEngine : MergeEngine

namespace GlobalPartitionIndex

def empty (target : Int) (engine : MergeEngine) : GlobalPartitionIndex :=
  ⟨∅, fun _ => ∅, target, engine⟩

/-- the counter of a bucket, absent counting as zero -/
def countOf (idx : GlobalPartitionIndex) (q : PartitionBucketKey) : Int :=
  ((idx.partitionBucketCounts q.1).lookup q.2).getD 0

def setCount (idx : GlobalPartitionIndex) (q : PartitionBucketKey) (n : Int) :
    GlobalPartitionIndex :=
  { idx with partitionBucketCounts :=
      Function.update idx.partitionBucketCounts q.1 ((idx.partitionBucketCounts q.1).insert q.2 n) }

def setLocation (idx : GlobalPartitionIndex) (key : Bytes) (q : PartitionBucketKey) :
    GlobalPartitionIndex :=
  { idx with keyToLocation := idx.keyToLocation.insert key q }

/-- the first bucket, in ascending order, whose counter is below the target -/
def firstNonFull (buckets : AList fun _ : Int => Int) (target : Int) : Option Int :=
  ((buckets.entries.filter fun e => decide (e.2 < target)).map Sigma.fst).min?

/-- the least non-negative id that is no key; among `n + 1` ids one is unused -/
def nextUnused (buckets : AList fun _ : Int => Int) : Int :=
  match (List.range (buckets.entries.length + 1)).find?
      fun n : Nat => decide ((n : Int) ∉ buckets.keys) with
  | some n => n
  | none => 0

def assignBucketInPartition (idx : GlobalPartitionIndex) (partition : Bytes) :
    Result (Int × GlobalPartitionIndex) :=
  let buckets := idx.partitionBucketCounts partition
  match firstNonFull buckets idx.targetBucketRowNumber with
  | some bucket => .ok (bucket, idx.setCount (partition, bucket) (idx.countOf (partition, bucket) + 1))
  | none =>
    let next := nextUnused buckets
    if next > i32Max then
      .error (.dataInvalid "No bucket IDs available for cross-partition writes")
    else .ok (next, idx.setCount (partition, next) 1)

/-- the key gets a bucket of `partition` and is recorded there -/
def place (idx : GlobalPartitionIndex) (pkBytes partition : Bytes) : Result (Int × GlobalPartitionIndex) := do
  let (bucket, idx) ← idx.assignBucketInPartition partition
  .ok (bucket, idx.setLocation pkBytes (partition, bucket))

def assign (idx : GlobalPartitionIndex) (pkBytes newPartition : Bytes) :
    Result (AssignResult × GlobalPartitionIndex) :=
  match idx.keyToLocation.lookup pkBytes with
  | some (existingPartition, existingBucket) =>
    if existingPartition = newPartition then .ok (.samePartition existingBucket, idx)
    else match idx.mergeEngine with
      | .firstRow => .ok (.skip, idx)
      | .deduplicate => do
        let old := (existingPartition, existingBucket)
        let (newBucket, idx) ← (idx.setCount old (idx.countOf old - 1)).place pkBytes newPartition
        .ok (.crossPartition existingPartition existingBucket newBucket, idx)
      | .partialUpdate => .ok (.useOldPartition existingPartition existingBucket, idx)
      | .aggregation => .ok (.useOldPartition existingPartition existingBucket, idx)
  | none => do
    let (bucket, idx) ← idx.place pkBytes newPartition
    .ok (.samePartition bucket, idx)

/-- one primary key read by the bootstrap scan in the split of a bucket -/
def loadKey (idx : GlobalPartitionIndex) (q : PartitionBucketKey) (key : Bytes) :
    Result GlobalPartitionIndex :=
  if (idx.keyToLocation.lookup key).isSome then
    .error (.dataInvalid
      "Duplicate primary key found while bootstrapping the cross-partition index")
  else .ok ((idx.setLocation key q).setCount q (idx.countOf q + 1))

/-- `scan` lists, split by split, the bucket of the split and the primary keys `TableRead`
delivers for it -/
def loadFromDataScan (scan : List (PartitionBucketKey × List Bytes)) (target : Int)
    (engine : MergeEngine) : Result GlobalPartitionIndex :=
  scan.foldlM (fun idx split => split.2.foldlM (fun idx key => idx.loadKey split.1 key) idx)
    (empty target engine)

end GlobalPartitionIndex

open GlobalPartitionIndex

/-- a row of an input batch; `valueKind` is absent where the batch has no kind column or a NULL in
it, and `columns` are the columns outside the partition -/
structure UpsertRow (ο : Type) where
  key : Bytes
  partition : Bytes
  valueKind : Option RowKind
  columns : ο
deriving DecidableEq, Repr

structure BatchAssignOutput where
  partitionBytes : List Bytes
  buckets : List Int
  deletes : List (Nat × Bytes × Int)
  skips : List Nat
deriving DecidableEq, Repr

variable {ο : Type}

/-- what one row adds to the output of the rows after it -/
def BatchAssignOutput.push (rowIdx : Nat) (row : UpsertRow ο) (out : BatchAssignOutput) :
    AssignResult → BatchAssignOutput
  | .samePartition bucket =>
    { out with
      partitionBytes := row.partition :: out.partitionBytes
      buckets := bucket :: out.buckets }
  | .useOldPartition partition bucket =>
    { out with
      partitionBytes := partition :: out.partitionBytes
      buckets := bucket :: out.buckets }
  | .crossPartition oldPartition oldBucket newBucket =>
    { out with
      partitionBytes := row.partition :: out.partitionBytes
      buckets := newBucket :: out.buckets
      deletes := (rowIdx, oldPartition, oldBucket) :: out.deletes }
  | .skip =>
    { out with
      partitionBytes := row.partition :: out.partitionBytes
      buckets := -1 :: out.buckets
      skips := rowIdx :: out.skips }

/-- the row loop of `assign_batch`, from row `rowIdx` on -/
def assignRows (idx : GlobalPartitionIndex) (rowIdx : Nat) :
    List (UpsertRow ο) → Result (BatchAssignOutput × GlobalPartitionIndex)
  | [] => .ok (⟨[], [], [], []⟩, idx)
  | row :: rows => do
    let (result, idx) ← idx.assign row.key row.partition
    let (out, idx) ← assignRows idx (rowIdx + 1) rows
    .ok (out.push rowIdx row result, idx)

structure CrossPartitionAssigner where
  globalPartitionIndex : Option GlobalPartitionIndex
  targetBucketRowNumber : Int
  mergeEngine : MergeEngine

/-- the index is loaded from the table at the first batch -/
def CrossPartitionAssigner.index (assigner : CrossPartitionAssigner)
    (scan : List (PartitionBucketKey × List Bytes)) : Result GlobalPartitionIndex :=
  match assigner.globalPartitionIndex with
  | some idx => .ok idx
  | none => loadFromDataScan scan assigner.targetBucketRowNumber assigner.mergeEngine

def CrossPartitionAssigner.assignBatch (assigner : CrossPartitionAssigner)
    (scan : List (PartitionBucketKey × List Bytes)) (batch : List (UpsertRow ο)) :
    Result (BatchAssignOutput × CrossPartitionAssigner) := do
  let idx ← assigner.index scan
  let (out, idx) ← assignRows idx 0 batch
  .ok (out, { assigner with globalPartitionIndex := some idx })

/-- a row as its bucket's writer gets it: kind column rewritten, partition columns set to the
partition of the bucket -/
structure Event (ο : Type) where
  key : Bytes
  partition : Bytes
  kind : RowKind
  columns : ο
deriving DecidableEq, Repr

/-- `with_partition_values` and `add_per_row_value_kind_column` on one row -/
def UpsertRow.event (row : UpsertRow ο) (q : PartitionBucketKey) (kind : RowKind) : Event ο :=
  ⟨row.key, q.1, kind, row.columns⟩

abbrev Groups (ο : Type) := AList fun _ : PartitionBucketKey => List (Event ο)

def Groups.at (groups : Groups ο) (q : PartitionBucketKey) : List (Event ο) :=
  (groups.lookup q).getD []

def Groups.push (groups : Groups ο) (q : PartitionBucketKey) (event : Event ο) : Groups ο :=
  groups.insert q (groups.at q ++ [event])

/-- the DELETE due before row `rowIdx`, if the next pending one is for it -/
def takeDelete (rowIdx : Nat) (row : UpsertRow ο) (groups : Groups ο) :
    List (Nat × Bytes × Int) → Groups ο × List (Nat × Bytes × Int)
  | [] => (groups, [])
  | d :: deletes =>
    if d.1 = rowIdx then (groups.push d.2 (row.event d.2 .delete), deletes)
    else (groups, d :: deletes)

/-- the row loop of `divide_cross_partition_batch`, from row `rowIdx` on; `skips` is the set of all
skipped rows, the other lists are what is left of the output -/
def divideRows (skips : List Nat) (rowIdx : Nat) (groups : Groups ο) :
    List (UpsertRow ο) → List Bytes → List Int → List (Nat × Bytes × Int) → Groups ο
  | row :: rows, partition :: partitions, bucket :: buckets, deletes =>
    if rowIdx ∈ skips then divideRows skips (rowIdx + 1) groups rows partitions buckets deletes
    else
      let taken := takeDelete rowIdx row groups deletes
      let q := (partition, bucket)
      divideRows skips (rowIdx + 1)
        (taken.1.push q (row.event q (row.valueKind.getD .insert))) rows partitions buckets taken.2
  | _, _, _, _ => groups

def divideCrossPartitionBatch (batch : List (UpsertRow ο)) (out : BatchAssignOutput) : Groups ο :=
  divideRows out.skips 0 ∅ batch out.partitionBytes out.buckets out.deletes

/-- the events each bucket's writer has received, the initial table's first -/
abbrev Logs (ο : Type) := PartitionBucketKey → List (Event ο)

structure WriteState (ο : Type) where
  assigner : CrossPartitionAssigner
  logs : Logs ο

/-- a batch is assigned, divided, and every group appended to its bucket -/
def writeBatch (scan : List (PartitionBucketKey × List Bytes)) (st : WriteState ο)
    (batch : List (UpsertRow ο)) : Result (WriteState ο) := do
  let (out, assigner) ← st.assigner.assignBatch scan batch
  .ok ⟨assigner, fun q => st.logs q ++ (divideCrossPartitionBatch batch out).at q⟩

def writeBatches (scan : List (PartitionBucketKey × List Bytes)) (st : WriteState ο)
    (batches : List (List (UpsertRow ο))) : Result (WriteState ο) :=
  batches.foldlM (writeBatch scan) st

end CrossPartition

end Paimon
