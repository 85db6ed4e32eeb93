import Paimon.Spec.Manifest

/-!
# What a committer reads: the table, partition filters and snapshot contents

`TableCommit` and the parts of the table it looks at (`table/table_commit.rs`,
`table/partition_filter.rs`, `table/snapshot_manifest.rs`).

* `PartitionFilter`: a set of partitions, or a predicate on the partition row. Decoding the row and
  evaluating the predicate is a function of the bytes;
* `filterPartition`: one pass of a filter over manifest entries, failing where a row cannot be evaluated;
* `readSnapshotEntries`, `readDeltaEntries`, `scanChangedPartitionEntries`: the reads of the commit path;
* `Reader`: reads of earlier snapshots by id: each may fail.
-/

namespace Paimon

inductive PartitionFilter where
  | partitionSet (partitions : List Bytes)
  | predicate (evalRow : Bytes → Result Bool)

def PartitionFilter.matchesEntry : PartitionFilter → Bytes → Result Bool
  | .partitionSet partitions, p => .ok (decide (p ∈ partitions))
  | .predicate evalRow, p => evalRow p

def PartitionFilter.accepts (f : PartitionFilter) (p : Bytes) : Bool :=
  match f.matchesEntry p with
  | .ok b => b
  | .error _ => false

def acceptsOpt : Option PartitionFilter → Bytes → Bool
  | none, _ => true
  | some f, p => f.accepts p

structure DataField where
  id : Int
  name : String
deriving DecidableEq, Repr

inductive GlobalIndexColumnUpdateAction where
  | throwError
  | dropPartitionIndex
  | ignore
deriving DecidableEq, Repr

/-- the parts of a table the commit path reads -/
structure Table where
  /-- `!schema.partition_fields().is_empty()` -/
  partitioned : Bool
  /-- decoding of a partition row and its fields in `from_partition_set` -/
  decodePartition : Bytes → Result Unit := fun _ => .ok ()
  schemaId : Int := 0
  fields : List DataField := []
  /-- `schema_manager().schema(id)` -/
  schemas : Int → Result (List DataField) := fun _ => .error (.ioUnexpected "missing schema")
  latestSchemaId : Result Int := .ok 0
  /-- leaf ids of the written paths, when nested-field data evolution is enabled -/
  writeLeafIds : Option (List DataField → Option (List String) → Result (List Int)) := none
  globalIndexColumnUpdateAction : Result GlobalIndexColumnUpdateAction := .ok .throwError
  rowTrackingPartitionGroupOnCommit : Bool := true
  /-- bytes buffered by the manifest writer after the given entries -/
  manifestBytes : List ManifestEntry → Nat := fun _ => 0

structure TableCommit where
  table : Table
  commitUser : String
  ignoreEmptyCommit : Bool := true
  totalBuckets : Int
  commitMaxRetries : Nat
  commitTimeoutMs : Nat := 0
  manifestTargetSize : Int := 8388608
  rowTrackingEnabled : Bool := false
  dataEvolutionEnabled : Bool := false

abbrev Reader := Int → Result Snapshot

/-- the ids `a + 1 ..= b` -/
def idsAfter (a b : Int) : List Int :=
  (List.range (b - a).toNat).map (fun n : Nat => a + 1 + (n : Int))

theorem mem_idsAfter {a b i : Int} : i ∈ idsAfter a b ↔ a < i ∧ i ≤ b := by
  simp only [idsAfter, List.mem_map, List.mem_range]
  constructor
  · rintro ⟨n, hn, rfl⟩
    omega
  · rintro ⟨h1, h2⟩
    exact ⟨(i - a - 1).toNat, by omega, by omega⟩

theorem idsAfter_self (a : Int) : idsAfter a a = [] := by simp [idsAfter]

theorem idsAfter_succ {a b : Int} (h : a ≤ b) : idsAfter a (b + 1) = idsAfter a b ++ [b + 1] := by
  unfold idsAfter
  have e : (b + 1 - a).toNat = (b - a).toNat + 1 := by omega
  rw [e, List.range_succ, List.map_append, List.map_singleton]
  congr 2
  omega

/-! ## filters -/

/-- `PartitionFilter::from_partition_set` fails when a partition row does not decode -/
def fromPartitionSet (t : Table) (partitions : List Bytes) : Result PartitionFilter := do
  partitions.forM t.decodePartition
  return .partitionSet partitions

/-- one pass of a filter; the first partition that cannot be evaluated fails it -/
def filterPartition (f : PartitionFilter) : List ManifestEntry → Result (List ManifestEntry)
  | [] => .ok []
  | e :: es => do
    let keep ← f.matchesEntry e.partition
    let rest ← filterPartition f es
    return if keep then e :: rest else rest

def filterPartitionOpt (f : Option PartitionFilter) (es : List ManifestEntry) : Result (List ManifestEntry) :=
  match f with
  | none => .ok es
  | some f => filterPartition f es

/-- `build_entries_partition_filter`: no filter for an unpartitioned table -/
def buildEntriesPartitionFilter (t : Table) (entries : List ManifestEntry) :
    Result (Option PartitionFilter) := do
  if t.partitioned then
    let f ← fromPartitionSet t (entries.map ManifestEntry.partition)
    return some f
  else
    return none

theorem forM_ok {α : Type} {f : α → Result Unit} {l : List α} (h : l.forM f = .ok ()) :
    ∀ x ∈ l, f x = .ok () := by
  induction l with
  | nil => simp
  | cons a l ih =>
    obtain ⟨_, ha, h⟩ := bind_ok h
    exact List.forall_mem_cons.mpr ⟨ha, ih h⟩

variable {es r : List ManifestEntry}

theorem filterPartition_ok {f : PartitionFilter}
    (h : filterPartition f es = .ok r) : r = es.filter (fun e => f.accepts e.partition) := by
  induction es generalizing r with
  | nil =>
    injection h with h
    rw [← h]
    rfl
  | cons e es ih =>
    obtain ⟨keep, hk, h⟩ := bind_ok h
    obtain ⟨rest, hr, h⟩ := bind_ok h
    have hacc : f.accepts e.partition = keep := by simp [PartitionFilter.accepts, hk]
    injection h with h
    rw [← h, ih hr, List.filter_cons, hacc]

variable {f : Option PartitionFilter}

theorem filterPartitionOpt_ok (h : filterPartitionOpt f es = .ok r) :
    r = es.filter (fun e => acceptsOpt f e.partition) := by
  cases f with
  | none =>
    injection h with h
    rw [← h]
    simp [acceptsOpt]
  | some f => exact filterPartition_ok h

variable {t : Table}

theorem fromPartitionSet_ok {ps : List Bytes} {f : PartitionFilter}
    (h : fromPartitionSet t ps = .ok f) : f = .partitionSet ps := by
  obtain ⟨_, _, h⟩ := bind_ok h
  injection h with h
  exact h.symm

theorem buildEntriesPartitionFilter_ok {es : List ManifestEntry}
    (h : buildEntriesPartitionFilter t es = .ok f) (p : Bytes) :
    acceptsOpt f p = (!t.partitioned || decide (p ∈ es.map ManifestEntry.partition)) := by
  unfold buildEntriesPartitionFilter at h
  by_cases hp : t.partitioned
  · rw [if_pos hp] at h
    obtain ⟨g, hg, h⟩ := bind_ok h
    injection h with h
    rw [← h, fromPartitionSet_ok hg]
    simp [acceptsOpt, PartitionFilter.accepts, PartitionFilter.matchesEntry, hp]
  · rw [if_neg hp] at h
    injection h with h
    rw [← h]
    simp [acceptsOpt, hp]

/-! ## reads -/

/-- `read_snapshot_entries`: active metadata, filtered by partition before netting -/
def readSnapshotEntries (s : Snapshot) (f : Option PartitionFilter) : Result (List ManifestEntry) := do
  let entries ← filterPartitionOpt f s.entries
  return mergeActiveEntries entries

def scanSnapshotEntries (s : Option Snapshot) (f : Option PartitionFilter) : Result (List ManifestEntry) :=
  match s with
  | none => .ok []
  | some s => readSnapshotEntries s f

def scanChangedPartitionEntries (t : Table) (s : Option Snapshot)
    (commitEntries : List ManifestEntry) : Result (List ManifestEntry) := do
  let f ← buildEntriesPartitionFilter t commitEntries
  scanSnapshotEntries s f

def readDeltaEntries (f : Option PartitionFilter) (s : Snapshot) : Result (List ManifestEntry) :=
  filterPartitionOpt f s.deltaEntries

def liveAt (s : Snapshot) (i : Identifier) : Option ManifestEntry :=
  Net.look ManifestEntry.identifier s.active i

theorem mem_active (s : Snapshot) (e : ManifestEntry) : e ∈ s.active ↔ liveAt s e.identifier = some e := by
  unfold liveAt Snapshot.active
  rw [mergeActiveEntries_eq]
  exact Net.mem_net _ _

variable {s : Snapshot}

theorem look_mergeActive_filter (q : Bytes → Bool) (es : List ManifestEntry) (i : Identifier) :
    Net.look ManifestEntry.identifier (mergeActiveEntries (es.filter (fun e => q e.partition))) i
      = if q i.partition then Net.look ManifestEntry.identifier (mergeActiveEntries es) i
        else none := by
  rw [mergeActiveEntries_eq, mergeActiveEntries_eq]
  exact Net.look_run_filter (fun j : Identifier => q j.partition) [] es i

/-- **A filtered read is the filtered live set.** -/
theorem mem_readSnapshotEntries
    {r : List ManifestEntry} (h : readSnapshotEntries s f = .ok r) (e : ManifestEntry) :
    e ∈ r ↔ e ∈ s.active ∧ acceptsOpt f e.partition = true := by
  obtain ⟨es, hes, h⟩ := bind_ok h
  injection h with h
  rw [← h, filterPartitionOpt_ok hes]
  have hl := look_mergeActive_filter (acceptsOpt f) s.entries e.identifier
  have hm : e ∈ mergeActiveEntries (s.entries.filter (fun e => acceptsOpt f e.partition)) ↔
      Net.look ManifestEntry.identifier
        (mergeActiveEntries (s.entries.filter (fun e => acceptsOpt f e.partition)))
        e.identifier = some e := by
    rw [mergeActiveEntries_eq]
    exact Net.mem_net _ _
  rw [hm, hl, mem_active]
  show (if acceptsOpt f e.partition then liveAt s e.identifier else none) = some e ↔ _
  by_cases hp : acceptsOpt f e.partition <;> simp [hp]

end Paimon
