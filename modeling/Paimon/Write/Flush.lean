import Paimon.Lib.KeyGroups
import Paimon.SortMerge.PartialUpdate

/-!
# Flushing the write buffer

`KeyValueFileWriter::flush` of `table/kv_file_writer.rs` for one bucket.  The buffered rows are
numbered in arrival order, sorted by key, user sequence and number, and each run of one key is merged
to at most one row before any file is written.

* `number`: the arrival sequence numbers;
* `sortRows`: the sort columns of the flush;
* `mergeGroup`  `dedup_sorted_indices` and `merge_partial_update_rows` for the rows of one key;
* `flush`: one flush, its rows rolled into files;
* `writeAll`: a writer's life: the rows it was given, cut into flushes;
* `mergeKey`: the read-side merge function on the rows of one key.

The aggregation engine is left out, and so are the changelog files, which no merge reads.
-/

set_option linter.unusedSectionVars false

namespace Paimon.Write

open SortMerge Compare List

variable {κ ν : Type} {n : Nat} [LinearOrder κ] [LinearOrder ν]

/-- a row handed to the writer; `valueKind` is read only where the batch has the column -/
structure WriteRow (κ : Type) (n : Nat) (ν : Type) where
  key : κ
  valueKind : Option Int
  columns : Columns n ν

/-- a row with the system columns written for it -/
structure KeyValueRow (κ : Type) (n : Nat) (ν : Type) where
  key : κ
  sequenceNumber : Int
  valueKind : Int
  columns : Columns n ν

inductive Engine (n : Nat) where
  | deduplicate
  | firstRow
  | partialUpdate (f : PartialUpdateMergeFunction n)

structure WriterConfig (n : Nat) where
  engine : Engine n
  ignoreDelete : Bool
  sequenceFieldIndices : List (Fin n)
  sequenceDescending : Bool
  hasValueKind : Bool
  targetFileRowNum : Nat
  target_pos : 0 < targetFileRowNum

/-- the user sequence as one value: the first part orders ascending, the second descending, and NULL
is least in both -/
abbrev SequenceKey (ν : Type) := LexList (WithBot ν) ×ₗ LexList (WithBot νᵒᵈ)

def descendingColumn (v : Option ν) : WithBot νᵒᵈ := v.map OrderDual.toDual

def userSequence (cfg : WriterConfig n) (columns : Columns n ν) : Option (SequenceKey ν) :=
  if cfg.sequenceFieldIndices = [] then none
  else if cfg.sequenceDescending then
    some (toLex (toLexList [], toLexList (cfg.sequenceFieldIndices.map fun i =>
      descendingColumn (columns i))))
  else some (toLex (PartialUpdate.sequenceOf columns cfg.sequenceFieldIndices, toLexList []))

def kindOf (cfg : WriterConfig n) (r : WriteRow κ n ν) : Int :=
  if cfg.hasValueKind then r.valueKind.getD 0 else 0

/-- sequence numbers in arrival order, from `start` -/
def number (cfg : WriterConfig n) : Int → List (WriteRow κ n ν) → List (KeyValueRow κ n ν)
  | _, [] => []
  | start, r :: rows => ⟨r.key, start, kindOf cfg r, r.columns⟩ :: number cfg (start + 1) rows

def version (cfg : WriterConfig n) (r : KeyValueRow κ n ν) : Version (SequenceKey ν) :=
  ⟨userSequence cfg r.columns, r.sequenceNumber, r.valueKind⟩

/-- the sort columns: key, user sequence, sequence number -/
def sortKey (cfg : WriterConfig n) (r : KeyValueRow κ n ν) : κ ×ₗ WithBot (SequenceKey ν) ×ₗ Int :=
  toLex (r.key, toLex (userSequence cfg r.columns, r.sequenceNumber))

def sortRows (cfg : WriterConfig n) (rows : List (KeyValueRow κ n ν)) : List (KeyValueRow κ n ν) :=
  rows.insertionSort fun a b => sortKey cfg a ≤ sortKey cfg b

/-- a merged row takes the number of the last row of its group -/
def mergedRow (cfg : WriterConfig n) (last : KeyValueRow κ n ν) (kind : Int) (columns : Columns n ν) :
    KeyValueRow κ n ν :=
  ⟨last.key, last.sequenceNumber, if cfg.hasValueKind then kind else 0, columns⟩

/-- `merge_partial_update_rows` for the rows of one key with their sorted ranks, which stand in for
the sequence numbers -/
def mergePartialUpdate (cfg : WriterConfig n) (f : PartialUpdateMergeFunction n)
    (g : List (KeyValueRow κ n ν × Nat)) : Result (Option (KeyValueRow κ n ν)) :=
  match g.getLast? with
  | none => .ok none
  | some (last, _) =>
    if g.length = 1 then .ok (some last)
    else
      match PartialUpdate.merge f
        (fun x : KeyValueRow κ n ν × Nat =>
          (⟨none, (x.2 : Int), x.1.valueKind⟩ : Version (SequenceKey ν)))
        (fun x => x.1.columns) g with
      | .error e => .error e
      | .ok (.materializedRow columns) => .ok (some (mergedRow cfg last 0 columns))
      | .ok (.materializedDeleteRow columns) => .ok (some (mergedRow cfg last 3 columns))
      | .ok .omitKey => .ok none
      | .ok (.sourceRow _) =>
        .error (.unexpectedError "Partial-update merge returned an unmaterialized row")

def mergeGroup (cfg : WriterConfig n) (g : List (KeyValueRow κ n ν × Nat)) :
    Result (Option (KeyValueRow κ n ν)) :=
  match cfg.engine with
  | .deduplicate => .ok (g.getLast?.map Prod.fst)
  | .firstRow =>
    if g.length = 1 ∨ cfg.hasValueKind = false then .ok (g.head?.map Prod.fst)
    else (firstRow (fun x : KeyValueRow κ n ν × Nat =>
        (⟨none, 0, x.1.valueKind⟩ : Version (SequenceKey ν))) cfg.ignoreDelete g).map
      (Option.map Prod.fst)
  | .partialUpdate f => mergePartialUpdate cfg f g

def flushRows (cfg : WriterConfig n) (rows : List (KeyValueRow κ n ν)) :
    Result (List (KeyValueRow κ n ν)) := do
  let merged ← (KeyGroups.runs (fun x : KeyValueRow κ n ν × Nat => x.1.key)
    (sortRows cfg rows).zipIdx).mapM (mergeGroup cfg)
  .ok (merged.filterMap id)

def rollFiles {ρ : Type} (target : Nat) (rows : List ρ) : List (List ρ) :=
  (List.range ((rows.length + target - 1) / target)).map fun i => (rows.drop (i * target)).take target

structure Writer (κ : Type) (n : Nat) (ν : Type) where
  nextSequenceNumber : Int
  writtenFiles : List (List (KeyValueRow κ n ν))

def flush (cfg : WriterConfig n) (w : Writer κ n ν) (buffer : List (WriteRow κ n ν)) :
    Result (Writer κ n ν) :=
  if buffer.isEmpty then .ok w
  else do
    let rows ← flushRows cfg (number cfg w.nextSequenceNumber buffer)
    .ok ⟨w.nextSequenceNumber + buffer.length,
      w.writtenFiles ++ rollFiles cfg.targetFileRowNum rows⟩

/-- the rows of a writer, cut into flushes -/
def writeAll (cfg : WriterConfig n) (w : Writer κ n ν) (flushes : List (List (WriteRow κ n ν))) :
    Result (Writer κ n ν) :=
  flushes.foldlM (flush cfg) w

/-- the visible row of one key, its rows in any order -/
def mergeKey (cfg : WriterConfig n) (rows : List (KeyValueRow κ n ν)) : Result (Option (Columns n ν)) :=
  if rows.isEmpty then .ok none
  else
    match cfg.engine with
    | .deduplicate => (deduplicate (version cfg) rows).map (Option.map KeyValueRow.columns)
    | .firstRow => (firstRow (version cfg) cfg.ignoreDelete rows).map (Option.map KeyValueRow.columns)
    | .partialUpdate f =>
      (PartialUpdate.merge f (version cfg) KeyValueRow.columns rows).map PartialUpdate.Merged.visible

/-! ## Numbering -/

@[simp] theorem number_nil (cfg : WriterConfig n) (start : Int) :
    number cfg start ([] : List (WriteRow κ n ν)) = [] := rfl

theorem number_append (cfg : WriterConfig n) (start : Int) (a b : List (WriteRow κ n ν)) :
    number cfg start (a ++ b) = number cfg start a ++ number cfg (start + a.length) b := by
  induction a generalizing start with
  | nil => simp
  | cons r a ih =>
    rw [cons_append, number, ih, number, cons_append, length_cons]
    congr 3
    push_cast
    ring

variable {cfg : WriterConfig n} {rows : List (WriteRow κ n ν)} {x : KeyValueRow κ n ν} {start : Int}

theorem number_bounds
    (hx : x ∈ number cfg start rows) :
    start ≤ x.sequenceNumber ∧ x.sequenceNumber < start + rows.length := by
  induction rows generalizing start with
  | nil => exact absurd hx not_mem_nil
  | cons r rows ih =>
    rw [number] at hx
    rw [length_cons]
    rcases mem_cons.mp hx with rfl | hx
    · dsimp only
      omega
    · have := ih hx
      omega

theorem number_ascending (cfg : WriterConfig n) (start : Int) (rows : List (WriteRow κ n ν)) :
    (number cfg start rows).Pairwise fun a b => a.sequenceNumber < b.sequenceNumber := by
  induction rows generalizing start with
  | nil => exact List.Pairwise.nil
  | cons r rows ih =>
    rw [number]
    refine pairwise_cons.mpr ⟨fun x hx => ?_, ih (start + 1)⟩
    have := (number_bounds hx).1
    dsimp only
    omega

theorem number_origin
    (hx : x ∈ number cfg start rows) :
    ∃ r ∈ rows, x.key = r.key ∧ x.valueKind = kindOf cfg r ∧ x.columns = r.columns := by
  induction rows generalizing start with
  | nil => exact absurd hx not_mem_nil
  | cons r rows ih =>
    rw [number] at hx
    rcases mem_cons.mp hx with rfl | hx
    · exact ⟨r, mem_cons_self, rfl, rfl, rfl⟩
    · obtain ⟨r', hr', h⟩ := ih hx
      exact ⟨r', mem_cons_of_mem r hr', h⟩

/-! ## Sorting -/

theorem sortRows_perm (cfg : WriterConfig n) (rows : List (KeyValueRow κ n ν)) :
    (sortRows cfg rows).Perm rows := perm_insertionSort _ rows

theorem sortRows_sorted (cfg : WriterConfig n) (rows : List (KeyValueRow κ n ν)) :
    (sortRows cfg rows).Pairwise fun a b => sortKey cfg a ≤ sortKey cfg b := by
  have : Std.Total fun a b : KeyValueRow κ n ν => sortKey cfg a ≤ sortKey cfg b :=
    ⟨fun a b => le_total (sortKey cfg a) (sortKey cfg b)⟩
  have : IsTrans (KeyValueRow κ n ν) fun a b => sortKey cfg a ≤ sortKey cfg b :=
    ⟨fun _ _ _ hab hbc => hab.trans hbc⟩
  exact pairwise_insertionSort _ rows

theorem sortRows_keys (cfg : WriterConfig n) (rows : List (KeyValueRow κ n ν)) :
    ((sortRows cfg rows).map KeyValueRow.key).Pairwise (· ≤ ·) := by
  rw [pairwise_map]
  refine (sortRows_sorted cfg rows).imp fun {a b} h => ?_
  rcases Prod.Lex.le_iff.mp h with hlt | ⟨heq, -⟩
  · exact le_of_lt hlt
  · exact le_of_eq heq

variable {a b : KeyValueRow κ n ν}

theorem version_lt (h : sortKey cfg a ≤ sortKey cfg b) (hkey : a.key = b.key)
    (hne : a.sequenceNumber ≠ b.sequenceNumber) : (version cfg a).key < (version cfg b).key := by
  rcases Prod.Lex.le_iff.mp h with hlt | ⟨-, h⟩
  · exact absurd hkey (ne_of_lt hlt)
  · rcases Prod.Lex.le_iff.mp h with hlt | ⟨heq, hle⟩
    · exact Prod.Lex.lt_iff.mpr (.inl hlt)
    · exact Prod.Lex.lt_iff.mpr (.inr ⟨heq, Prod.Lex.lt_iff.mpr (.inl (lt_of_le_of_ne hle hne))⟩)

theorem sortRows_group {rows : List (KeyValueRow κ n ν)}
    (hne : rows.Pairwise fun a b => a.sequenceNumber ≠ b.sequenceNumber) (k : κ) :
    (KeyGroups.group KeyValueRow.key (sortRows cfg rows) k).Pairwise
      fun a b => (version cfg a).key < (version cfg b).key := by
  have hne' : (sortRows cfg rows).Pairwise fun a b => a.sequenceNumber ≠ b.sequenceNumber :=
    (sortRows_perm cfg rows).symm.pairwise hne fun h => h.symm
  have hboth := ((sortRows_sorted cfg rows).and hne').filter (fun r => decide (r.key = k))
  refine hboth.imp_of_mem fun {a b} ha hb h => ?_
  have hka := (KeyGroups.mem_group.mp ha).2
  have hkb := (KeyGroups.mem_group.mp hb).2
  exact version_lt h.1 (hka.trans hkb.symm) h.2

theorem version_lt_of_number (hseq : cfg.sequenceFieldIndices = [])
    (h : a.sequenceNumber < b.sequenceNumber) :
    (version cfg a).key < (version cfg b).key := by
  have hnone : ∀ c : Columns n ν, userSequence cfg c = none := fun c => if_pos hseq
  refine Prod.Lex.lt_iff.mpr (.inr ⟨?_, Prod.Lex.lt_iff.mpr (.inl h)⟩)
  exact (hnone a.columns).trans (hnone b.columns).symm

/-! ## Rolled files -/

theorem rollFiles_flatten {ρ : Type} {target : Nat} (ht : 0 < target) (rows : List ρ) :
    (rollFiles target rows).flatten = rows := by
  have htake : ∀ m : Nat, ((List.range m).map fun i =>
      (rows.drop (i * target)).take target).flatten = rows.take (m * target) := by
    intro m
    induction m with
    | zero => simp
    | succ m ih =>
      rw [range_succ, map_append, flatten_append, ih, Nat.succ_mul, take_add]
      simp
  unfold rollFiles
  rw [htake]
  refine take_of_length_le ?_
  have h := Nat.div_add_mod (rows.length + target - 1) target
  have hmod := Nat.mod_lt (rows.length + target - 1) ht
  rw [Nat.mul_comm] at h
  omega

end Paimon.Write
