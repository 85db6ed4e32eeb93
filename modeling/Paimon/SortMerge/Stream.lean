import Paimon.SortMerge.LoserTree
import Paimon.Spec.Manifest

/-!
# The sort-merge stream

`sort_merge_stream` of `table/sort_merge.rs`, over rows of any key type with a linear order (the
row-encoded key), any user sequence and any output row.

* `Cursor`: a position in the current batch of one stream; a finished batch has no cursor;
* `BufferedBatch`: the batches that output indices refer to;
* `MergeFunction`: what is called with the rows of one key;
* `State.advance`: take one row of the winning stream, pull the next non-empty batch if needed;
* `collect`: the inner loop: all rows of the winner's key;
* `iterate`: one round of the outer loop: collect, merge, record, flush when full;
* `sortMergeStream`: the batches yielded and the error that ended the stream, if any.

Both loops carry a fuel argument; the number of rows left bounds them.
-/

set_option linter.unusedSectionVars false

namespace Paimon.SortMerge

variable {κ σ τ ο : Type} [LinearOrder κ] [DecidableEq τ]

/-! ## rows, batches and merge results -/

/-- one row of an input stream: the encoded key, the two system columns, the encoded user sequence
(if `sequence.field` is set) and the columns of the merge output -/
structure InputRow (κ σ ο : Type) where
  key : κ
  sequenceNumber : Int
  valueKind : Option Int
  userSequence : Option σ
  output : ο
deriving DecidableEq, Repr

/-- a reference to a row of the batch buffer with the row's system columns -/
structure MergeRow (σ : Type) where
  batchIdx : Nat
  rowIdx : Nat
  sequenceNumber : Int
  valueKind : Int
  userSequence : Option σ

/-- a batch made by a merge function -/
structure OutputBatch (τ ο : Type) where
  schema : τ
  rows : List ο

inductive BufferedBatch (κ σ ο : Type) where
  | source (batch : List (InputRow κ σ ο))
  | materialized (batch : List ο)

/-- the output columns of one row of a buffered batch -/
def BufferedBatch.rowForOutput : BufferedBatch κ σ ο → Nat → Option ο
  | .source batch, rowIdx => (batch[rowIdx]?).map InputRow.output
  | .materialized batch, rowIdx => batch[rowIdx]?

def sourceRowAt (buffer : List (BufferedBatch κ σ ο)) (batchIdx rowIdx : Nat) : Option (InputRow κ σ ο) :=
  match buffer[batchIdx]? with
  | some (.source batch) => batch[rowIdx]?
  | _ => none

def outputRowAt (buffer : List (BufferedBatch κ σ ο)) (p : Nat × Nat) : Option ο :=
  (buffer[p.1]?).bind fun b => b.rowForOutput p.2

inductive MergeResult (τ ο : Type) where
  | sourceRow (batchIdx rowIdx : Nat)
  | materializedRow (batch : OutputBatch τ ο)
  | materializedDeleteRow (batch : OutputBatch τ ο)
  | omitKey

/-- the same result with the row it selects in place of the row's buffer position -/
inductive KeyResult (κ σ τ ο : Type) where
  | sourceRow (row : InputRow κ σ ο)
  | materializedRow (batch : OutputBatch τ ο)
  | materializedDeleteRow (batch : OutputBatch τ ο)
  | omitKey

/-- the merge row `m` refers to the row `r` of the buffer -/
def MergeRow.Denotes (buffer : List (BufferedBatch κ σ ο)) (m : MergeRow σ) (r : InputRow κ σ ο) : Prop :=
  sourceRowAt buffer m.batchIdx m.rowIdx = some r ∧ m.sequenceNumber = r.sequenceNumber ∧
    m.valueKind = r.valueKind.getD 0 ∧ m.userSequence = r.userSequence

/-- a result with buffer positions says the same as a result with rows -/
def Agrees (buffer : List (BufferedBatch κ σ ο)) :
    Result (MergeResult τ ο) → Result (KeyResult κ σ τ ο) → Prop
  | .ok (.sourceRow b r), .ok (.sourceRow row) => sourceRowAt buffer b r = some row
  | .ok (.materializedRow m), .ok (.materializedRow m') => m = m'
  | .ok (.materializedDeleteRow m), .ok (.materializedDeleteRow m') => m = m'
  | .ok .omitKey, .ok .omitKey => True
  | .error e, .error e' => e = e'
  | _, _ => False

/-- a merge function: the code's `merge`, which sees the rows of one key as buffer positions, and
the function of the rows themselves that it computes -/
structure MergeFunction (κ σ τ ο : Type) where
  merge : List (MergeRow σ) → List (BufferedBatch κ σ ο) → Result (MergeResult τ ο)
  value : List (InputRow κ σ ο) → Result (KeyResult κ σ τ ο)
  reads : ∀ rows buffer contents, List.Forall₂ (MergeRow.Denotes buffer) rows contents →
    Agrees buffer (merge rows buffer) (value contents)

/-! ## cursors -/

structure Cursor (κ σ ο : Type) where
  batch : List (InputRow κ σ ο)
  offset : Nat
  inBatch : offset < batch.length

namespace Cursor

def currentRow (c : Cursor κ σ ο) : InputRow κ σ ο := c.batch.get ⟨c.offset, c.inBatch⟩

/-- `advance` followed by the `is_finished` test: no cursor is left at the end of the batch -/
def advance (c : Cursor κ σ ο) : Option (Cursor κ σ ο) :=
  if h : c.offset + 1 < c.batch.length then some { c with offset := c.offset + 1, inBatch := h }
  else none

/-- the `MergeRow` recorded for the current row -/
def mergeRow (c : Cursor κ σ ο) (batchIdx : Nat) : MergeRow σ :=
  { batchIdx := batchIdx
    rowIdx := c.offset
    sequenceNumber := c.currentRow.sequenceNumber
    valueKind := c.currentRow.valueKind.getD 0
    userSequence := c.currentRow.userSequence }

end Cursor

/-- the loop that reads on to the next non-empty batch -/
def nextCursor : List (Result (List (InputRow κ σ ο))) →
    Result (Option (Cursor κ σ ο) × List (Result (List (InputRow κ σ ο))))
  | [] => .ok (none, [])
  | .error e :: _ => .error e
  | .ok [] :: rest => nextCursor rest
  | .ok (r :: rs) :: rest => .ok (some ⟨r :: rs, 0, Nat.succ_pos _⟩, rest)

/-- the rows of the current batch from the cursor on -/
def cursorRows : Option (Cursor κ σ ο) → List (InputRow κ σ ο)
  | none => []
  | some c => c.batch.drop c.offset

def deliveredRows (stream : List (Result (List (InputRow κ σ ο)))) : List (InputRow κ σ ο) :=
  stream.flatMap fun
    | .ok batch => batch
    | .error _ => []

/-- by current key; an exhausted stream is greater than any other -/
def compareCursors (cursors : Nat → Option (Cursor κ σ ο)) (a b : Nat) : Ordering :=
  match cursors a, cursors b with
  | none, none => .eq
  | none, some _ => .gt
  | some _, none => .lt
  | some ca, some cb => compare ca.currentRow.key cb.currentRow.key

/-- the order of the loser tree: ties are broken by the stream index -/
def cursorGt (cursors : Nat → Option (Cursor κ σ ο)) (a b : Nat) : Bool :=
  ((compareCursors cursors a b).then (compare a b)).isGT

/-! ## the batch buffer -/

/-- the loop of `compact_batch_buffer` over the old buffer, with the index map and the new buffer
built so far -/
def compactFrom (alive : Nat → Bool) :
    List (BufferedBatch κ σ ο) → Nat → (Nat → Option Nat) → List (BufferedBatch κ σ ο) →
      (Nat → Option Nat) × List (BufferedBatch κ σ ο)
  | [], _, newIndices, newBuffer => (newIndices, newBuffer)
  | b :: rest, oldIdx, newIndices, newBuffer =>
    if alive oldIdx then
      compactFrom alive rest (oldIdx + 1)
        (Function.update newIndices oldIdx (some newBuffer.length)) (newBuffer ++ [b])
    else compactFrom alive rest (oldIdx + 1) newIndices newBuffer

/-- a buffer index is alive when an open cursor refers to it -/
def aliveIdx (numStreams : Nat) (cursors : Nat → Option (Cursor κ σ ο))
    (streamBatchIdx : Nat → Option Nat) (idx : Nat) : Bool :=
  (List.range numStreams).any fun i => (cursors i).isSome && streamBatchIdx i == some idx

/-- the new index of a stream's batch; a stream without a cursor has none -/
def remapIdx (newIndices : Nat → Option Nat) : Option (Cursor κ σ ο) → Option Nat → Option Nat
  | some _, idx => idx.bind newIndices
  | none, _ => none

/-- one `interleave` of the recorded positions -/
def buildOutputInterleave (buffer : List (BufferedBatch κ σ ο)) (indices : List (Nat × Nat)) :
    Result (List ο) :=
  if buffer.isEmpty then .error (.unexpectedError "Failed to interleave output column 0")
  else
    match indices.mapM (outputRowAt buffer) with
    | some rows => .ok rows
    | none => .error (.unexpectedError "Failed to interleave output column 0")

/-! ## the state of the stream -/

structure State (κ σ ο : Type) where
  streams : Nat → List (Result (List (InputRow κ σ ο)))
  cursors : Nat → Option (Cursor κ σ ο)
  tree : LoserTree
  batchBuffer : List (BufferedBatch κ σ ο)
  streamBatchIdx : Nat → Option Nat
  outputIndices : List (Nat × Nat)

/-- what does not change along the stream -/
structure Config (κ σ τ ο : Type) where
  mergeFunction : MergeFunction κ σ τ ο
  outputSchema : τ
  batchSize : Nat

/-- the two checks of a materialized row -/
def Config.checkMaterialized (cfg : Config κ σ τ ο) (batch : OutputBatch τ ο) : Result Unit :=
  if batch.rows.length ≠ 1 then
    .error (.unexpectedError ("Materialized merge result must contain exactly one row, got " ++
      toString batch.rows.length))
  else if batch.schema ≠ cfg.outputSchema then
    .error (.unexpectedError "Materialized merge result schema does not match merge output schema")
  else .ok ()

theorem Config.checkMaterialized_ok {cfg : Config κ σ τ ο} {batch : OutputBatch τ ο}
    (h : cfg.checkMaterialized batch = .ok ()) : ∃ row, batch.rows = [row] := by
  unfold Config.checkMaterialized at h
  split at h
  · cases h
  · exact List.length_eq_one_iff.mp (not_not.mp ‹_›)

namespace State

def numStreams (st : State κ σ ο) : Nat := st.tree.numStreams

/-- the rows a stream still has: the rest of its current batch and the batches not read yet -/
def remaining (st : State κ σ ο) (i : Nat) : List (InputRow κ σ ο) :=
  cursorRows (st.cursors i) ++ deliveredRows (st.streams i)

/-- the rows of all streams, by stream index and then position -/
def rowsLeft (st : State κ σ ο) : List (InputRow κ σ ο) :=
  (List.range st.numStreams).flatMap st.remaining

def compactBatchBuffer (st : State κ σ ο) : State κ σ ο :=
  let (newIndices, newBuffer) :=
    compactFrom (aliveIdx st.numStreams st.cursors st.streamBatchIdx) st.batchBuffer 0
      (fun _ => none) []
  { st with
    batchBuffer := newBuffer
    streamBatchIdx := fun i => remapIdx newIndices (st.cursors i) (st.streamBatchIdx i) }

/-- read stream `w` on after its current batch is finished -/
def pull (st : State κ σ ο) (w : Nat) : Result (State κ σ ο) :=
  match nextCursor (st.streams w) with
  | .error e => .error e
  | .ok (none, rest) =>
    .ok { st with
          streams := Function.update st.streams w rest
          cursors := Function.update st.cursors w none }
  | .ok (some c, rest) =>
    .ok { st with
          streams := Function.update st.streams w rest
          cursors := Function.update st.cursors w (some c)
          batchBuffer := st.batchBuffer ++ [.source c.batch]
          streamBatchIdx := Function.update st.streamBatchIdx w (some st.batchBuffer.length) }

def updateTree (st : State κ σ ο) : State κ σ ο :=
  { st with tree := st.tree.update (cursorGt st.cursors) }

/-- take the current row `c` of the winning stream `w` -/
def advance (st : State κ σ ο) (w : Nat) (c : Cursor κ σ ο) : Result (State κ σ ο) :=
  match c.advance with
  | some c' => .ok { st with cursors := Function.update st.cursors w (some c') }.updateTree
  | none =>
    match st.pull w with
    | .error e => .error e
    | .ok st' => .ok st'.updateTree

/-- the inner loop: the rows of the key `winnerKey` at the head of any stream.  An open cursor's
batch is always registered in the buffer, so the index is never the default. -/
def collect (winnerKey : κ) : Nat → State κ σ ο → List (MergeRow σ) →
    Result (State κ σ ο × List (MergeRow σ))
  | 0, st, rows => .ok (st, rows)
  | fuel + 1, st, rows =>
    match st.cursors st.tree.winner with
    | none => .ok (st, rows)
    | some c =>
      if c.currentRow.key = winnerKey then
        match st.advance st.tree.winner c with
        | .error e => .error e
        | .ok st' =>
          collect winnerKey fuel st'
            (rows ++ [c.mergeRow ((st.streamBatchIdx st.tree.winner).getD 0)])
      else .ok (st, rows)

def record (cfg : Config κ σ τ ο) (st : State κ σ ο) : MergeResult τ ο → Result (State κ σ ο)
  | .sourceRow batchIdx rowIdx =>
    .ok { st with outputIndices := st.outputIndices ++ [(batchIdx, rowIdx)] }
  | .materializedRow batch =>
    match cfg.checkMaterialized batch with
    | .error e => .error e
    | .ok () =>
      .ok { st with
            batchBuffer := st.batchBuffer ++ [.materialized batch.rows]
            outputIndices := st.outputIndices ++ [(st.batchBuffer.length, 0)] }
  | .omitKey => .ok st
  | .materializedDeleteRow _ => .ok st

/-- yield a batch when enough rows are recorded -/
def flushFull (cfg : Config κ σ τ ο) (st : State κ σ ο) : Result (State κ σ ο × Option (List ο)) :=
  if cfg.batchSize ≤ st.outputIndices.length then
    match buildOutputInterleave st.batchBuffer st.outputIndices with
    | .error e => .error e
    | .ok batch => .ok ({ st with outputIndices := [] }.compactBatchBuffer, some batch)
  else .ok (st, none)

/-- one round of the outer loop, from the winning cursor `c` -/
def iterate (cfg : Config κ σ τ ο) (st : State κ σ ο) (c : Cursor κ σ ο) :
    Result (State κ σ ο × Option (List ο)) := do
  let (st, rows) ← collect c.currentRow.key (st.rowsLeft.length + 1) st []
  let result ← cfg.mergeFunction.merge rows st.batchBuffer
  let st ← st.record cfg result
  st.flushFull cfg

end State

/-! ## the stream -/

/-- what a stream of batches delivers: the batches, and the error that ended it, if any -/
structure Yielded (ο : Type) where
  batches : List (List ο)
  error : Option Error
deriving DecidableEq, Repr

def Yielded.after (batch : Option (List ο)) (y : Yielded ο) : Yielded ο :=
  { y with batches := batch.toList ++ y.batches }

namespace State

def finish (st : State κ σ ο) : Yielded ο :=
  if st.outputIndices.isEmpty then ⟨[], none⟩
  else
    match buildOutputInterleave st.batchBuffer st.outputIndices with
    | .error e => ⟨[], some e⟩
    | .ok batch => ⟨[batch], none⟩

def mergeLoop (cfg : Config κ σ τ ο) : Nat → State κ σ ο → Yielded ο
  | 0, st => st.finish
  | fuel + 1, st =>
    match st.cursors st.tree.winner with
    | none => st.finish
    | some c =>
      match st.iterate cfg c with
      | .error e => ⟨[], some e⟩
      | .ok (st', batch) => (mergeLoop cfg fuel st').after batch

end State

/-- enter the first batch of a stream into the buffer -/
def register (acc : List (BufferedBatch κ σ ο) × List (Option Nat)) :
    Option (Cursor κ σ ο) → List (BufferedBatch κ σ ο) × List (Option Nat)
  | none => (acc.1, acc.2 ++ [none])
  | some c => (acc.1 ++ [.source c.batch], acc.2 ++ [some acc.1.length])

/-- register the first batch of every open cursor, in stream order -/
def registerInitial (cursors : List (Option (Cursor κ σ ο))) :
    List (BufferedBatch κ σ ο) × List (Option Nat) :=
  cursors.foldl register ([], [])

/-- the state before the outer loop, from the cursors opened and the rest of each stream -/
def initialState
    (opened : List (Option (Cursor κ σ ο) × List (Result (List (InputRow κ σ ο))))) :
    State κ σ ο :=
  let cursors := fun i => (opened[i]?).bind Prod.fst
  { streams := fun i => ((opened[i]?).map Prod.snd).getD []
    cursors := cursors
    tree := (LoserTree.new opened.length).init (cursorGt cursors)
    batchBuffer := (registerInitial (opened.map Prod.fst)).1
    streamBatchIdx := fun i => ((registerInitial (opened.map Prod.fst)).2[i]?).join
    outputIndices := [] }

/-- read every stream up to its first non-empty batch -/
def openStreams (streams : List (List (Result (List (InputRow κ σ ο))))) : Result (State κ σ ο) := do
  let opened ← streams.mapM nextCursor
  return initialState opened

def sortMergeStream (cfg : Config κ σ τ ο)
    (streams : List (List (Result (List (InputRow κ σ ο))))) : Yielded ο :=
  if streams.length = 0 then ⟨[], none⟩
  else
    match openStreams streams with
    | .error e => ⟨[], some e⟩
    | .ok st => st.mergeLoop cfg (st.rowsLeft.length + 1)

end Paimon.SortMerge
