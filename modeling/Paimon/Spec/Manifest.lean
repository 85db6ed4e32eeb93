import Paimon.Lib.IndexMap
import Paimon.Lib.Net

/-!
# Manifest entries, index entries and snapshots

The data model of the commit path (`spec/manifest_entry.rs`, `spec/data_file.rs`,
`spec/index_file_meta.rs`, `spec/snapshot.rs`).  Manifest files, manifest lists and index manifests
are write-once files under fresh names, so a snapshot carries their CONTENTS instead of their names.

* `ManifestEntry`, `Identifier`: an ADD or a DELETE of a data file, and what makes two entries name one file;
* `mergeActiveEntries`: netting of a manifest set by identifier (`Net.net`);
* `isEmptyPartition`: the three byte spellings of the partition of an unpartitioned table;
* `Snapshot.entries`, `.active`: base plus delta, and the files live in a snapshot.
-/

namespace Paimon

abbrev Bytes := List UInt8

instance lawfulBEqBytes : LawfulBEq Bytes := inferInstance

def beNat (bs : Bytes) : Nat := bs.foldl (fun acc b => acc * 256 + b.toNat) 0

/-- `crate::Error`, as far as the modelled functions build it -/
inductive Error where
  | dataInvalid (message : String)
  | dataInvalidFrom (message : String) (source : Error)
  | unsupported (message : String)
  | configInvalid (message : String)
  | unexpectedError (message : String)
  | unexpectedErrorFrom (message : String) (source : Error)
  | ioUnexpected (message : String)
deriving DecidableEq, Repr

abbrev Result (α : Type) := Except Error α

variable {α β : Type}

theorem bind_ok {x : Result α} {f : α → Result β} {b : β} (h : x >>= f = .ok b) :
    ∃ a, x = .ok a ∧ f a = .ok b := by
  cases x with
  | error e => exact nomatch h
  | ok a => exact ⟨a, rfl, h⟩

theorem mapM_ok {f : α → Result β} {P : α → β → Prop} {l : List α}
    (h : ∀ a ∈ l, ∃ b, f a = .ok b ∧ P a b) : ∃ bs, l.mapM f = .ok bs ∧ List.Forall₂ P l bs := by
  induction l with
  | nil => exact ⟨[], rfl, .nil⟩
  | cons a l ih =>
    obtain ⟨b, hb, hP⟩ := h a List.mem_cons_self
    obtain ⟨bs, hbs, hall⟩ := ih (List.forall_mem_cons.mp h).2
    refine ⟨b :: bs, ?_, .cons hP hall⟩
    rw [List.mapM_cons, hb, hbs]
    rfl

inductive FileKind where
  | add
  | delete
deriving DecidableEq, Repr

inductive CommitKind where
  | append
  | compact
  | overwrite
  | analyze
deriving DecidableEq, Repr

def i64Max : Int := 9223372036854775807

structure DataFileMeta where
  fileName : String
  fileSize : Int := 0
  rowCount : Int
  minKey : Bytes := []
  maxKey : Bytes := []
  minSequenceNumber : Int := 0
  maxSequenceNumber : Int := 0
  schemaId : Int := 0
  level : Int := 0
  extraFiles : List String := []
  deleteRowCount : Option Int := none
  embeddedIndex : Option Bytes := none
  fileSource : Option Int := none
  externalPath : Option String := none
  firstRowId : Option Int := none
  writeCols : Option (List String) := none
deriving DecidableEq, Repr

/-- `[first_row_id, first_row_id + row_count - 1]`, when it exists and fits an `i64` -/
def DataFileMeta.rowIdRange (f : DataFileMeta) : Option (Int × Int) :=
  match f.firstRowId with
  | none => none
  | some frm =>
    if f.rowCount ≤ 0 then none
    else if frm + (f.rowCount - 1) ≤ i64Max then some (frm, frm + (f.rowCount - 1)) else none

structure Identifier where
  partition : Bytes
  bucket : Int
  level : Int
  fileName : String
  extraFiles : List String
  embeddedIndex : Option Bytes
  externalPath : Option String
deriving DecidableEq, Repr

structure ManifestEntry where
  kind : FileKind
  partition : Bytes
  bucket : Int
  totalBuckets : Int
  file : DataFileMeta
deriving DecidableEq, Repr

namespace ManifestEntry

def identifier (e : ManifestEntry) : Identifier where
  partition := e.partition
  bucket := e.bucket
  level := e.file.level
  fileName := e.file.fileName
  extraFiles := e.file.extraFiles
  embeddedIndex := e.file.embeddedIndex
  externalPath := e.file.externalPath

def isAdd (e : ManifestEntry) : Bool := e.kind == .add

def withKind (e : ManifestEntry) (kind : FileKind) : ManifestEntry := { e with kind := kind }

def withSequenceNumber (e : ManifestEntry) (minSeq maxSeq : Int) : ManifestEntry :=
  { e with file := { e.file with minSequenceNumber := minSeq, maxSequenceNumber := maxSeq } }

def withFirstRowId (e : ManifestEntry) (firstRowId : Int) : ManifestEntry :=
  { e with file := { e.file with firstRowId := some firstRowId } }

variable {e : ManifestEntry}

@[simp] theorem isAdd_add (h : e.kind = .add) : e.isAdd = true := by
  simp [isAdd, h]
@[simp] theorem isAdd_delete (h : e.kind = .delete) : e.isAdd = false := by
  simp [isAdd, h]
theorem isAdd_iff (e : ManifestEntry) : e.isAdd = true ↔ e.kind = .add := by simp [isAdd]

@[simp] theorem withKind_identifier (e : ManifestEntry) (k : FileKind) :
    (e.withKind k).identifier = e.identifier := rfl
@[simp] theorem withKind_kind (e : ManifestEntry) (k : FileKind) : (e.withKind k).kind = k := rfl
@[simp] theorem withKind_file (e : ManifestEntry) (k : FileKind) : (e.withKind k).file = e.file := rfl
@[simp] theorem withKind_partition (e : ManifestEntry) (k : FileKind) :
    (e.withKind k).partition = e.partition := rfl

end ManifestEntry

/-- Resolve a complete manifest set to its active ADD entries.  The source collects the values of a
`HashMap`, in no specified order; here they stand in the order of their last insertion. -/
def mergeActiveEntries (entries : List ManifestEntry) : List ManifestEntry :=
  entries.foldl (fun map entry =>
    match entry.kind with
    | .add => map.filter (fun x => x.identifier ≠ entry.identifier) ++ [entry]
    | .delete => map.filter (fun x => x.identifier ≠ entry.identifier)) []

theorem mergeActiveEntries_eq (entries : List ManifestEntry) :
    mergeActiveEntries entries = Net.net ManifestEntry.identifier ManifestEntry.isAdd entries := by
  unfold mergeActiveEntries Net.net Net.run
  congr 1
  funext map entry
  unfold Net.step ManifestEntry.isAdd
  cases entry.kind <;> rfl

/-- `EMPTY_SERIALIZED_ROW`: arity 0 and the 8-byte fixed part -/
def emptySerializedRow : Bytes := [0, 0, 0, 0, 0, 0, 0, 0, 0, 0, 0, 0]

def isEmptyPartition (partition : Bytes) : Bool :=
  partition == [] || partition == emptySerializedRow || partition == [0, 0, 0, 0]

/-- a partition with the three spellings of the empty one made equal -/
def partitionKey (partition : Bytes) : Bytes :=
  if isEmptyPartition partition then [] else partition

/-- the identifier of a commit entry, with the empty partition normalized -/
def commitFileIdentifier (entry : ManifestEntry) : Identifier :=
  let identifier := entry.identifier
  if isEmptyPartition identifier.partition then { identifier with partition := [] } else identifier

theorem commitFileIdentifier_eq (e : ManifestEntry) :
    commitFileIdentifier e = { e.identifier with partition := partitionKey e.partition } := by
  unfold commitFileIdentifier partitionKey
  have h : e.identifier.partition = e.partition := rfl
  by_cases hp : isEmptyPartition e.partition
  · simp [h, hp]
  · simp only [h, hp, if_false, Bool.false_eq_true]
    rfl

variable {a b : ManifestEntry}

theorem identifier_of_commitFileIdentifier
    (h : commitFileIdentifier a = commitFileIdentifier b) (hp : a.partition = b.partition) :
    a.identifier = b.identifier := by
  rw [commitFileIdentifier_eq, commitFileIdentifier_eq] at h
  simp only [Identifier.mk.injEq, ManifestEntry.identifier] at h ⊢
  exact ⟨hp, h.2⟩

theorem commitFileIdentifier_of_identifier (h : a.identifier = b.identifier) :
    commitFileIdentifier a = commitFileIdentifier b := by
  unfold commitFileIdentifier
  rw [h]

/-! ## index files -/

structure DeletionVectorMeta where
  offset : Int
  length : Int
  cardinality : Option Int := none
deriving DecidableEq, Repr

structure GlobalIndexMeta where
  rowRangeStart : Int
  rowRangeEnd : Int
  indexFieldId : Int
  extraFieldIds : Option (List Int) := none
  indexMeta : Option Bytes := none
  sourceMeta : Option Bytes := none
deriving DecidableEq, Repr

structure IndexFileMeta where
  indexType : String
  fileName : String
  fileSize : Int := 0
  rowCount : Int := 0
  deletionVectorsRanges : Option (IndexMap String DeletionVectorMeta) := none
  externalPath : Option String := none
  globalIndexMeta : Option GlobalIndexMeta := none
deriving DecidableEq, Repr

structure IndexManifestEntry where
  version : Int := 1
  kind : FileKind
  partition : Bytes
  bucket : Int
  indexFile : IndexFileMeta
deriving DecidableEq, Repr

/-! ## snapshots -/

abbrev Manifest := List ManifestEntry

structure Snapshot where
  id : Int
  schemaId : Int := 0
  baseManifestList : List Manifest
  deltaManifestList : List Manifest
  changelogManifestList : Option (List Manifest) := none
  indexManifest : Option (List IndexManifestEntry) := none
  commitUser : String
  commitIdentifier : Int
  commitKind : CommitKind
  totalRecordCount : Option Int
  deltaRecordCount : Option Int
  changelogRecordCount : Option Int := none
  nextRowId : Option Int := none
deriving DecidableEq, Repr

namespace Snapshot

def baseEntries (s : Snapshot) : List ManifestEntry := s.baseManifestList.flatten
def deltaEntries (s : Snapshot) : List ManifestEntry := s.deltaManifestList.flatten

/-- all entries of a snapshot, base manifests first -/
def entries (s : Snapshot) : List ManifestEntry := s.baseEntries ++ s.deltaEntries

def active (s : Snapshot) : List ManifestEntry := mergeActiveEntries s.entries

end Snapshot

/-! ## row-tracking columns -/

def rowIdFieldName : String := "_ROW_ID"
def sequenceNumberFieldName : String := "_SEQUENCE_NUMBER"

end Paimon
