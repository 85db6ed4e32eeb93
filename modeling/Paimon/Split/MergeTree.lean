import Paimon.Lib.Sections
import Paimon.Spec.BinaryRow

/-!
# Splits of a merge-tree bucket

`table/merge_tree_split_generator.rs` and `table/bin_pack.rs`: how the files of one bucket are
grouped for a batch read.

* `KeyComparator.decode`: a serialized key at the types of the trimmed primary key; NaN keys are rejected;
* `compareDecoded`: field by field, NULL first, floats by total order;
* `intervalPartition`: sections of files whose key ranges overlap (`Sections.sections`);
* `mergeTreeSplitForBatch`: the fast path for one compacted level, and sections packed whole.

`compareDecoded_eq`: keys of the types of one comparator compare by `keyRank` in a linear order.
-/

namespace Paimon

/-! ## keys -/

structure KeyComparator where
  keyTypes : List TypeRoot
  variantOk : Bytes → Bytes → Bool

/-- one field each; `none` is NULL -/
abbrev DecodedKey := List (Option Datum)

/-- a field of a key; NaN is rejected -/
def KeyComparator.decodeField (comparator : KeyComparator) (row : BinaryRow) (pos : Nat)
    (t : TypeRoot) : Option (Option Datum) := do
  let datum ← row.getDatum comparator.variantOk pos t
  match datum with
  | some d => if d.isNan then none else some (some d)
  | none => some none

/-- the fields from position `pos` on -/
def KeyComparator.decodeFields (comparator : KeyComparator) (row : BinaryRow) :
    Nat → List TypeRoot → Option DecodedKey
  | _, [] => some []
  | pos, t :: ts => do
    let field ← comparator.decodeField row pos t
    let rest ← comparator.decodeFields row (pos + 1) ts
    return field :: rest

def KeyComparator.decode (comparator : KeyComparator) (key : Bytes) : Option DecodedKey :=
  if key.isEmpty then none
  else do
    let row ← fromSerializedBytes key
    if row.arity ≠ comparator.keyTypes.length then none
    else comparator.decodeFields row 0 comparator.keyTypes

/-- one field; values that do not compare count as equal -/
def compareField : Option Datum → Option Datum → Ordering
  | none, none => .eq
  | none, some _ => .lt
  | some _, none => .gt
  | some (.float a), some (.float b) => Ieee.totalCmp a b
  | some (.double a), some (.double b) => Ieee.totalCmp a b
  | some a, some b => (datumCmp a b).getD .eq

def compareDecoded : DecodedKey → DecodedKey → Ordering
  | a :: as, b :: bs => (compareField a b).then (compareDecoded as bs)
  | _, _ => .eq

/-! ## the order of keys -/

def fieldRank : Option Datum → Compare.LexList (Compare.LexList ℚ)
  | none => Compare.toLexList []
  | some (.float b) => Compare.toLexList [Compare.toLexList [(Ieee.totalRank b : ℚ)]]
  | some (.double b) => Compare.toLexList [Compare.toLexList [(Ieee.totalRank b : ℚ)]]
  | some d => Compare.toLexList [d.rank]

def keyRank (key : DecodedKey) : Compare.LexList (Compare.LexList (Compare.LexList ℚ)) :=
  Compare.toLexList (key.map fieldRank)

/-- a field of a key column: NULL, or a value of the kind of the column -/
def fieldOfType (t : TypeRoot) : Option Datum → Prop
  | none => True
  | some d => t.rowKind = some d.kind

/-- a key of the types of the comparator -/
def KeyComparator.Typed (comparator : KeyComparator) (key : DecodedKey) : Prop :=
  List.Forall₂ fieldOfType comparator.keyTypes key

theorem compareField_eq {t : TypeRoot} {a b : Option Datum} (ha : fieldOfType t a)
    (hb : fieldOfType t b) : compareField a b = compare (fieldRank a) (fieldRank b) := by
  have hnil : ∀ x : Compare.LexList ℚ,
      compare (Compare.toLexList []) (Compare.toLexList [x]) = .lt := fun x =>
    compare_lt_iff_lt.mpr (Compare.toLexList_nil_lt x [])
  have hnil' : ∀ x : Compare.LexList ℚ,
      compare (Compare.toLexList [x]) (Compare.toLexList []) = .gt := fun x =>
    compare_gt_iff_gt.mpr (Compare.toLexList_nil_lt x [])
  cases a with
  | none =>
    cases b with
    | none => exact (compare_eq_iff_eq.mpr rfl).symm
    | some d => cases d <;> exact (hnil _).symm
  | some a =>
    cases b with
    | none => cases a <;> exact (hnil' _).symm
    | some b =>
      have hk : a.kind = b.kind := Option.some_inj.mp (ha.symm.trans hb)
      have hord : a.kind.ordered = true → (datumCmp a b).getD .eq =
          compare (Compare.toLexList [a.rank]) (Compare.toLexList [b.rank]) := fun h => by
        rw [datumCmp_eq h, if_pos hk, Compare.compare_singleton]
        rfl
      have hint : ∀ x y : Int, compare x y = compare (Compare.toLexList [Compare.toLexList [(x : ℚ)]])
            (Compare.toLexList [Compare.toLexList [(y : ℚ)]]) := fun x y => by
        rw [Compare.compare_singleton, compare_int]
      -- equal kinds remain; a VARIANT is equal to every other
      cases a <;> cases b <;> first
        | exact hord rfl
        | exact hint _ _
        | cases hk
      case variant.variant.refl =>
        refine Eq.trans ?_ (compare_eq_iff_eq.mpr rfl).symm
        show (if _ then _ else _ : Option Ordering).getD .eq = _
        split <;> rfl

variable {comparator : KeyComparator}

/-- **Keys of the types of a comparator compare by rank.** -/
theorem compareDecoded_eq {a b : DecodedKey} (ha : comparator.Typed a) (hb : comparator.Typed b) :
    compareDecoded a b = compare (keyRank a) (keyRank b) := by
  unfold KeyComparator.Typed at ha hb
  unfold keyRank
  generalize comparator.keyTypes = ts at ha hb
  induction ha generalizing b with
  | nil =>
    cases hb
    exact (compare_eq_iff_eq.mpr rfl).symm
  | cons hx _ ih =>
    cases hb with
    | cons hy hys =>
      rw [compareDecoded, List.map_cons, List.map_cons, Compare.compare_cons, compareField_eq hx hy, ih hys]

theorem keyRanked (comparator : KeyComparator) : Sections.Ranked compareDecoded comparator.Typed keyRank :=
  ⟨fun _ _ ha hb => compareDecoded_eq ha hb⟩

theorem decodeFields_typed {row : BinaryRow} {pos : Nat} {ts : List TypeRoot} {key : DecodedKey}
    (h : comparator.decodeFields row pos ts = some key) : List.Forall₂ fieldOfType ts key := by
  induction ts generalizing pos key with
  | nil =>
    cases h
    exact .nil
  | cons t ts ih =>
    obtain ⟨field, hfield, h⟩ := Option.bind_eq_some_iff.mp h
    obtain ⟨rest, hrest, h⟩ := Option.bind_eq_some_iff.mp h
    cases h
    refine .cons ?_ (ih hrest)
    obtain ⟨datum, hdatum, hfield⟩ := Option.bind_eq_some_iff.mp hfield
    cases datum with
    | none =>
      cases hfield
      exact trivial
    | some d =>
      dsimp only at hfield
      split at hfield
      · cases hfield
      · cases hfield
        exact getDatum_kind hdatum

theorem decode_typed {key : Bytes} {decoded : DecodedKey}
    (h : comparator.decode key = some decoded) : comparator.Typed decoded := by
  unfold KeyComparator.decode at h
  split at h
  · cases h
  · obtain ⟨row, _, h⟩ := Option.bind_eq_some_iff.mp h
    split at h
    · cases h
    · exact decodeFields_typed h

/-! ## sections -/

/-- a file with its decoded key range, which is not inverted -/
structure KeyedFile (comparator : KeyComparator) where
  file : DataFileMeta
  min : DecodedKey
  max : DecodedKey
  minKey : comparator.decode file.minKey = some min
  maxKey : comparator.decode file.maxKey = some max
  ordered : compareDecoded min max ≠ .gt

/-- one file; `none` if its range is missing, cannot be decoded or is inverted -/
def decodeRange (comparator : KeyComparator) (file : DataFileMeta) : Option (KeyedFile comparator) :=
  match hmin : comparator.decode file.minKey, hmax : comparator.decode file.maxKey with
  | some min, some max =>
    if h : compareDecoded min max ≠ .gt then some ⟨file, min, max, hmin, hmax, h⟩ else none
  | _, _ => none

/-- every range up front; one that fails fails them all -/
def decodeAll (comparator : KeyComparator) (files : List DataFileMeta) :
    Option (List (KeyedFile comparator)) :=
  files.mapM (decodeRange comparator)

/-- lower ends first, then upper ends; files with equal ends keep their order -/
def KeyedFile.le {comparator : KeyComparator} (a b : KeyedFile comparator) : Bool :=
  (compareDecoded a.min b.min).then (compareDecoded a.max b.max) != .gt

def intervalPartition (files : List DataFileMeta) (comparator : KeyComparator) : List (List DataFileMeta) :=
  if files.length ≤ 1 then if files.isEmpty then [] else [files]
  else
    match decodeAll comparator files with
    | none => [files]
    | some keyed =>
      (Sections.sections compareDecoded KeyedFile.min KeyedFile.max
        (keyed.insertionSort fun a b => a.le b = true)).map (List.map KeyedFile.file)

/-! ## splits -/

def addI64 (a b : Int) : Int := Int.bmod (a + b) (2 ^ 64)

def packForOrdered {α : Type} (items : List α) (weightFunc : α → Int) (targetWeight : Int) : List (List α) :=
  Sections.pack addI64 weightFunc targetWeight items

/-- a section is never taken apart; the open cost is charged once for it -/
def packSections (sections : List (List DataFileMeta)) (targetSplitSize openFileCost : Int) :
    List (List DataFileMeta) :=
  (packForOrdered sections
    (fun files => max ((files.map DataFileMeta.fileSize).foldl addI64 0) openFileCost)
    targetSplitSize).map List.flatten

structure SplitGroup where
  files : List DataFileMeta
  rawConvertible : Bool
deriving DecidableEq, Repr

/-- a missing count is read as no deletes -/
def withoutDeleteRow (file : DataFileMeta) : Bool := file.deleteRowCount.all (· == 0)

def oneLevel (files : List DataFileMeta) : Bool :=
  (files.map DataFileMeta.level).dedup.length == 1

def mergeTreeSplitForBatch (files : List DataFileMeta) (comparator : KeyComparator)
    (targetSplitSize openFileCost : Int) (fileKeysUnique : Bool) : List SplitGroup :=
  let rawConvertible := files.all fun f => f.level != 0 && withoutDeleteRow f
  if rawConvertible && oneLevel files then
    (packForOrdered files (fun f => max f.fileSize openFileCost) targetSplitSize).map fun files =>
      { files := files, rawConvertible := fileKeysUnique }
  else
    (packSections (intervalPartition files comparator) targetSplitSize openFileCost).map fun files =>
      { files := files,
        rawConvertible := fileKeysUnique && files.length == 1 && files.all withoutDeleteRow }

end Paimon
