import Paimon.Lib.BitSlices
import Paimon.FileIndex.Format
import Paimon.FileIndex.Remap

/-!
# The bit-sliced index

`file_index/bsi.rs`: two indexes of unsigned numbers, one for the values that are not negative and one
for the magnitudes of the negative ones.  Each keeps the rows that it has, one slice for every binary digit
and the largest number.

* `serializedBytes`, `tryNew`: writing and reading;
* `SliceIndex.compare`: the loop over the slices (`BitSlices.split`);
* `BsiFileIndexReader.compare`, `evaluate`: comparisons by sign, and sets of literals;
* `rowsWhere values p`: the rows of the values that satisfy `p`.

`reads_back`: the reader of the bytes of the writer holds both indexes; `bsi_comparison_exact`: it selects the
rows whose values stand in the relation.
-/

namespace Paimon.FileIndex.Bsi

open Decode List

/-! ## values -/

def i64Min : Int := -9223372036854775808

/-- `checked_mul` and `checked_add` of `i64` -/
def checkedI64 (v : Int) : Option Int := if i64Min ≤ v ∧ v ≤ i64Max then some v else none

def timestampValue (precision : Nat) (millis nanos : Int) : Option Int :=
  if ¬ (0 ≤ nanos ∧ nanos < 1000000) then none
  else if precision ≤ 3 then some millis
  else (checkedI64 (millis * 1000)).bind fun micros => checkedI64 (micros + nanos.tdiv 1000)

def mappedValue (t : TypeRoot) (datum : Datum) : Option Int :=
  match t, datum with
  | .tinyInt, .tinyInt value => some value
  | .smallInt, .smallInt value => some value
  | .int, .int value => some value
  | .bigInt, .long value => some value
  | .date, .date value => some value
  | .time _, .time value => some value
  | .decimal precision scale, .decimal unscaled precision' scale' =>
    if precision' = precision ∧ scale' = scale then checkedI64 unscaled else none
  | .timestamp precision, .timestamp millis nanos => timestampValue precision millis nanos
  | .localZonedTimestamp precision, .localZonedTimestamp millis nanos =>
    timestampValue precision millis nanos
  | _, _ => none

def validateType (t : TypeRoot) : Except IndexError Unit :=
  match t with
  | .tinyInt | .smallInt | .int | .bigInt | .date | .time _ => .ok ()
  | .timestamp _ | .localZonedTimestamp _ | .decimal _ _ => .ok ()
  | _ => .error (.unsupported "BSI file index does not support data type")

/-! ## writing -/

def i32Max : Nat := 2147483647

structure BsiFileIndexWriter where
  dataType : TypeRoot
  values : List (Option Int)

namespace BsiFileIndexWriter

def tryNew (t : TypeRoot) : Except IndexError BsiFileIndexWriter :=
  (validateType t).map fun _ => ⟨t, []⟩

def write (w : BsiFileIndexWriter) (datum : Option Datum) : Except IndexError BsiFileIndexWriter :=
  if i32Max ≤ w.values.length then .error (.dataInvalid "BSI row count exceeds Java int range")
  else
    match datum with
    | none => .ok { w with values := w.values ++ [none] }
    | some datum =>
      match mappedValue w.dataType datum with
      | none => .error (.dataInvalid "Datum does not match BSI type")
      | some value =>
        if value = i64Min then .error (.dataInvalid "BSI cannot encode Long.MIN_VALUE")
        else .ok { w with values := w.values ++ [some value] }

end BsiFileIndexWriter

/-- `u64::BITS - n.leading_zeros()` -/
def bitWidth (n : Nat) : Nat := if n = 0 then 0 else n.log2 + 1

/-- rows with their magnitudes, at least one -/
def writeSliceIndex (format : RoaringFormat) (values : List (Nat × Nat)) : Bytes :=
  let max := (values.map Prod.snd).foldl max 0
  let width := bitWidth max
  let existing := (values.map Prod.fst).toFinset
  let slices := BitSlices.scatterAll 64 values (List.replicate width ∅)
  [1] ++ (putInt 8 0 ++ (putInt 8 max ++ (format.serialize existing ++ (putInt 4 width ++
    slices.flatMap format.serialize))))

def positiveEntries (values : List (Option Int)) : List (Nat × Nat) :=
  values.zipIdx.filterMap fun p => match p.1 with
    | some value => if value < 0 then none else some (p.2, value.toNat)
    | none => none

def negativeEntries (values : List (Option Int)) : List (Nat × Nat) :=
  values.zipIdx.filterMap fun p => match p.1 with
    | some value => if value < 0 then some (p.2, value.natAbs) else none
    | none => none

/-- a flag, then the index if there are entries -/
def writeHalf (format : RoaringFormat) (entries : List (Nat × Nat)) : Bytes :=
  if entries = [] then [0] else [1] ++ writeSliceIndex format entries

namespace BsiFileIndexWriter

def serializedBytes (format : RoaringFormat) (w : BsiFileIndexWriter) : Except IndexError Bytes :=
  if i32Max < w.values.length then .error (.dataInvalid "BSI row count exceeds Java int range")
  else .ok ([1] ++ (putInt 4 w.values.length ++ (writeHalf format (positiveEntries w.values) ++
    writeHalf format (negativeEntries w.values))))

end BsiFileIndexWriter

/-! ## reading -/

def truncated (label : String) : Nat → IndexError := fun _ =>
  .formatInvalid s!"Truncated BSI {label}: failed to fill whole buffer"

def readU8 (label : String) : Decoder UInt8 := (fun bytes => bytes.headD 0) <$> take 1 (truncated label)

def readI32 (label : String) : Decoder Int := readInt 4 (truncated label)

def readI64 (label : String) : Decoder Int := readInt 8 (truncated label)

def readBitmap (format : RoaringFormat) (rowCount : Nat) (label : String) : Decoder (Finset Nat) :=
  withError (fun error => .formatInvalid s!"Invalid BSI {label} bitmap: {error}") format.deserialize >>=
    fun bitmap =>
      check (∀ row ∈ bitmap, row < rowCount) (.formatInvalid s!"BSI {label} contains a row past {rowCount}")
        >>= fun _ => pure bitmap

structure SliceIndex where
  max : Int
  existing : Finset Nat
  slices : List (Finset Nat)

namespace SliceIndex

def read (format : RoaringFormat) (rowCount : Nat) : Decoder SliceIndex :=
  readU8 "slice version" >>= fun version =>
  check (version = 1) (.formatInvalid "Unsupported BSI slice version") >>= fun _ =>
  readI64 "slice min" >>= fun min =>
  readI64 "slice max" >>= fun max =>
  check (¬ (min ≠ 0 ∨ max < 0)) (.formatInvalid "Invalid BSI slice min/max") >>= fun _ =>
  readBitmap format rowCount "existence" >>= fun existing =>
  readI32 "slice count" >>= fun width =>
  check (¬ (width < 0 ∨ width ≠ bitWidth max.toNat))
    (.formatInvalid "BSI slice count does not match max") >>= fun _ =>
  many (fun _ => readBitmap format rowCount "slice" >>= fun bitmap =>
    check (bitmap ⊆ existing) (.formatInvalid "BSI slice has rows outside existence bitmap") >>= fun _ =>
    pure bitmap) 0 width.toNat >>= fun slices =>
  pure ⟨max, existing, slices⟩

def compare (index : SliceIndex) (operator : PredicateOperator) (value : Int) : Finset Nat :=
  if value < 0 then
    match operator with
    | .notEq | .gt | .gtEq => index.existing
    | _ => ∅
  else if index.max < value then
    match operator with
    | .notEq | .lt | .ltEq => index.existing
    | _ => ∅
  else
    let s := BitSlices.split value.toNat index.existing 0 index.slices
    match operator with
    | .eq => s.equal
    | .notEq => index.existing \ s.equal
    | .lt => s.less
    | .ltEq => s.less ∪ s.equal
    | .gt => s.greater
    | .gtEq => s.greater ∪ s.equal
    | _ => ∅

end SliceIndex

structure BsiFileIndexReader where
  dataType : TypeRoot
  rowCount : Nat
  positive : Option SliceIndex
  negative : Option SliceIndex

namespace BsiFileIndexReader

/-- the flag of a half and what follows it -/
def readHalf (format : RoaringFormat) (rowCount : Nat) (label : String) : Decoder (Option SliceIndex) :=
  readU8 s!"{label} flag" >>= fun flag =>
    if flag = 0 then pure none
    else if flag = 1 then some <$> SliceIndex.read format rowCount
    else fun _ => .error (.formatInvalid s!"Invalid BSI {label} flag")

/-- the row count and the two halves -/
def readAll (format : RoaringFormat) : Decoder (Nat × Option SliceIndex × Option SliceIndex) :=
  readU8 "version" >>= fun version =>
  check (version = 1) (.formatInvalid "Unsupported BSI version") >>= fun _ =>
  readI32 "row count" >>= fun rowCount =>
  check (0 ≤ rowCount) (.formatInvalid "Negative BSI row count") >>= fun _ =>
  readHalf format rowCount.toNat "positive" >>= fun positive =>
  readHalf format rowCount.toNat "negative" >>= fun negative =>
  pure (rowCount.toNat, positive, negative)

/-- a row is in one of the halves -/
def halvesDisjoint : Option SliceIndex → Option SliceIndex → Bool
  | some positive, some negative => decide (Disjoint positive.existing negative.existing)
  | _, _ => true

def tryNew (format : RoaringFormat) (t : TypeRoot) (serialized : Bytes) :
    Except IndexError BsiFileIndexReader :=
  validateType t >>= fun _ =>
  readAll format serialized >>= fun ((rowCount, positive, negative), rest) =>
    if rest ≠ [] then .error (.formatInvalid "Trailing BSI payload bytes")
    else if halvesDisjoint positive negative then .ok ⟨t, rowCount, positive, negative⟩
    else .error (.formatInvalid "A BSI row appears in both sign indexes")

variable (reader : BsiFileIndexReader)

def existing (half : Option SliceIndex) : Finset Nat := half.elim ∅ SliceIndex.existing

def compareHalf (half : Option SliceIndex) (operator : PredicateOperator) (value : Int) : Finset Nat :=
  half.elim ∅ fun index => index.compare operator value

def nonNull : Finset Nat := existing reader.positive ∪ existing reader.negative

def compare (operator : PredicateOperator) (value : Int) : Finset Nat :=
  if value = i64Min then
    match operator with
    | .notEq | .gt | .gtEq => reader.nonNull
    | _ => ∅
  else if value < 0 then
    -- magnitudes of negative values are in reverse order
    match operator with
    | .eq => compareHalf reader.negative .eq (-value)
    | .notEq => reader.nonNull \ compareHalf reader.negative .eq (-value)
    | .lt => compareHalf reader.negative .gt (-value)
    | .ltEq => compareHalf reader.negative .gtEq (-value)
    | .gt => existing reader.positive ∪ compareHalf reader.negative .lt (-value)
    | .gtEq => existing reader.positive ∪ compareHalf reader.negative .ltEq (-value)
    | _ => ∅
  else
    match operator with
    | .eq => compareHalf reader.positive .eq value
    | .notEq => reader.nonNull \ compareHalf reader.positive .eq value
    | .lt => existing reader.negative ∪ compareHalf reader.positive .lt value
    | .ltEq => existing reader.negative ∪ compareHalf reader.positive .ltEq value
    | .gt => compareHalf reader.positive .gt value
    | .gtEq => compareHalf reader.positive .gtEq value
    | _ => ∅

def truncatedTimestamp : Bool :=
  match reader.dataType with
  | .timestamp precision => 6 < precision
  | .localZonedTimestamp precision => 6 < precision
  | _ => false

/-- the rows equal to one of the literals, `none` where a literal does not map -/
def literalRows (literals : List Datum) : Option (Finset Nat) :=
  literals.foldlM (fun rows literal =>
    (mappedValue reader.dataType literal).map fun value => rows ∪ reader.compare .eq value) ∅

def evaluate (operator : PredicateOperator) (literals : List Datum) : FileIndexResult :=
  match operator with
  | .isNull => .selection (Finset.range reader.rowCount \ reader.nonNull)
  | .isNotNull => .selection reader.nonNull
  | .eq | .notEq | .lt | .ltEq | .gt | .gtEq =>
    match literals.head?.bind (mappedValue reader.dataType) with
    | none => .remain
    | some value =>
      if reader.truncatedTimestamp then .remain else .selection (reader.compare operator value)
  | .isIn =>
    if reader.truncatedTimestamp then .remain
    else match reader.literalRows literals with
      | none => .remain
      | some equal => .selection equal
  | .notIn =>
    if reader.truncatedTimestamp then .remain
    else match reader.literalRows literals with
      | none => .remain
      | some equal => .selection (reader.nonNull \ equal)
  | .between =>
    match literals with
    | [low, high] =>
      if reader.truncatedTimestamp then .remain
      else match mappedValue reader.dataType low, mappedValue reader.dataType high with
        | some lower, some upper => .selection (reader.compare .gtEq lower ∩ reader.compare .ltEq upper)
        | _, _ => .remain
    | _ => .remain
  | _ => .remain

end BsiFileIndexReader

/-! ## rows -/

def rowsWhere (values : List (Option Int)) (p : Int → Bool) : Finset Nat :=
  (Finset.range values.length).filter fun row => values[row]?.join.any p

def stands : PredicateOperator → Int → Int → Bool
  | .eq, a, b => a = b
  | .notEq, a, b => a ≠ b
  | .lt, a, b => a < b
  | .ltEq, a, b => a ≤ b
  | .gt, a, b => b < a
  | .gtEq, a, b => b ≤ a
  | _, _, _ => false

variable {values : List (Option Int)} {row : Nat} {p : Int → Bool}

theorem mem_rowsWhere : row ∈ rowsWhere values p ↔ ∃ v, values[row]? = some (some v) ∧ p v = true := by
  rw [rowsWhere, Finset.mem_filter, Finset.mem_range]
  constructor
  · rintro ⟨_, hany⟩
    obtain ⟨v, hv, hp⟩ := (Option.any_eq_true _ _).mp hany
    exact ⟨v, Option.join_eq_some_iff.mp hv, hp⟩
  · rintro ⟨v, hv, hp⟩
    refine ⟨(List.getElem?_eq_some_iff.mp hv).1, ?_⟩
    rw [hv]
    exact hp

theorem mem_rowsWhere_of {v : Int} (hv : values[row]? = some (some v)) :
    row ∈ rowsWhere values p ↔ p v = true := by
  rw [mem_rowsWhere]
  constructor
  · rintro ⟨w, hw, hp⟩
    rw [hv] at hw
    cases hw
    exact hp
  · exact fun hp => ⟨v, hv, hp⟩

def magnitude (values : List (Option Int)) (row : Nat) : Nat := (values[row]?.join.getD 0).natAbs

theorem magnitude_of {v : Int} (hv : values[row]? = some (some v)) : magnitude values row = v.natAbs := by
  rw [magnitude, hv]
  rfl

theorem mem_entries {entry : Option Int × Nat → Option (Nat × Nat)} (hnone : ∀ i, entry (none, i) = none)
    (hsome : ∀ v i, entry (some v, i) = if p v then some (i, v.natAbs) else none) (row n : Nat) :
    (row, n) ∈ values.zipIdx.filterMap entry ↔ row ∈ rowsWhere values p ∧ magnitude values row = n := by
  rw [mem_filterMap, mem_rowsWhere]
  constructor
  · rintro ⟨⟨value, i⟩, hmem, hentry⟩
    have hget := mem_zipIdx_iff_getElem?.mp hmem
    cases value with
    | none => cases (hnone i).symm.trans hentry
    | some v =>
      rw [hsome] at hentry
      split at hentry
      · next hv =>
        cases hentry
        exact ⟨⟨v, hget, hv⟩, magnitude_of hget⟩
      · cases hentry
  · rintro ⟨⟨v, hget, hv⟩, hn⟩
    rw [magnitude_of hget] at hn
    exact ⟨(some v, row), mem_zipIdx_iff_getElem?.mpr hget, by rw [hsome, if_pos hv, hn]⟩

theorem mem_positiveEntries (row n : Nat) : (row, n) ∈ positiveEntries values ↔
      row ∈ rowsWhere values (fun v => 0 ≤ v) ∧ magnitude values row = n := by
  refine mem_entries (fun _ => rfl) (fun v i => ?_) row n
  by_cases hv : v < 0
  · simp [hv]
  · rw [if_pos (decide_eq_true (not_lt.mp hv)), ← Int.toNat_of_nonneg (not_lt.mp hv)]
    exact if_neg (by omega)

theorem mem_negativeEntries (row n : Nat) : (row, n) ∈ negativeEntries values ↔
      row ∈ rowsWhere values (fun v => v < 0) ∧ magnitude values row = n :=
  mem_entries (fun _ => rfl) (fun v i => by simp) row n

/-! ## one half -/

/-- a half of the index, over the rows `rows` with the numbers `num` -/
structure Half (num : Nat → Nat) (rows : Finset Nat) (index : SliceIndex) : Prop where
  existing : index.existing = rows
  sliced : BitSlices.Sliced num rows 0 index.slices
  bounded : ∀ row ∈ rows, (num row : Int) ≤ index.max
  width : index.max < 2 ^ index.slices.length

variable {num : Nat → Nat} {rows : Finset Nat} {index : SliceIndex} {op : PredicateOperator} {value : Int}

/-- **A comparison in one half.** -/
theorem Half.mem_compare (h : Half num rows index) :
    row ∈ index.compare op value ↔ row ∈ rows ∧ stands op (num row) value = true := by
  obtain ⟨rfl, hsliced, hbounded, hwidth⟩ := h
  unfold SliceIndex.compare
  split
  · -- below every number
    next hneg =>
    cases op <;> simp [stands] <;> intros <;> omega
  · next hpos =>
    split
    · -- above every number
      next hmax =>
      have hlt : row ∈ index.existing → (num row : Int) < value := fun hrow =>
        (hbounded row hrow).trans_lt hmax
      cases op <;> simp [stands] <;> intro hrow <;> have := hlt hrow <;> omega
    · next hmax =>
      have hn : value.toNat < 2 ^ (0 + index.slices.length) := by
        rw [Nat.zero_add]
        zify
        omega
      have hspec := BitSlices.split_spec hsliced hn row
      simp only [pow_zero, Nat.div_one] at hspec
      obtain ⟨hless, hequal, hgreater⟩ := hspec
      have hvalue : (value.toNat : Int) = value := Int.toNat_of_nonneg (by omega)
      by_cases hrow : row ∈ index.existing
      · cases op <;> simp [stands, hless, hequal, hgreater, hrow] <;> omega
      · cases op <;> simp [stands, hless, hequal, hgreater, hrow]

/-! ## writing and reading a half -/

theorem lt_two_pow_bitWidth (n : Nat) : n < 2 ^ bitWidth n := by
  unfold bitWidth
  split
  · next h => simp [h]
  · exact Nat.lt_log2_self

theorem bitWidth_le {n k : Nat} (h : n < 2 ^ k) : bitWidth n ≤ k := by
  unfold bitWidth
  split
  · exact Nat.zero_le k
  · next hne => exact (Nat.log2_lt hne).mpr h

theorem foldl_max_le_iff {l : List Nat} {a b : Nat} : l.foldl max a ≤ b ↔ a ≤ b ∧ ∀ x ∈ l, x ≤ b := by
  induction l generalizing a with
  | nil => simp
  | cons x l ih =>
    rw [foldl_cons, ih, max_le_iff, forall_mem_cons, and_assoc]

def maxNumber (entries : List (Nat × Nat)) : Nat := (entries.map Prod.snd).foldl max 0

variable {entries : List (Nat × Nat)}

theorem maxNumber_le_iff {b : Nat} :
    maxNumber entries ≤ b ↔ ∀ p ∈ entries, p.2 ≤ b := by
  rw [maxNumber, foldl_max_le_iff, forall_mem_map, and_iff_right (Nat.zero_le b)]

def sliceIndexOf (entries : List (Nat × Nat)) : SliceIndex :=
  ⟨maxNumber entries, (entries.map Prod.fst).toFinset,
    BitSlices.scatterAll 64 entries (List.replicate (bitWidth (maxNumber entries)) ∅)⟩

section
variable {entries : List (Nat × Nat)} (hentries : ∀ row n, (row, n) ∈ entries ↔ row ∈ rows ∧ num row = n)
  (hsmall : ∀ row ∈ rows, num row < 2 ^ 63)
include hentries hsmall

theorem maxNumber_lt : maxNumber entries < 2 ^ 63 := by
  refine Nat.lt_of_le_pred (by decide) (maxNumber_le_iff.mpr ?_)
  rintro ⟨row, n⟩ hp
  obtain ⟨hrow, rfl⟩ := (hentries row n).mp hp
  exact Nat.le_pred_of_lt (hsmall row hrow)

theorem half_sliceIndexOf : Half num rows (sliceIndexOf entries) := by
  have hle : ∀ row ∈ rows, num row ≤ maxNumber entries := fun row hrow =>
    maxNumber_le_iff.mp (le_refl _) (row, num row) ((hentries row _).mpr ⟨hrow, rfl⟩)
  have hmax := lt_two_pow_bitWidth (maxNumber entries)
  have hwidth : bitWidth (maxNumber entries) ≤ 64 :=
    (bitWidth_le (maxNumber_lt hentries hsmall)).trans (by decide)
  refine ⟨?_, ?_, fun row hrow => Int.ofNat_le.mpr (hle row hrow), ?_⟩
  · ext row
    show row ∈ (entries.map Prod.fst).toFinset ↔ row ∈ rows
    rw [mem_toFinset, mem_map]
    constructor
    · rintro ⟨⟨row, n⟩, hp, rfl⟩
      exact ((hentries row n).mp hp).1
    · exact fun hrow => ⟨(row, num row), (hentries row _).mpr ⟨hrow, rfl⟩, rfl⟩
  · exact BitSlices.sliced_scatterAll hentries (fun row hrow => (hle row hrow).trans_lt hmax) hwidth
  · show ((maxNumber entries : Nat) : Int) < 2 ^ (BitSlices.scatterAll 64 entries _).length
    rw [BitSlices.length_scatterAll, length_replicate]
    exact_mod_cast hmax

end

theorem reads_u8 (label : String) (b : UInt8) : Reads (readU8 label) [b] b :=
  (reads_take (w := [b]) rfl (truncated label)).map fun bytes => bytes.headD 0

theorem fitsBytes_natCast {width n : Nat} (h : n < 2 ^ (8 * width - 1)) : BTree.FitsBytes width n := by
  constructor
  · have : (0 : Int) ≤ 2 ^ (8 * width - 1) := by positivity
    omega
  · exact_mod_cast h

variable {format : RoaringFormat} {rowCount : Nat}

theorem reads_bitmap (label : String) {bitmap : Finset Nat} (hrows : ∀ row ∈ bitmap, row < rowCount)
    (hcount : rowCount ≤ i32Max) : Reads (readBitmap format rowCount label) (format.serialize bitmap) bitmap := by
  have hfits : ∀ row ∈ bitmap, row < 2 ^ 32 := fun row hrow =>
    ((hrows row hrow).trans_le hcount).trans (by decide)
  exact ((format.reads bitmap hfits).withError _).bind_nil (.check hrows (reads_pure bitmap))

/-- **One half is read back.** -/
theorem reads_sliceIndex
    (hentries : ∀ row n, (row, n) ∈ entries ↔ row ∈ rows ∧ num row = n)
    (hsmall : ∀ row ∈ rows, num row < 2 ^ 63) (hrows : ∀ row ∈ rows, row < rowCount)
    (hcount : rowCount ≤ i32Max) :
    Reads (SliceIndex.read format rowCount) (writeSliceIndex format entries) (sliceIndexOf entries) := by
  have hhalf := half_sliceIndexOf hentries hsmall
  have hlt := maxNumber_lt hentries hsmall
  have hwidth : bitWidth (maxNumber entries) ≤ 63 := bitWidth_le hlt
  have hexisting : ∀ row ∈ (sliceIndexOf entries).existing, row < rowCount := by
    rw [hhalf.existing]
    exact hrows
  refine (reads_u8 _ 1).bind (.check rfl ?_)
  refine (reads_int (by decide) (by decide) _).bind ?_
  refine (reads_int (by decide) (fitsBytes_natCast hlt) _).bind (.check (by simp) ?_)
  refine (reads_bitmap "existence" hexisting hcount).bind ?_
  refine (reads_int (by decide) (fitsBytes_natCast (hwidth.trans_lt (by decide))) _).bind
    (.check (by simp [maxNumber]) ?_)
  have hlength : (sliceIndexOf entries).slices.length = bitWidth (maxNumber entries) := by
    rw [sliceIndexOf, BitSlices.length_scatterAll, length_replicate]
  rw [Int.toNat_natCast, ← hlength]
  refine Reads.bind_nil (reads_many (fun _ slice hslice => ?_) 0) (reads_pure _)
  -- every slice is part of the rows that exist
  obtain ⟨j, hj⟩ := mem_iff_getElem?.mp hslice
  have hsub : slice ⊆ (sliceIndexOf entries).existing := by
    intro row hrow
    rw [hhalf.existing]
    exact ((hhalf.sliced.mem j slice hj row).mp hrow).1
  exact (reads_bitmap "slice" (fun row hrow => hexisting row (hsub hrow)) hcount).bind_nil
    (.check hsub (reads_pure slice))

def halfOf (entries : List (Nat × Nat)) : Option SliceIndex :=
  if entries = [] then none else some (sliceIndexOf entries)

section
variable {entries : List (Nat × Nat)} (hentries : ∀ row n, (row, n) ∈ entries ↔ row ∈ rows ∧ num row = n)
  (hsmall : ∀ row ∈ rows, num row < 2 ^ 63)
include hentries hsmall

theorem reads_half (label : String) (hrows : ∀ row ∈ rows, row < rowCount) (hcount : rowCount ≤ i32Max) :
    Reads (BsiFileIndexReader.readHalf format rowCount label) (writeHalf format entries) (halfOf entries) := by
  unfold writeHalf halfOf
  split
  · exact (reads_u8 _ 0).bind_nil (reads_pure none)
  · exact (reads_u8 _ 1).bind ((reads_sliceIndex hentries hsmall hrows hcount).map some)

omit hsmall in
theorem rows_eq_empty (hnil : entries = []) (row : Nat) : row ∉ rows := by
  intro hrow
  have := (hentries row (num row)).mpr ⟨hrow, rfl⟩
  rw [hnil] at this
  exact absurd this not_mem_nil

theorem existing_halfOf : BsiFileIndexReader.existing (halfOf entries) = rows := by
  unfold halfOf
  split
  · next hnil => exact (Finset.eq_empty_of_forall_notMem (rows_eq_empty hentries hnil)).symm
  · exact (half_sliceIndexOf hentries hsmall).existing

theorem mem_compareHalf :
    row ∈ BsiFileIndexReader.compareHalf (halfOf entries) op value ↔
      row ∈ rows ∧ stands op (num row) value = true := by
  unfold halfOf
  split
  · next hnil => simp [BsiFileIndexReader.compareHalf, rows_eq_empty hentries hnil row]
  · exact (half_sliceIndexOf hentries hsmall).mem_compare

end

/-! ## both halves -/

def Encodable (values : List (Option Int)) : Prop :=
  ∀ v, some v ∈ values → i64Min < v ∧ v ≤ i64Max

def readerOf (t : TypeRoot) (values : List (Option Int)) : BsiFileIndexReader :=
  ⟨t, values.length, halfOf (positiveEntries values), halfOf (negativeEntries values)⟩

theorem halvesDisjoint_of {positive negative : Option SliceIndex}
    (h : Disjoint (BsiFileIndexReader.existing positive) (BsiFileIndexReader.existing negative)) :
    BsiFileIndexReader.halvesDisjoint positive negative = true := by
  cases positive with
  | none => rfl
  | some positive =>
    cases negative with
    | none => rfl
    | some negative => exact decide_eq_true h

section
variable (hvalues : Encodable values) (t : TypeRoot)
include hvalues

theorem magnitude_lt (hrow : row ∈ rowsWhere values p) : magnitude values row < 2 ^ 63 := by
  obtain ⟨v, hv, -⟩ := mem_rowsWhere.mp hrow
  obtain ⟨hlow, hhigh⟩ := hvalues v (mem_of_getElem? hv)
  rw [magnitude_of hv]
  unfold i64Min at hlow
  unfold i64Max at hhigh
  omega

theorem existing_positive :
    BsiFileIndexReader.existing (halfOf (positiveEntries values)) = rowsWhere values fun v => 0 ≤ v :=
  existing_halfOf mem_positiveEntries fun _ => magnitude_lt hvalues

theorem existing_negative :
    BsiFileIndexReader.existing (halfOf (negativeEntries values)) = rowsWhere values fun v => v < 0 :=
  existing_halfOf mem_negativeEntries fun _ => magnitude_lt hvalues

theorem disjoint_halves : BsiFileIndexReader.halvesDisjoint (halfOf (positiveEntries values))
    (halfOf (negativeEntries values)) = true := by
  refine halvesDisjoint_of ?_
  rw [existing_positive hvalues, existing_negative hvalues]
  refine Finset.disjoint_left.mpr fun row hpos hneg => ?_
  obtain ⟨v, hv, hle⟩ := mem_rowsWhere.mp hpos
  rw [mem_rowsWhere_of hv] at hneg
  simp only [decide_eq_true_eq] at hle hneg
  omega

/-- **What was written is read back.** -/
theorem reads_back (format : RoaringFormat) (ht : validateType t = .ok ()) (hlen : values.length ≤ i32Max) :
    ∃ bytes, BsiFileIndexWriter.serializedBytes format ⟨t, values⟩ = .ok bytes ∧
      BsiFileIndexReader.tryNew format t bytes = .ok (readerOf t values) := by
  refine ⟨_, if_neg (Nat.not_lt.mpr hlen), ?_⟩
  have hrows : ∀ p, ∀ row ∈ rowsWhere values p, row < values.length := fun p row hrow =>
    Finset.mem_range.mp (Finset.mem_filter.mp hrow).1
  have hfits : BTree.FitsBytes 4 (values.length : Int) := fitsBytes_natCast (Nat.lt_succ_of_le hlen)
  have hread : Reads (BsiFileIndexReader.readAll format) _ _ :=
    (reads_u8 "version" 1).bind <| .check rfl <| (reads_int (by decide) hfits _).bind <|
      .check (Int.natCast_nonneg _) <|
      (reads_half mem_positiveEntries (fun row => magnitude_lt hvalues) "positive" (hrows _) hlen).bind <|
      (reads_half mem_negativeEntries (fun row => magnitude_lt hvalues) "negative" (hrows _) hlen).bind_nil <|
      reads_pure (values.length, halfOf (positiveEntries values), halfOf (negativeEntries values))
  unfold BsiFileIndexReader.tryNew
  simp only [ht, hread.all, bind, Except.bind, disjoint_halves hvalues, if_true, ne_eq, not_true_eq_false, if_false]
  rfl

/-- **The comparisons select the rows in the relation.** -/
theorem compare_readerOf (op : PredicateOperator) (c : Int) :
    (readerOf t values).compare op c = rowsWhere values fun v => stands op v c := by
  ext row
  have hexPos : row ∈ BsiFileIndexReader.existing (readerOf t values).positive ↔ _ :=
    Finset.ext_iff.mp (existing_positive hvalues) row
  have hexNeg : row ∈ BsiFileIndexReader.existing (readerOf t values).negative ↔ _ :=
    Finset.ext_iff.mp (existing_negative hvalues) row
  have hpos : ∀ op n, row ∈ BsiFileIndexReader.compareHalf (readerOf t values).positive op n ↔ _ := fun op n =>
    mem_compareHalf mem_positiveEntries fun _ => magnitude_lt hvalues
  have hneg : ∀ op n, row ∈ BsiFileIndexReader.compareHalf (readerOf t values).negative op n ↔ _ := fun op n =>
    mem_compareHalf mem_negativeEntries fun _ => magnitude_lt hvalues
  have hnonNull : row ∈ (readerOf t values).nonNull ↔ _ := Finset.mem_union.trans (or_congr hexPos hexNeg)
  unfold BsiFileIndexReader.compare
  by_cases hv : ∃ v, values[row]? = some (some v)
  · obtain ⟨v, hv⟩ := hv
    have hmin := (hvalues v (mem_of_getElem? hv)).1
    simp only [mem_rowsWhere_of hv, magnitude_of hv, decide_eq_true_eq] at hexPos hexNeg hpos hneg hnonNull ⊢
    split
    · -- every value is greater
      next hc => cases op <;> simp [stands, hnonNull] <;> omega
    · split <;> cases op <;>
        simp only [stands, Finset.mem_union, Finset.mem_sdiff, Finset.notMem_empty, hexPos, hexNeg, hpos, hneg,
          hnonNull, decide_eq_true_eq, Bool.false_eq_true] <;> omega
  · have hnone : ∀ p, row ∉ rowsWhere values p := fun p hrow =>
      hv ((mem_rowsWhere.mp hrow).imp fun v h => h.1)
    simp only [hnone, false_and, or_false] at hexPos hexNeg hpos hneg hnonNull
    split <;> [skip; split] <;> cases op <;> simp [hexPos, hexNeg, hpos, hneg, hnonNull, hnone]

theorem nonNull_readerOf : (readerOf t values).nonNull = rowsWhere values fun _ => true := by
  show BsiFileIndexReader.existing _ ∪ BsiFileIndexReader.existing _ = _
  rw [readerOf, existing_positive hvalues, existing_negative hvalues]
  ext row
  simp only [Finset.mem_union, mem_rowsWhere, decide_eq_true_eq, and_true, ← exists_or, ← and_or_left]
  exact exists_congr fun v => and_iff_left (le_or_gt 0 v)

theorem literalRows_readerOf {literals : List Datum} {cs : List Int}
    (hcs : literals.mapM (mappedValue t) = some cs) :
    (readerOf t values).literalRows literals = some (rowsWhere values fun v => decide (v ∈ cs)) := by
  suffices h : ∀ rows, literals.foldlM (fun rows literal =>
      (mappedValue t literal).map fun c => rows ∪ (readerOf t values).compare .eq c) rows =
        some (rows ∪ rowsWhere values fun v => decide (v ∈ cs)) by
    refine (h ∅).trans ?_
    rw [Finset.empty_union]
  induction literals generalizing cs with
  | nil =>
    intro rows
    obtain rfl : cs = [] := by simpa using hcs.symm
    have hempty : rowsWhere values (fun v => decide (v ∈ ([] : List Int))) = ∅ := by
      ext row
      simp [mem_rowsWhere]
    rw [hempty, Finset.union_empty]
    rfl
  | cons literal literals ih =>
    intro rows
    rw [mapM_cons] at hcs
    obtain ⟨c, hc, hrest⟩ := Option.bind_eq_some_iff.mp hcs
    obtain ⟨cs', hcs', hcons⟩ := Option.bind_eq_some_iff.mp hrest
    cases hcons
    rw [foldlM_cons, hc]
    show literals.foldlM _ (rows ∪ (readerOf t values).compare .eq c) = _
    rw [ih hcs', compare_readerOf hvalues, Finset.union_assoc]
    congr 2
    ext row
    simp only [Finset.mem_union, mem_rowsWhere, stands, decide_eq_true_eq, mem_cons, ← exists_or,
      ← and_or_left]

end

/-! ## writing values -/

variable {t : TypeRoot}

theorem write_ok {done : List (Option Int)} {datum : Option Datum} {value : Option Int}
    (hlen : done.length < i32Max) (hmap : datum.map (mappedValue t) = value.map some)
    (hvalue : value ≠ some i64Min) :
    BsiFileIndexWriter.write ⟨t, done⟩ datum = .ok ⟨t, done ++ [value]⟩ := by
  unfold BsiFileIndexWriter.write
  rw [if_neg (Nat.not_le.mpr hlen)]
  cases datum with
  | none =>
    cases value with
    | none => rfl
    | some v => cases hmap
  | some d =>
    cases value with
    | none => cases hmap
    | some v =>
      have hd : mappedValue t d = some v := Option.some.inj hmap
      have hv : v ≠ i64Min := fun h => hvalue (congrArg some h)
      simp only [hd, hv, if_false]

/-- **The writer takes a list of values.** -/
theorem foldlM_write {rows : List (Option Datum)} {values : List (Option Int)}
    (hmap : rows.map (Option.map (mappedValue t)) = values.map (Option.map some))
    (hvalues : some i64Min ∉ values) (done : List (Option Int)) (hlen : (done ++ values).length ≤ i32Max) :
    rows.foldlM BsiFileIndexWriter.write ⟨t, done⟩ = .ok ⟨t, done ++ values⟩ := by
  induction values generalizing rows done with
  | nil =>
    obtain rfl : rows = [] := map_eq_nil_iff.mp hmap
    rw [append_nil]
    rfl
  | cons value values ih =>
    cases rows with
    | nil => cases hmap
    | cons datum rows =>
      obtain ⟨hd, hrest⟩ := List.cons.inj hmap
      obtain ⟨hne, hnotMem⟩ := ne_and_not_mem_of_not_mem_cons hvalues
      rw [length_append, length_cons] at hlen
      rw [foldlM_cons, write_ok (by omega) hd hne.symm, append_cons done value values]
      refine ih hrest hnotMem _ ?_
      rw [length_append, length_append, length_singleton]
      omega

/-! ## the index as a whole -/

/-- types whose timestamps are not cut -/
def Whole (t : TypeRoot) : Prop :=
  ∀ precision, t = .timestamp precision ∨ t = .localZonedTimestamp precision → precision ≤ 6

theorem truncatedTimestamp_readerOf (ht : Whole t) (values : List (Option Int)) :
    (readerOf t values).truncatedTimestamp = false := by
  unfold BsiFileIndexReader.truncatedTimestamp readerOf
  split
  · next precision heq => exact decide_eq_false (Nat.not_lt.mpr (ht precision (.inl heq)))
  · next precision heq => exact decide_eq_false (Nat.not_lt.mpr (ht precision (.inr heq)))
  · rfl

theorem rowsWhere_inter (values : List (Option Int)) (p q : Int → Bool) :
    rowsWhere values p ∩ rowsWhere values q = rowsWhere values fun v => p v && q v := by
  ext row
  simp only [rowsWhere, Finset.mem_inter, Finset.mem_filter]
  cases values[row]?.join <;> simp +contextual [and_assoc]

theorem rowsWhere_sdiff (values : List (Option Int)) (p q : Int → Bool) :
    rowsWhere values p \ rowsWhere values q = rowsWhere values fun v => p v && !q v := by
  ext row
  simp only [rowsWhere, Finset.mem_sdiff, Finset.mem_filter]
  cases values[row]?.join <;> simp +contextual [and_assoc]

/-- **Comparisons on the index are exact.**  The writer takes the values and writes them, the reader accepts
the bytes, and what it selects for a comparison with any number are the rows of the values in that relation to
it; so are the rows of sets and of ranges of literals. -/
theorem bsi_comparison_exact (format : RoaringFormat) {t : TypeRoot} (ht : validateType t = .ok ())
    {rows : List (Option Datum)} {values : List (Option Int)}
    (hmap : rows.map (Option.map (mappedValue t)) = values.map (Option.map some))
    (hvalues : ∀ v, some v ∈ values → i64Min < v ∧ v ≤ i64Max) (hlen : values.length ≤ i32Max) :
    ∃ writer bytes reader, BsiFileIndexWriter.tryNew t >>= rows.foldlM BsiFileIndexWriter.write = .ok writer ∧
      writer.serializedBytes format = .ok bytes ∧
      BsiFileIndexReader.tryNew format t bytes = .ok reader ∧
      (∀ op ∈ [PredicateOperator.eq, .notEq, .lt, .ltEq, .gt, .gtEq], ∀ c,
        reader.compare op c = rowsWhere values fun v => stands op v c) ∧
      (Whole t → (∀ op ∈ [PredicateOperator.eq, .notEq, .lt, .ltEq, .gt, .gtEq], ∀ literal more c,
          mappedValue t literal = some c →
            reader.evaluate op (literal :: more) = .selection (rowsWhere values fun v => stands op v c)) ∧
        (∀ literals cs, literals.mapM (mappedValue t) = some cs →
          reader.evaluate .isIn literals = .selection (rowsWhere values fun v => decide (v ∈ cs)) ∧
          reader.evaluate .notIn literals = .selection (rowsWhere values fun v => decide (v ∉ cs))) ∧
        (∀ low high lower upper, mappedValue t low = some lower → mappedValue t high = some upper →
          reader.evaluate .between [low, high] =
            .selection (rowsWhere values fun v => decide (lower ≤ v ∧ v ≤ upper)))) := by
  have hne : some i64Min ∉ values := fun h => absurd (hvalues _ h).1 (lt_irrefl _)
  obtain ⟨bytes, hbytes, hreader⟩ := reads_back hvalues t format ht hlen
  refine ⟨⟨t, values⟩, bytes, readerOf t values, ?_, hbytes, hreader, fun op _ c => compare_readerOf hvalues t op c,
    fun hwhole => ⟨?_, ?_, ?_⟩⟩
  · rw [BsiFileIndexWriter.tryNew, ht]
    exact foldlM_write hmap hne [] hlen
  · intro op hop literal more c hc
    have hcompare := compare_readerOf hvalues t op c
    have htrunc := truncatedTimestamp_readerOf hwhole values
    have hc' : mappedValue (readerOf t values).dataType literal = some c := hc
    simp only [mem_cons, not_mem_nil, or_false] at hop
    rcases hop with rfl | rfl | rfl | rfl | rfl | rfl <;>
      simp only [BsiFileIndexReader.evaluate, head?_cons, Option.bind_some, hc', htrunc,
        Bool.false_eq_true, if_false, hcompare]
  · intro literals cs hcs
    have htrunc := truncatedTimestamp_readerOf hwhole values
    have hrows := literalRows_readerOf hvalues t hcs
    simp only [BsiFileIndexReader.evaluate, htrunc, hrows, Bool.false_eq_true, if_false, true_and,
      nonNull_readerOf hvalues, rowsWhere_sdiff, Bool.true_and, decide_not]
  · intro low high lower upper hlow hhigh
    have htrunc := truncatedTimestamp_readerOf hwhole values
    have hlow' : mappedValue (readerOf t values).dataType low = some lower := hlow
    have hhigh' : mappedValue (readerOf t values).dataType high = some upper := hhigh
    simp only [BsiFileIndexReader.evaluate, htrunc, hlow', hhigh', Bool.false_eq_true, if_false,
      compare_readerOf hvalues, rowsWhere_inter, stands, Bool.decide_and]

/-- Both signs, zero, a NULL and the greatest number, compared with numbers at the ends of the range. -/
theorem bsi_comparison_at_ends : ∃ writer bytes reader,
    BsiFileIndexWriter.tryNew .bigInt >>= [some (Datum.long 5), none, some (.long (-3)), some (.long 0),
      some (.long 9223372036854775807)].foldlM BsiFileIndexWriter.write = .ok writer ∧
    writer.serializedBytes plainFormat = .ok bytes ∧
    BsiFileIndexReader.tryNew plainFormat .bigInt bytes = .ok reader ∧
    reader.compare .gt i64Min = {0, 2, 3, 4} ∧ reader.compare .ltEq i64Min = ∅ ∧
    reader.compare .lt 0 = {2} ∧ reader.compare .gtEq (-3) = {0, 2, 3, 4} ∧
    reader.evaluate .notIn [.long 5, .long (-4)] = .selection {2, 3, 4} ∧
    reader.evaluate .between [.long (-3), .long 4] = .selection {2, 3} := by
  obtain ⟨writer, bytes, reader, hwriter, hbytes, hreader, hcompare, hevaluate⟩ :=
    @bsi_comparison_exact plainFormat .bigInt rfl
      [some (.long 5), none, some (.long (-3)), some (.long 0), some (.long 9223372036854775807)]
      [some 5, none, some (-3), some 0, some 9223372036854775807] rfl
      (by simp [i64Min, i64Max]) (by decide)
  obtain ⟨-, hin, hbetween⟩ := hevaluate (by rintro _ (h | h) <;> cases h)
  refine ⟨writer, bytes, reader, hwriter, hbytes, hreader, ?_, ?_, ?_, ?_, ?_, ?_⟩
  · exact (hcompare .gt (by simp) _).trans (by decide)
  · exact (hcompare .ltEq (by simp) _).trans (by decide)
  · exact (hcompare .lt (by simp) _).trans (by decide)
  · exact (hcompare .gtEq (by simp) _).trans (by decide)
  · exact ((hin _ [5, -4] rfl).2).trans (congrArg _ (by decide))
  · exact (hbetween _ _ (-3) 4 rfl rfl).trans (congrArg _ (by decide))

end Paimon.FileIndex.Bsi
