import Paimon.Lib.Odometer
import Paimon.Lib.Traverse
import Paimon.Predicate.Row
import Paimon.Spec.BinaryRowRoundTrip

/-!
# Partition filters

`table/partition_filter.rs`.  A filter decides about the serialized partition of a manifest entry
(`matchesEntry`) and, from the partition statistics of a manifest, about all of its entries at once
(`matchesManifest`).  Equalities on every partition field become a set of partitions with bounds per
field; everything else stays a predicate.

* `fromPredicate`, `fromPartitionSet`: how filters are made;
* `Built`: the filters that are;
* `matchesManifest_sound`: a manifest with an entry that passes is not skipped, as long as no NaN is among
  the literals or in the set.
-/

set_option linter.unusedSectionVars false

namespace Paimon.Scan

open List

structure DataField where
  name : String
  dataType : DataType
deriving DecidableEq, Repr

structure BinaryTableStats where
  minValues : Bytes
  maxValues : Bytes
  nullCounts : List (Option Int)
deriving DecidableEq, Repr

structure FieldBounds where
  min : Predicate
  max : Predicate

structure FieldCandidates where
  predicate : Predicate
  dataType : DataType
  values : List (Option Datum)

inductive PartitionFilter where
  | partitionSet (partitions : List Bytes) (bounds : List FieldBounds)
  | predicate (p : Predicate)

/-! ## from a predicate -/

def candidateValues (op : PredicateOperator) (literals : List Datum) : Option (List (Option Datum)) :=
  match op, literals with
  | .eq, l :: _ => some [some l]
  | .isIn, l :: rest => some ((l :: rest).map some)
  | .isNull, _ => some [none]
  | _, _ => none

/-- candidates per field, and what else the predicate asks -/
abbrev Collected := List (Option FieldCandidates) × List Predicate

def collectLeaf (p : Predicate) (index : Nat) (dataType : DataType) (op : PredicateOperator)
    (literals : List Datum) (st : Collected) : Collected :=
  match st.1[index]? with
  | none => (st.1, st.2 ++ [p])
  | some previous =>
    match candidateValues op literals with
    | none => (st.1, st.2 ++ [p])
    | some values =>
      -- a later constraint on the same field does not supersede the earlier one
      (st.1.set index (some ⟨p, dataType, values⟩),
        st.2 ++ (previous.map FieldCandidates.predicate).toList)

mutual

def collectEqCandidates : Predicate → Collected → Collected
  | .and children, st => collectChildren children st
  | .leaf column index dataType op literals, st =>
    collectLeaf (.leaf column index dataType op literals) index dataType op literals st
  | p, st => (st.1, st.2 ++ [p])

def collectChildren : List Predicate → Collected → Collected
  | [], st => st
  | child :: children, st => collectChildren children (collectEqCandidates child st)

end

/-- the candidate of each field that the counter points to -/
def combination (candidates : List FieldCandidates) (combo : List Nat) : List (Option Datum) :=
  List.zipWith (fun (c : FieldCandidates) i => c.values.getD i none) candidates combo

/-- `Option<Datum>` equality, by value -/
def sameValue : Option Datum → Option Datum → Bool
  | none, none => true
  | some a, some b => datumEq a b
  | _, _ => false

def encodedAsIs (row : BinaryRow) (candidates : List FieldCandidates) (datums : List (Option Datum)) :
    Bool :=
  (candidates.zip datums).zipIdx.all fun x =>
    match extractDatum row x.2 x.1.1.dataType.root with
    | .ok value => sameValue value x.1.2
    | .error _ => false

/-- one turn of the loop: `none` gives up the set, `some none` leaves the combination out -/
def admits (fields : List DataField) (candidates : List FieldCandidates)
    (residuals : List Predicate) (combo : List Nat) : Option (Option Bytes) :=
  let datums := combination candidates combo
  let row := BinaryRow.fromDatums (datums.zip (fields.map fun f => f.dataType.root))
  if encodedAsIs row candidates datums then
    match evalAll row residuals with
    | .ok true => some (some row.toSerializedBytes)
    | .ok false => some none
    | .error _ => none
  else none

/-! ## bounds -/

/-- `validate_datum_matches_type` -/
def datumMatchesType (d : Datum) (t : TypeRoot) : Bool :=
  t.literalKind == some d.kind || (t == .variant && d.kind == .variant)

/-- a comparison built by `PredicateBuilder`; field names are distinct, so the name of a field
resolves to its index -/
def comparisonLeaf (field : DataField) (index : Nat) (op : PredicateOperator) (literal : Datum) :
    Option Predicate :=
  if datumMatchesType literal field.dataType.root then
    some (.leaf field.name index field.dataType op [literal])
  else none

def isNullLeaf (field : DataField) (index : Nat) : Predicate :=
  .leaf field.name index field.dataType .isNull []

def orderOf (a b : Datum) : Ordering := (datumCmp a b).getD .eq

/-- `Iterator::min_by`: the first of the least -/
def minBy (first : Datum) (rest : List Datum) : Datum :=
  rest.foldl (fun best d => if orderOf best d = .gt then d else best) first

/-- `Iterator::max_by`: the last of the greatest -/
def maxBy (first : Datum) (rest : List Datum) : Datum :=
  rest.foldl (fun best d => if orderOf best d = .gt then best else d) first

def buildFieldBounds (field : DataField) (index : Nat) (values : List (Option Datum)) : Option FieldBounds :=
  match values.filterMap id with
  | [] => some ⟨isNullLeaf field index, isNullLeaf field index⟩
  | d :: rest => do
    let low ← comparisonLeaf field index .gtEq (minBy d rest)
    let high ← comparisonLeaf field index .ltEq (maxBy d rest)
    if values.any Option.isNone then
      some ⟨.or [isNullLeaf field index, low], .or [isNullLeaf field index, high]⟩
    else some ⟨low, high⟩

def buildBounds (fields : List DataField) (values : List (List (Option Datum))) : Option (List FieldBounds) :=
  (fields.zip values).zipIdx.mapM fun x => buildFieldBounds x.1.1 x.2 x.1.2

def fromPredicate (p : Predicate) (fields : List DataField) : PartitionFilter :=
  if fields.isEmpty then .predicate p
  else
    let (candidates, residuals) := collectEqCandidates p (fields.map fun _ => none, [])
    match candidates.mapM id with
    | none => .predicate p
    | some candidates =>
      match (Odometer.visited (candidates.map fun c => c.values.length)).mapM
        (admits fields candidates residuals) with
      | none => .predicate p
      | some partitions =>
        match buildBounds fields (candidates.map FieldCandidates.values) with
        | none => .predicate p
        | some bounds => .partitionSet (partitions.filterMap id) bounds

/-! ## from a set of partitions -/

def malformedRow : Error := .dataInvalid "BinaryRow: malformed serialized bytes"

def partitionValues (fields : List DataField) (bytes : Bytes) : Result (List (Option Datum)) :=
  match fromSerializedBytes bytes with
  | none => .error malformedRow
  | some row => fields.zipIdx.mapM fun x => extractDatum row x.2 x.1.dataType.root

def columnOf (rows : List (List (Option Datum))) (i : Nat) : List (Option Datum) :=
  rows.map fun row => row.getD i none

/-- the set is walked in some order; a field without bounds leaves the set without bounds -/
def fromPartitionSet (partitions : List Bytes) (fields : List DataField) : Result PartitionFilter := do
  let rows ← partitions.mapM (partitionValues fields)
  let bounds := buildBounds fields ((List.range fields.length).map (columnOf rows))
  .ok (.partitionSet partitions (bounds.getD []))

/-! ## matching -/

def PartitionFilter.matchesEntry (filter : PartitionFilter) (partition : Bytes) : Result Bool :=
  match filter with
  | .partitionSet partitions _ => .ok (partitions.contains partition)
  | .predicate p =>
    match fromSerializedBytes partition with
    | some row => evalRow row p
    | none => .ok true

/-- an entry whose partition cannot be evaluated passes -/
def PartitionFilter.passes (filter : PartitionFilter) (partition : Bytes) : Bool :=
  match filter.matchesEntry partition with
  | .ok b => b
  | .error _ => true

/-- `extract_stats_datum` -/
def statsDatum (row : Option BinaryRow) (index : Nat) (t : TypeRoot) : Option Datum :=
  match row with
  | none => none
  | some row =>
    if row.arity ≤ index ∨ row.data.length < calFixPartSizeInBytes row.arity then none
    else
      match extractDatum row index t with
      | .ok v => v
      | .error _ => none

/-- `FileStatsRows::for_manifest_partition` -/
def manifestStats (files : Int) (stats : BinaryTableStats) : StatsAccessor where
  rowCount := files
  nullCount i := stats.nullCounts.getD i none
  minValue i t := statsDatum (fromSerializedBytes stats.minValues) i t.root
  maxValue i t := statsDatum (fromSerializedBytes stats.maxValues) i t.root

mutual

def mayMatch (stats : StatsAccessor) (fields : List DataField) : Predicate → Bool
  | .alwaysTrue => true
  | .alwaysFalse => false
  | .and children => mayMatchAll stats fields children
  | .or children => mayMatchAny stats fields children
  | .not _ => true
  | .leaf _ index dataType op literals =>
    match fields[index]? with
    | none => true
    | some field => dataLeafMayMatch index field.dataType dataType op literals stats

def mayMatchAll (stats : StatsAccessor) (fields : List DataField) : List Predicate → Bool
  | [] => true
  | child :: children => mayMatch stats fields child && mayMatchAll stats fields children

def mayMatchAny (stats : StatsAccessor) (fields : List DataField) : List Predicate → Bool
  | [] => false
  | child :: children => mayMatch stats fields child || mayMatchAny stats fields children

end

def PartitionFilter.matchesManifest (filter : PartitionFilter) (files : Int)
    (stats : BinaryTableStats) (fields : List DataField) : Bool :=
  if fields.isEmpty then true
  else
    match filter with
    | .partitionSet _ bounds =>
      bounds.all fun b => mayMatch (manifestStats files stats) fields b.min &&
        mayMatch (manifestStats files stats) fields b.max
    | .predicate p => mayMatch (manifestStats files stats) fields p

/-! ## Predicates a builder builds -/

def onText : PredicateOperator → Bool
  | .startsWith => true
  | .endsWith => true
  | .contains => true
  | .like => true
  | _ => false

def onArrays : PredicateOperator → Bool
  | .arrayContains => true
  | .arraysOverlap => true
  | .arrayContainsAll => true
  | _ => false

/-- what `PredicateBuilder` checks of a leaf on a partition field -/
structure LeafTyped (fields : List DataField) (index : Nat) (dataType : DataType)
    (op : PredicateOperator) (literals : List Datum) : Prop where
  field : ∃ f, fields[index]? = some f ∧ dataType.root = f.dataType.root
  kinds : ∀ l ∈ literals, dataType.root.literalKind = some l.kind
  noArrays : onArrays op = false
  range : op = .between ∨ op = .notBetween → ∃ low high, literals = [low, high]
  text : onText op = true → ∃ p, literals = [.string p]

inductive Typed (fields : List DataField) : Predicate → Prop where
  | leaf {column : String} {index : Nat} {dataType : DataType} {op : PredicateOperator}
      {literals : List Datum} (h : LeafTyped fields index dataType op literals) :
      Typed fields (.leaf column index dataType op literals)
  | and {children : List Predicate} (h : ∀ c ∈ children, Typed fields c) :
      Typed fields (.and children)
  | or {children : List Predicate} (h : ∀ c ∈ children, Typed fields c) :
      Typed fields (.or children)
  | not {inner : Predicate} (h : Typed fields inner) : Typed fields (.not inner)
  | alwaysTrue : Typed fields .alwaysTrue
  | alwaysFalse : Typed fields .alwaysFalse

/-- no NOT BETWEEN with a NaN -/
inductive NanFree : Predicate → Prop where
  | leaf {column : String} {index : Nat} {dataType : DataType} {op : PredicateOperator}
      {literals : List Datum} (h : op = .notBetween → ∀ l ∈ literals, l.isNan = false) :
      NanFree (.leaf column index dataType op literals)
  | and {children : List Predicate} (h : ∀ c ∈ children, NanFree c) : NanFree (.and children)
  | or {children : List Predicate} (h : ∀ c ∈ children, NanFree c) : NanFree (.or children)
  | not {inner : Predicate} (h : NanFree inner) : NanFree (.not inner)
  | alwaysTrue : NanFree .alwaysTrue
  | alwaysFalse : NanFree .alwaysFalse

/-- the statistics of a manifest say what they should about one of its partitions -/
def PartitionCovered (fields : List DataField) (files : Int) (stats : BinaryTableStats)
    (partition : Bytes) : Prop :=
  ∃ row, fromSerializedBytes partition = some row ∧ ∀ i f, fields[i]? = some f →
    ∃ v, extractDatum row i f.dataType.root = .ok v ∧
      ValueCovered (manifestStats files stats) i f.dataType v

/-! ## Values of rows -/

variable {row : BinaryRow} {t : TypeRoot} {d : Datum}

theorem extractDatum_kind {pos : Nat}
    (h : extractDatum row pos t = .ok (some d)) : t.rowKind = some d.kind ∧ d.kind ≠ .variant := by
  unfold extractDatum at h
  split at h
  · next v hv =>
    obtain rfl := Except.ok.inj h
    have hk := getDatum_kind hv
    refine ⟨hk, fun hvar => ?_⟩
    -- a VARIANT is not read
    rw [hvar] at hk
    have ht : t = .variant := by cases t <;> first | rfl | cases hk
    subst ht
    unfold BinaryRow.getDatum at hv
    split at hv
    · cases hv
    · obtain ⟨x, hx, -⟩ := Option.map_eq_some_iff.mp hv
      obtain ⟨p, hp, -⟩ := Option.map_eq_some_iff.mp hx
      obtain ⟨bytes, -, hdec⟩ := Option.bind_eq_some_iff.mp hp
      unfold decodeVariantBytes at hdec
      obtain ⟨n, -, hdec⟩ := Option.bind_eq_some_iff.mp hdec
      dsimp only at hdec
      split at hdec
      · cases hdec
      · cases hdec
  · cases h

/-! ## A predicate on a covered partition -/

variable {children : List Predicate} {p : Predicate} {op : PredicateOperator} {stats : StatsAccessor}
  {literals : List Datum}

variable {dataType : DataType} {index : Nat}

section
variable {fields : List DataField} {row : BinaryRow}

theorem evalLeaf_ok
    (ht : LeafTyped fields index dataType op literals) {v : Option Datum}
    (hk : ∀ d, v = some d → dataType.root.rowKind = some d.kind ∧ d.kind ≠ .variant) :
    ∃ b, evalLeaf op v literals = .ok b := by
  cases v with
  | none => cases op <;> exact ⟨_, rfl⟩
  | some d =>
    obtain ⟨hrow, hvar⟩ := hk d rfl
    have htext : onText op = true → ∀ f : Text → Text → Bool,
        ∃ b, evalText f d literals = .ok b := fun hop f => by
      obtain ⟨p, rfl⟩ := ht.text hop
      have hstring := ht.kinds (.string p) mem_cons_self
      rw [literalKind_of_rowKind hrow hvar] at hstring
      have hd : d.kind = .string := Option.some.inj hstring
      cases d <;> first | exact ⟨_, rfl⟩ | cases hd
    have hrange : op = .between ∨ op = .notBetween → ∃ b, evalBetween d literals = .ok b :=
      fun hop => by
        obtain ⟨low, high, rfl⟩ := ht.range hop
        exact ⟨_, rfl⟩
    cases op
    case startsWith => exact htext rfl _
    case endsWith => exact htext rfl _
    case contains => exact htext rfl _
    case like => exact htext rfl _
    case between => exact hrange (.inl rfl)
    case notBetween =>
      obtain ⟨b, hb⟩ := hrange (.inr rfl)
      refine ⟨!b, ?_⟩
      show (evalBetween d literals).map (!·) = _
      rw [hb]
      rfl
    case arrayContains => exact absurd ht.noArrays (by decide)
    case arraysOverlap => exact absurd ht.noArrays (by decide)
    case arrayContainsAll => exact absurd ht.noArrays (by decide)
    all_goals exact ⟨_, rfl⟩

theorem evalAny_true (h : evalAny row children = .ok true) : ∃ c ∈ children, evalRow row c = .ok true := by
  induction children with
  | nil => cases h
  | cons child children ih =>
    rw [evalAny] at h
    split at h
    · cases h
    · next hchild => exact ⟨child, mem_cons_self, hchild⟩
    · obtain ⟨c, hc, hrow⟩ := ih h
      exact ⟨c, mem_cons_of_mem child hc, hrow⟩

theorem mayMatchAll_iff :
    mayMatchAll stats fields children = true ↔ ∀ c ∈ children, mayMatch stats fields c = true := by
  induction children with
  | nil => simp [mayMatchAll]
  | cons child children ih => simp [mayMatchAll, ih]

theorem mayMatchAny_iff :
    mayMatchAny stats fields children = true ↔ ∃ c ∈ children, mayMatch stats fields c = true := by
  induction children with
  | nil => simp [mayMatchAny]
  | cons child children ih => simp [mayMatchAny, ih]

def Decodes (fields : List DataField) (row : BinaryRow) : Prop :=
  ∀ i f, fields[i]? = some f → ∃ v, extractDatum row i f.dataType.root = .ok v

theorem evalRow_ok (hrow : Decodes fields row) (hp : Typed fields p) : ∃ b, evalRow row p = .ok b := by
  induction hp with
  | leaf h =>
    obtain ⟨f, hf, hroot⟩ := h.field
    obtain ⟨v, hv⟩ := hrow _ f hf
    rw [evalRow, hroot, hv]
    refine evalLeaf_ok h fun d hd => ?_
    subst hd
    rw [hroot]
    exact extractDatum_kind hv
  | and _ ih =>
    rw [evalRow]
    exact evalAll_ok ih
  | or _ ih =>
    rw [evalRow]
    exact evalAny_ok ih
  | not _ ih =>
    obtain ⟨b, hb⟩ := ih
    rw [evalRow, hb]
    exact ⟨!b, rfl⟩
  | alwaysTrue => exact ⟨true, rfl⟩
  | alwaysFalse => exact ⟨false, rfl⟩

/-- **A predicate that holds on a partition is not excluded by statistics that cover it.** -/
theorem evalRow_mayMatch (hcov : ∀ i f, fields[i]? = some f →
      ∃ v, extractDatum row i f.dataType.root = .ok v ∧ ValueCovered stats i f.dataType v)
    (hp : Typed fields p) (hn : NanFree p) (h : evalRow row p = .ok true) :
    mayMatch stats fields p = true := by
  induction hp with
  | @leaf column index dataType op literals ht =>
    obtain ⟨f, hf, hroot⟩ := ht.field
    obtain ⟨v, hv, hvalue⟩ := hcov index f hf
    rw [evalRow, hroot, hv] at h
    rw [mayMatch, hf]
    refine evalLeaf_mayMatch hroot (fun d hd => ?_) hvalue (fun hop l hl => ?_) h
    · subst hd
      exact extractDatum_kind hv
    · cases hn with
      | leaf hn => exact ⟨hroot ▸ ht.kinds l hl, hn hop l hl⟩
  | and _ ih =>
    rw [evalRow] at h
    cases hn with
    | and hn =>
      rw [mayMatch, mayMatchAll_iff]
      exact fun c hc => ih c hc (hn c hc) (evalAll_true_iff.mp h c hc)
  | or _ ih =>
    rw [evalRow] at h
    cases hn with
    | or hn =>
      rw [mayMatch, mayMatchAny_iff]
      obtain ⟨c, hc, hrow⟩ := evalAny_true h
      exact ⟨c, hc, ih c hc (hn c hc) hrow⟩
  | not | alwaysTrue => rfl
  | alwaysFalse => cases h

end

/-! ## Bounds of a set -/

variable {values : List (Option Datum)} {b : FieldBounds}

section bounds

/-- all values of a field: of one kind, none a NaN -/
def Clean (t : TypeRoot) (values : List (Option Datum)) : Prop :=
  ∀ d, some d ∈ values → t.rowKind = some d.kind ∧ d.kind ≠ .variant ∧ d.isNan = false

theorem Clean.comparable (h : Clean t values)
    {a b : Datum} (ha : some a ∈ values) (hb : some b ∈ values) : Comparable a b := by
  obtain ⟨hka, hva, hna⟩ := h a ha
  obtain ⟨hkb, -, hnb⟩ := h b hb
  exact ⟨Option.some.inj (hka.symm.trans hkb), hna, hnb, hva⟩

theorem orderOf_gt {a b : Datum} (h : Comparable a b) : orderOf a b = .gt ↔ b.place < a.place := by
  unfold orderOf
  rw [h.cmp, Option.getD_some, compare_gt_iff_gt]

theorem foldl_extreme {R : Datum → Datum → Prop} (hrefl : ∀ a, R a a) (htrans : ∀ a b c, R a b → R b c → R a c)
    {pick : Datum → Datum → Datum} (hpick : ∀ a b, Comparable a b →
      (pick a b = a ∨ pick a b = b) ∧ R (pick a b) a ∧ R (pick a b) b) {first : Datum} {rest : List Datum}
    (h : ∀ a ∈ first :: rest, ∀ b ∈ first :: rest, Comparable a b) :
    rest.foldl pick first ∈ first :: rest ∧ ∀ x ∈ first :: rest, R (rest.foldl pick first) x := by
  induction rest generalizing first with
  | nil =>
    refine ⟨mem_cons_self, fun x hx => ?_⟩
    rw [mem_singleton.mp hx]
    exact hrefl first
  | cons d rest ih =>
    rw [foldl_cons]
    obtain ⟨hor, hle₁, hle₂⟩ :=
      hpick first d (h first mem_cons_self d (mem_cons_of_mem first mem_cons_self))
    have hsub : pick first d :: rest ⊆ first :: d :: rest := by
      intro x hx
      rcases mem_cons.mp hx with rfl | hx
      · rcases hor with h | h <;> rw [h] <;> simp
      · exact mem_cons_of_mem first (mem_cons_of_mem d hx)
    obtain ⟨hmem, hmin⟩ := ih fun a ha b hb => h a (hsub ha) b (hsub hb)
    refine ⟨hsub hmem, fun x hx => ?_⟩
    have htop := hmin (pick first d) mem_cons_self
    rcases mem_cons.mp hx with rfl | hx
    · exact htrans _ _ _ htop hle₁
    · rcases mem_cons.mp hx with rfl | hx
      · exact htrans _ _ _ htop hle₂
      · exact hmin x (mem_cons_of_mem _ hx)

variable {first : Datum} {rest : List Datum} (h : ∀ a ∈ first :: rest, ∀ b ∈ first :: rest, Comparable a b)
include h

theorem minBy_least :
    minBy first rest ∈ first :: rest ∧ ∀ x ∈ first :: rest, (minBy first rest).place ≤ x.place := by
  refine foldl_extreme (R := fun a b => a.place ≤ b.place) (fun _ => le_rfl) (fun _ _ _ => le_trans)
    (fun a b hcmp => ?_) h
  split
  · next hgt => exact ⟨.inr rfl, ((orderOf_gt hcmp).mp hgt).le, le_rfl⟩
  · next hgt => exact ⟨.inl rfl, le_rfl, not_lt.mp fun hlt => hgt ((orderOf_gt hcmp).mpr hlt)⟩

theorem maxBy_greatest :
    maxBy first rest ∈ first :: rest ∧ ∀ x ∈ first :: rest, x.place ≤ (maxBy first rest).place := by
  refine foldl_extreme (R := fun a b => b.place ≤ a.place) (fun _ => le_rfl)
    (fun _ _ _ hab hbc => hbc.trans hab) (fun a b hcmp => ?_) h
  split
  · next hgt => exact ⟨.inl rfl, le_rfl, ((orderOf_gt hcmp).mp hgt).le⟩
  · next hgt => exact ⟨.inr rfl, not_lt.mp fun hlt => hgt ((orderOf_gt hcmp).mpr hlt), le_rfl⟩

omit h

variable {fields : List DataField} {field : DataField} {index : Nat}
  {stats : StatsAccessor} {values : List (Option Datum)} {v : Option Datum}

theorem comparisonLeaf_mayMatch (hf : fields[index]? = some field) (hop : op ≠ .notBetween) {l d : Datum}
    (hp : comparisonLeaf field index op l = some p)
    (hk : field.dataType.root.rowKind = some d.kind ∧ d.kind ≠ .variant)
    (hcov : ValueCovered stats index field.dataType (some d))
    (heval : evalLeaf op (some d) [l] = .ok true) : mayMatch stats fields p = true := by
  unfold comparisonLeaf at hp
  split at hp
  · obtain rfl := Option.some.inj hp
    rw [mayMatch, hf]
    refine evalLeaf_mayMatch rfl (fun d' hd' => ?_) hcov (fun h => absurd h hop) heval
    obtain rfl := Option.some.inj hd'
    exact hk
  · cases hp

theorem isNullLeaf_mayMatch (hf : fields[index]? = some field)
    (hcov : ValueCovered stats index field.dataType none) :
    mayMatch stats fields (isNullLeaf field index) = true := by
  rw [isNullLeaf, mayMatch, hf]
  exact evalLeaf_mayMatch rfl (fun _ h => absurd h (Option.some_ne_none _).symm) hcov (fun h => absurd h (by decide)) rfl

/-- **The bounds of a field admit every manifest that covers one of its values.** -/
theorem buildFieldBounds_mayMatch (hf : fields[index]? = some field)
    (hclean : Clean field.dataType.root values)
    (hb : buildFieldBounds field index values = some b)
    (hk : ∀ d, v = some d → field.dataType.root.rowKind = some d.kind ∧ d.kind ≠ .variant)
    (hcov : ValueCovered stats index field.dataType v)
    (hmem : ∃ u ∈ values, sameValue v u = true) :
    mayMatch stats fields b.min = true ∧ mayMatch stats fields b.max = true := by
  obtain ⟨u, hu, hsame⟩ := hmem
  unfold buildFieldBounds at hb
  split at hb
  · next hnone =>
    obtain rfl := Option.some.inj hb
    cases v with
    | none => exact ⟨isNullLeaf_mayMatch hf hcov, isNullLeaf_mayMatch hf hcov⟩
    | some d =>
      cases u with
      | none => cases hsame
      | some d' =>
        have : d' ∈ values.filterMap id := mem_filterMap.mpr ⟨some d', hu, rfl⟩
        rw [hnone] at this
        exact absurd this not_mem_nil
  · next first rest hsome =>
    obtain ⟨low, hlow, hb⟩ := Option.bind_eq_some_iff.mp hb
    obtain ⟨high, hhigh, hb⟩ := Option.bind_eq_some_iff.mp hb
    have hall : ∀ x ∈ first :: rest, some x ∈ values := fun x hx => by
      rw [← hsome] at hx
      obtain ⟨y, hy, hyx⟩ := mem_filterMap.mp hx
      exact hyx ▸ hy
    have hcmp : ∀ a ∈ first :: rest, ∀ b ∈ first :: rest, Comparable a b :=
      fun a ha b hb => hclean.comparable (hall a ha) (hall b hb)
    cases v with
    | none =>
      have hany : values.any Option.isNone = true := by
        cases u with
        | none => exact any_eq_true.mpr ⟨none, hu, rfl⟩
        | some _ => cases hsame
      rw [if_pos hany] at hb
      obtain rfl := Option.some.inj hb
      have hnull := isNullLeaf_mayMatch hf hcov
      exact ⟨by rw [mayMatch, mayMatchAny_iff]; exact ⟨_, mem_cons_self, hnull⟩,
        by rw [mayMatch, mayMatchAny_iff]; exact ⟨_, mem_cons_self, hnull⟩⟩
    | some d =>
      cases u with
      | none => cases hsame
      | some d' =>
        have hd' : d' ∈ first :: rest := hsome ▸ mem_filterMap.mpr ⟨some d', hu, rfl⟩
        have hdd : Comparable d d' :=
          comparable_of_cmp (hk d rfl).2 (beq_iff_eq.mp hsame)
        have hplace := hdd.eq_iff.mp hsame
        obtain ⟨hminMem, hmin⟩ := minBy_least hcmp
        obtain ⟨hmaxMem, hmax⟩ := maxBy_greatest hcmp
        have hlowMatch : mayMatch stats fields low = true := by
          refine comparisonLeaf_mayMatch hf (by decide) hlow (hk d rfl) hcov (congrArg Except.ok ?_)
          show cmpGe d (minBy first rest) = true
          rw [(hdd.trans (hcmp d' hd' _ hminMem)).ge_iff, hplace]
          exact hmin d' hd'
        have hhighMatch : mayMatch stats fields high = true := by
          refine comparisonLeaf_mayMatch hf (by decide) hhigh (hk d rfl) hcov (congrArg Except.ok ?_)
          show cmpLe d (maxBy first rest) = true
          rw [(hdd.trans (hcmp d' hd' _ hmaxMem)).le_iff, hplace]
          exact hmax d' hd'
        split at hb
        · obtain rfl := Option.some.inj hb
          exact ⟨by rw [mayMatch, mayMatchAny_iff]; exact ⟨low, by simp, hlowMatch⟩,
            by rw [mayMatch, mayMatchAny_iff]; exact ⟨high, by simp, hhighMatch⟩⟩
        · obtain rfl := Option.some.inj hb
          exact ⟨hlowMatch, hhighMatch⟩

end bounds

/-! ## Filters that are built -/

variable {fields : List DataField} {bounds : List FieldBounds}

theorem mem_buildBounds {values : List (List (Option Datum))}
    (h : buildBounds fields values = some bounds)
    (hb : b ∈ bounds) : ∃ i field column, fields[i]? = some field ∧ values[i]? = some column ∧
      buildFieldBounds field i column = some b := by
  obtain ⟨⟨⟨field, column⟩, i⟩, hx, hf⟩ := Traverse.mem_left (Traverse.option_mapM.mp h) hb
  have hzip := mem_zipIdx_iff_getElem?.mp hx
  rw [getElem?_zip_eq_some] at hzip
  exact ⟨i, field, column, hzip.1, hzip.2, hf⟩

theorem buildBounds_mayMatch {values : List (List (Option Datum))}
    (h : buildBounds fields values = some bounds)
    (hcov : ∀ i f, fields[i]? = some f →
      ∃ v, extractDatum row i f.dataType.root = .ok v ∧ ValueCovered stats i f.dataType v)
    (hclean : ∀ (i : Nat) (f : DataField) column, fields[i]? = some f →
      values[i]? = some column → Clean f.dataType.root column)
    (hmem : ∀ (i : Nat) (f : DataField) column v, fields[i]? = some f → values[i]? = some column →
      extractDatum row i f.dataType.root = .ok v → ∃ u ∈ column, sameValue v u = true) :
    (bounds.all fun b => mayMatch stats fields b.min && mayMatch stats fields b.max) = true := by
  rw [all_eq_true]
  intro b hb
  obtain ⟨i, field, column, hf, hcol, hbuild⟩ := mem_buildBounds h hb
  obtain ⟨v, hv, hvalue⟩ := hcov i field hf
  obtain ⟨hmin, hmax⟩ := buildFieldBounds_mayMatch hf (hclean i field column hf hcol) hbuild (fun d hd => by
      subst hd
      exact extractDatum_kind hv) hvalue (hmem i field column v hf hcol hv)
  rw [hmin, hmax]
  rfl

/-! ### from a set of partitions -/

def SetNanFree (fields : List DataField) (partitions : List Bytes) : Prop :=
  ∀ bytes ∈ partitions, ∀ values, partitionValues fields bytes = .ok values →
    ∀ d, some d ∈ values → d.isNan = false

theorem partitionValues_get {bytes : Bytes} (h : partitionValues fields bytes = .ok values) :
    ∃ row, fromSerializedBytes bytes = some row ∧ values.length = fields.length ∧ ∀ i f, fields[i]? = some f →
        extractDatum row i f.dataType.root = .ok (values.getD i none) := by
  unfold partitionValues at h
  split at h
  · cases h
  · next row hrow =>
    have hall := Traverse.except_mapM.mp h
    have hlen : values.length = fields.length := by
      rw [← hall.length_eq, length_zipIdx]
    refine ⟨row, hrow, hlen, fun i f hf => ?_⟩
    obtain ⟨hi, hfi⟩ := List.getElem?_eq_some_iff.mp hf
    have hget := hall.get (i := i) (by rw [length_zipIdx]; exact hi) (hlen ▸ hi)
    rw [get_eq_getElem, getElem_zipIdx, hfi, Nat.zero_add, get_eq_getElem] at hget
    rw [hget, getD_eq_getElem?_getD, getElem?_eq_getElem (hlen ▸ hi), Option.getD_some]

theorem datumEq_self (hv : d.kind ≠ .variant) (hn : d.isNan = false) :
    datumEq d d = true := (Comparable.eq_iff ⟨rfl, hn, hn, hv⟩).mpr rfl

variable {stats : BinaryTableStats} {partition : Bytes} {files : Int} {filter : PartitionFilter}

theorem fromPartitionSet_sound {partitions : List Bytes}
    (h : fromPartitionSet partitions fields = .ok filter)
    (hnan : SetNanFree fields partitions)
    (hcov : PartitionCovered fields files stats partition)
    (hpass : filter.passes partition = true) : filter.matchesManifest files stats fields = true := by
  unfold fromPartitionSet at h
  obtain ⟨rows, hrows, h⟩ := bind_ok h
  obtain rfl := Except.ok.inj h
  have hall := Traverse.except_mapM.mp hrows
  unfold PartitionFilter.matchesManifest
  split
  · rfl
  dsimp only
  cases hbounds : buildBounds fields ((List.range fields.length).map (columnOf rows)) with
  | none => rfl
  | some bounds =>
    rw [Option.getD_some]
    obtain ⟨row, hrow, hvalues⟩ := hcov
    -- the values of the partition are a line of the table
    have hp : partition ∈ partitions := by
      have : partitions.contains partition = true := hpass
      exact contains_iff_mem.mp this
    obtain ⟨k, hk, rfl⟩ := getElem_of_mem hp
    have hk' : k < rows.length := hall.length_eq ▸ hk
    have hline := hall.get hk hk'
    have hcolumn : ∀ i f column, fields[i]? = some f →
        ((List.range fields.length).map (columnOf rows))[i]? = some column →
        column = columnOf rows i := fun i f column hf hc => by
      obtain ⟨hi, -⟩ := List.getElem?_eq_some_iff.mp hf
      rw [getElem?_map, getElem?_range hi] at hc
      exact (Option.some.inj hc).symm
    have hclean : ∀ i f, fields[i]? = some f → Clean f.dataType.root (columnOf rows i) := by
      intro i f hf d hd
      obtain ⟨values, hv, hvd⟩ := mem_map.mp hd
      obtain ⟨j, hj, rfl⟩ := getElem_of_mem hv
      have hj' : j < partitions.length := hall.length_eq ▸ hj
      have hread := hall.get hj' hj
      obtain ⟨row', -, hlen, hget⟩ := partitionValues_get hread
      have hextract := hget i f hf
      have hmem : some d ∈ rows[j] := by
        obtain ⟨hi, -⟩ := List.getElem?_eq_some_iff.mp hf
        rw [getD_eq_getElem?_getD, getElem?_eq_getElem (hlen ▸ hi), Option.getD_some] at hvd
        exact hvd ▸ getElem_mem _
      change extractDatum row' i f.dataType.root = .ok (rows[j].getD i none) at hextract
      rw [hvd] at hextract
      obtain ⟨hkind, hvar⟩ := extractDatum_kind hextract
      exact ⟨hkind, hvar, hnan _ (getElem_mem hj') _ hread d hmem⟩
    refine buildBounds_mayMatch hbounds hvalues (fun i f column hf hc => ?_) fun i f column v hf hc hv => ?_
    · rw [hcolumn i f column hf hc]
      exact hclean i f hf
    · obtain ⟨row', hrow', -, hget⟩ := partitionValues_get hline
      have hsame : row = row' := Option.some.inj (hrow.symm.trans hrow')
      subst hsame
      have hvk : v = rows[k].getD i none := Except.ok.inj (hv.symm.trans (hget i f hf))
      have hmem : v ∈ columnOf rows i := by
        rw [hvk]
        exact mem_map.mpr ⟨rows[k], getElem_mem hk', rfl⟩
      rw [hcolumn i f column hf hc]
      refine ⟨v, hmem, ?_⟩
      cases v with
      | none => rfl
      | some d =>
        obtain ⟨-, hvar, hn⟩ := hclean i f hf d hmem
        exact datumEq_self hvar hn

/-! ### from a predicate -/

/-- candidates belong to the fields they stand at, and there is at least one for each -/
structure CollectedOk (fields : List DataField) (st : Collected) : Prop where
  length : st.1.length = fields.length
  candidates : ∀ (i : Nat) (c : FieldCandidates), st.1[i]? = some (some c) → c.values ≠ [] ∧
    ∃ f : DataField, fields[i]? = some f ∧ c.dataType.root = f.dataType.root

theorem candidateValues_ne_nil (h : candidateValues op literals = some values) : values ≠ [] := by
  unfold candidateValues at h
  split at h
  · obtain rfl := Option.some.inj h
    exact cons_ne_nil _ _
  · obtain rfl := Option.some.inj h
    exact cons_ne_nil _ _
  · obtain rfl := Option.some.inj h
    exact cons_ne_nil _ _
  · cases h

variable {st : Collected}

theorem collectLeaf_ok (hst : CollectedOk fields st)
    (ht : LeafTyped fields index dataType op literals) :
    CollectedOk fields (collectLeaf p index dataType op literals st) := by
  unfold collectLeaf
  split
  · exact ⟨hst.length, hst.candidates⟩
  · split
    · exact ⟨hst.length, hst.candidates⟩
    · next values hvalues =>
      refine ⟨by rw [length_set, hst.length], fun i c hc => ?_⟩
      dsimp only at hc
      rw [getElem?_set] at hc
      split at hc
      · next hi =>
        subst hi
        split at hc
        · obtain rfl := Option.some.inj (Option.some.inj hc)
          exact ⟨candidateValues_ne_nil hvalues, ht.field⟩
        · cases hc
      · exact hst.candidates i c hc

theorem collectChildren_ok
    (h : ∀ c ∈ children, ∀ st, CollectedOk fields st → CollectedOk fields (collectEqCandidates c st))
    (hst : CollectedOk fields st) :
    CollectedOk fields (collectChildren children st) := by
  induction children generalizing st with
  | nil => exact hst
  | cons child children ih =>
    rw [collectChildren]
    exact ih (forall_mem_cons.mp h).2 (h child mem_cons_self st hst)

theorem collectEqCandidates_ok (hp : Typed fields p) (hst : CollectedOk fields st) :
    CollectedOk fields (collectEqCandidates p st) := by
  induction hp generalizing st with
  | leaf h =>
    rw [collectEqCandidates]
    exact collectLeaf_ok hst h
  | and _ ih =>
    rw [collectEqCandidates]
    exact collectChildren_ok (fun c hc st hst => ih c hc hst) hst
  | or | not | alwaysTrue | alwaysFalse => exact ⟨hst.length, hst.candidates⟩

theorem mapM_id_some {α : Type} {l : List (Option α)} {as : List α} (h : l.mapM id = some as) :
    l = as.map some := by
  induction l generalizing as with
  | nil =>
    obtain rfl := Option.some.inj h
    rfl
  | cons x l ih =>
    rw [mapM_cons] at h
    obtain ⟨a, ha, h⟩ := Option.bind_eq_some_iff.mp h
    obtain ⟨rest, hrest, h⟩ := Option.bind_eq_some_iff.mp h
    obtain rfl := Option.some.inj h
    rw [map_cons, ← ih hrest, ← ha]
    rfl

variable {c : FieldCandidates}

theorem encodedAsIs_get {candidates : List FieldCandidates}
    {datums : List (Option Datum)} (h : encodedAsIs row candidates datums = true) {i : Nat}
    {u : Option Datum} (hc : candidates[i]? = some c)
    (hu : datums[i]? = some u) :
    ∃ value, extractDatum row i c.dataType.root = .ok value ∧ sameValue value u = true := by
  unfold encodedAsIs at h
  have hmem : ((c, u), i) ∈ (candidates.zip datums).zipIdx := by
    rw [mem_zipIdx_iff_getElem?, getElem?_zip_eq_some]
    exact ⟨hc, hu⟩
  have hat := all_eq_true.mp h _ hmem
  dsimp only at hat
  split at hat
  · next value hv => exact ⟨value, hv, hat⟩
  · cases hat

section
variable {fields : List DataField} {candidates : List FieldCandidates}
  {residuals : List Predicate}
  (hlen : candidates.length = fields.length)
  (hfield : ∀ (i : Nat) (c : FieldCandidates), candidates[i]? = some c → c.values ≠ [] ∧
    ∃ f : DataField, fields[i]? = some f ∧ c.dataType.root = f.dataType.root)
include hlen hfield

variable {combo : List Nat}

theorem admits_encoded {o : Option Bytes}
    (h : admits fields candidates residuals combo = some o) :
    encodedAsIs (BinaryRow.fromDatums ((combination candidates combo).zip
      (fields.map fun f => f.dataType.root))) candidates (combination candidates combo) = true := by
  unfold admits at h
  dsimp only at h
  split at h
  · next he => exact he
  · cases h

theorem combination_get {i j : Nat}
    (hc : candidates[i]? = some c) (hj : combo[i]? = some j) :
    (combination candidates combo)[i]? = some (c.values.getD j none) := by
  unfold combination
  rw [getElem?_zipWith, hc, hj]

theorem sizes_pos : ∀ size ∈ candidates.map (fun c => c.values.length), 0 < size := by
  intro size hsize
  obtain ⟨c, hc, rfl⟩ := mem_map.mp hsize
  obtain ⟨i, hi⟩ := getElem?_of_mem hc
  exact length_pos_of_ne_nil (hfield i c hi).1

theorem candidates_clean (h : ∀ combo ∈ Odometer.visited (candidates.map fun c => c.values.length),
      ∃ o, admits fields candidates residuals combo = some o)
    {i : Nat} {f : DataField} (hc : candidates[i]? = some c)
    (hf : fields[i]? = some f) : Clean f.dataType.root c.values := by
  intro d hd
  obtain ⟨j, hj⟩ := getElem?_of_mem hd
  obtain ⟨hjlt, -⟩ := List.getElem?_eq_some_iff.mp hj
  obtain ⟨hi, hci⟩ := List.getElem?_eq_some_iff.mp hc
  set sizes := candidates.map fun c => c.values.length with hsizes
  -- the counter that stands at `j` for this field and at zero for the others
  set combo := (Odometer.zeros sizes).set i j with hcombo
  have hzero : (Odometer.zeros sizes).length = sizes.length := length_map _
  have hlt : List.Forall₂ (· < ·) combo sizes := by
    rw [forall₂_iff_get]
    refine ⟨by rw [hcombo, length_set, hzero], fun k hk hk' => ?_⟩
    rw [get_eq_getElem, get_eq_getElem]
    have hpos := sizes_pos hlen hfield sizes[k] (getElem_mem hk')
    simp only [hcombo, getElem_set]
    split
    · next hik =>
      subst hik
      have : sizes[i] = c.values.length := by simp [hsizes, hci]
      rw [this]
      exact hjlt
    · have : (Odometer.zeros sizes)[k] = 0 := by simp [Odometer.zeros]
      rw [this]
      exact hpos
  have hvisited : combo ∈ Odometer.visited sizes := by
    rw [Odometer.visited_eq (sizes_pos hlen hfield)]
    exact Odometer.mem_choices.mpr hlt
  obtain ⟨o, ho⟩ := h combo hvisited
  have hget : combo[i]? = some j := by
    rw [hcombo, getElem?_set_self (by rw [hzero, hsizes, length_map]; exact hi)]
  have hu := combination_get hlen hfield hc hget
  rw [getD_eq_getElem?_getD, hj, Option.getD_some] at hu
  obtain ⟨value, hv, hsame⟩ := encodedAsIs_get (admits_encoded hlen hfield ho) hc hu
  obtain ⟨-, f', hf', hroot⟩ := hfield i c hc
  obtain rfl := Option.some.inj (hf.symm.trans hf')
  cases value with
  | none => cases hsame
  | some d' =>
    obtain ⟨hk, hvar⟩ := extractDatum_kind hv
    have hcmp := comparable_of_cmp hvar (beq_iff_eq.mp hsame)
    rw [hroot, hcmp.kind] at hk
    exact ⟨hk, hcmp.kind ▸ hvar, hcmp.right⟩

end

theorem fromPredicate_sound (hfields : fields.length < 2 ^ 31)
    (hp : Typed fields p) (hn : NanFree p)
    (hcov : PartitionCovered fields files stats partition)
    (hpass : (fromPredicate p fields).passes partition = true) :
    (fromPredicate p fields).matchesManifest files stats fields = true := by
  -- as a predicate: it is evaluated without error
  have hpred : (PartitionFilter.predicate p).passes partition = true →
      (PartitionFilter.predicate p).matchesManifest files stats fields = true := by
    intro hpass
    obtain ⟨row, hrow, hvalues⟩ := hcov
    unfold PartitionFilter.matchesManifest
    split
    · rfl
    · obtain ⟨b, hb⟩ := evalRow_ok (fun i f hf => (hvalues i f hf).imp fun _ h => h.1) hp
      unfold PartitionFilter.passes PartitionFilter.matchesEntry at hpass
      rw [hrow] at hpass
      dsimp only at hpass
      rw [hb] at hpass
      obtain rfl : b = true := hpass
      exact evalRow_mayMatch hvalues hp hn hb
  unfold fromPredicate at hpass ⊢
  split at hpass
  · next h =>
    rw [if_pos h]
    exact hpred hpass
  next hne =>
  rw [if_neg hne]
  have hst : CollectedOk fields (collectEqCandidates p (fields.map fun _ => none, [])) := by
    refine collectEqCandidates_ok hp ⟨length_map _, fun i c hc => ?_⟩
    rw [getElem?_map] at hc
    obtain ⟨f, -, hf⟩ := Option.map_eq_some_iff.mp hc
    cases hf
  dsimp only at hpass ⊢
  generalize hcollect : collectEqCandidates p (fields.map fun _ => none, []) = st at hpass hst ⊢
  obtain ⟨found, residuals⟩ := st
  cases hcands : found.mapM id with
  | none =>
    rw [hcands] at hpass
    exact hpred hpass
  | some candidates =>
    rw [hcands] at hpass
    dsimp only at hpass ⊢
    have hfound := mapM_id_some hcands
    have hlen : candidates.length = fields.length := by
      rw [← hst.length, hfound, length_map]
    have hfield : ∀ (i : Nat) (c : FieldCandidates), candidates[i]? = some c → c.values ≠ [] ∧
        ∃ f : DataField, fields[i]? = some f ∧ c.dataType.root = f.dataType.root :=
        fun i c hc => by
      refine hst.candidates i c ?_
      show found[i]? = _
      rw [hfound, getElem?_map, hc]
      rfl
    cases hruns : (Odometer.visited (candidates.map fun c => c.values.length)).mapM
        (admits fields candidates residuals) with
    | none =>
      rw [hruns] at hpass
      exact hpred hpass
    | some results =>
      rw [hruns] at hpass
      dsimp only at hpass ⊢
      have hall := Traverse.option_mapM.mp hruns
      cases hbounds : buildBounds fields (candidates.map FieldCandidates.values) with
      | none =>
        rw [hbounds] at hpass
        exact hpred hpass
      | some bounds =>
        rw [hbounds] at hpass
        dsimp only at hpass ⊢
        unfold PartitionFilter.matchesManifest
        rw [if_neg hne]
        dsimp only
        -- the partition was put into the set for one combination
        have hcontains : (results.filterMap id).contains partition = true := hpass
        obtain ⟨o, ho, hoeq⟩ := mem_filterMap.mp (contains_iff_mem.mp hcontains)
        obtain rfl : o = some partition := hoeq
        obtain ⟨combo, hcombo, hrun⟩ := Traverse.mem_left hall ho
        have henc := admits_encoded hlen hfield hrun
        have hbytes : partition = (BinaryRow.fromDatums ((combination candidates combo).zip
            (fields.map fun f => f.dataType.root))).toSerializedBytes := by
          unfold admits at hrun
          dsimp only at hrun
          rw [if_pos henc] at hrun
          split at hrun
          · exact (Option.some.inj (Option.some.inj hrun)).symm
          · cases hrun
          · cases hrun
        set row := BinaryRow.fromDatums ((combination candidates combo).zip
          (fields.map fun f => f.dataType.root)) with hrow
        obtain ⟨row', hrow', hvalues⟩ := hcov
        have hread : fromSerializedBytes partition = some row := by
          rw [hbytes]
          refine BinaryRow.fromDatums_read ?_
          rw [length_zip, length_map]
          omega
        obtain rfl : row' = row := Option.some.inj (hrow'.symm.trans hread)
        have hcolumn : ∀ {i : Nat} {column : List (Option Datum)},
            (candidates.map FieldCandidates.values)[i]? = some column →
            ∃ c, candidates[i]? = some c ∧ column = c.values := fun {i column} h => by
          rw [getElem?_map] at h
          obtain ⟨c, hc, rfl⟩ := Option.map_eq_some_iff.mp h
          exact ⟨c, hc, rfl⟩
        rw [Odometer.visited_eq (sizes_pos hlen hfield)] at hcombo
        have hdigits := Odometer.mem_choices.mp hcombo
        refine buildBounds_mayMatch hbounds hvalues (fun i f column hf hcol => ?_)
          fun i f column v hf hcol hv => ?_
        · obtain ⟨c, hc, rfl⟩ := hcolumn hcol
          exact candidates_clean hlen hfield (fun combo hcombo => (Traverse.mem_right hall hcombo).imp
            fun _ h => h.2) hc hf
        · obtain ⟨c, hc, rfl⟩ := hcolumn hcol
          obtain ⟨hi, hci⟩ := List.getElem?_eq_some_iff.mp hc
          have hlenc : combo.length = candidates.length := by
            rw [hdigits.length_eq, length_map]
          have hj : combo[i]? = some combo[i] := getElem?_eq_getElem (hlenc ▸ hi)
          have hjlt : combo[i] < c.values.length := by
            have := hdigits.get (i := i) (hlenc ▸ hi) (by rw [length_map]; exact hi)
            simpa [hci] using this
          have hu := combination_get hlen hfield hc hj
          obtain ⟨value, hvalue, hsame⟩ := encodedAsIs_get henc hc hu
          obtain ⟨-, f', hf', hroot⟩ := hfield i c hc
          obtain rfl := Option.some.inj (hf.symm.trans hf')
          rw [hroot, hv] at hvalue
          obtain rfl := Except.ok.inj hvalue
          refine ⟨_, ?_, hsame⟩
          rw [getD_eq_getElem?_getD, getElem?_eq_getElem hjlt, Option.getD_some]
          exact getElem_mem hjlt

/-- the filters that are built, without NaN -/
def Built (fields : List DataField) (filter : PartitionFilter) : Prop :=
  (∃ p, Typed fields p ∧ NanFree p ∧ filter = fromPredicate p fields) ∨
  ∃ partitions, SetNanFree fields partitions ∧ fromPartitionSet partitions fields = .ok filter

/-- **A manifest with an entry that passes is not skipped.** -/
theorem matchesManifest_sound (hfields : fields.length < 2 ^ 31)
    (hbuilt : Built fields filter)
    (hcov : PartitionCovered fields files stats partition)
    (hpass : filter.passes partition = true) : filter.matchesManifest files stats fields = true := by
  rcases hbuilt with ⟨p, hp, hn, rfl⟩ | ⟨partitions, hnan, hset⟩
  · exact fromPredicate_sound hfields hp hn hcov hpass
  · exact fromPartitionSet_sound hset hnan hcov hpass

end Paimon.Scan
