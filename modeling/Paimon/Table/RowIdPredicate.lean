import Paimon.Arrow.Comparison
import Paimon.Predicate.Trees
import Paimon.Table.RowRangeAlgebra

/-!
# Row ranges out of `_ROW_ID` predicates

`table/row_id_predicate.rs` and its caller in `table/read_builder.rs`: a filter on `_ROW_ID` is read
as ranges of row ids, and conjuncts that the ranges represent leave the residual filter.

* `leafToRanges`, `extractRowIdRanges`: the ranges of a leaf and of a tree;
* `intersectRangeLists`: the loop over two lists, which needs both in the order of their starts (`ByStart`),
  not apart;
* `rangesRepresentConjunct`: whether the ranges say all that the conjunct says;
* `tryExtractRowIdRanges`: what the read builder keeps of a filter.

A row is an id with an evaluation of the leaves on its other columns.
-/

namespace Paimon

open RowRange Predicate List

/-! ## the code -/

def isRowIdColumn (name : String) : Bool := name == rowIdFieldName

def datumToI64 : Datum → Option Int
  | .long v => some v
  | .int v => some v
  | _ => none

/-- `RowRange::new(v, v)` -/
def RowRange.point (v : Int) : RowRange := ⟨v, v, le_refl v⟩

def firstI64 (literals : List Datum) : Option Int := literals.head?.bind datumToI64

/-- `RowRange::new` asserts that its ends are in order, which they are for every `i64` -/
def leafToRanges (op : PredicateOperator) (literals : List Datum) : Option (List RowRange) :=
  match op with
  | .eq => (firstI64 literals).map fun v => [point v]
  | .gtEq => (firstI64 literals).map fun v => (RowRange.new v i64Max).toList
  | .gt => (firstI64 literals).map fun v =>
    if v = i64Max then [] else (RowRange.new (v + 1) i64Max).toList
  | .ltEq => (firstI64 literals).map fun v => if v < 0 then [] else (RowRange.new 0 v).toList
  | .lt => (firstI64 literals).map fun v => if v ≤ 0 then [] else (RowRange.new 0 (v - 1)).toList
  | .isIn => do
    let ranges ← literals.mapM fun d => (datumToI64 d).map point
    if ranges.isEmpty then none
    else return ranges.insertionSort fun a b => a.fromId ≤ b.fromId
  | _ => none

/-- the loop of `intersect_range_lists`; every turn drops the head of one list -/
def intersectLoop : Nat → List RowRange → List RowRange → List RowRange
  | turns + 1, a :: as, b :: bs =>
    (RowRange.new (max a.fromId b.fromId) (min a.toId b.toId)).toList ++
      if a.toId < b.toId then intersectLoop turns as (b :: bs) else intersectLoop turns (a :: as) bs
  | _, _, _ => []

def intersectRangeLists (a b : List RowRange) : List RowRange := intersectLoop (a.length + b.length) a b

/-- the ranges of one more child of an AND; a child that converts to nothing is passed over -/
def meetRanges : Option (List RowRange) → Option (List RowRange) → Option (List RowRange)
  | result, none => result
  | none, some ranges => some ranges
  | some existing, some ranges => some (intersectRangeLists existing ranges)

mutual

def extractRowIdRanges : Predicate → Option (List RowRange)
  | .leaf column _ _ op literals => if isRowIdColumn column then leafToRanges op literals else none
  | .and children => extractAnd children none
  | .or children => (extractOr children).map mergeRowRanges
  | _ => none

def extractAnd : List Predicate → Option (List RowRange) → Option (List RowRange)
  | [], result => result
  | child :: children, result => extractAnd children (meetRanges result (extractRowIdRanges child))

/-- every child has to convert -/
def extractOr : List Predicate → Option (List RowRange)
  | [] => some []
  | child :: children => do
    let ranges ← extractRowIdRanges child
    let rest ← extractOr children
    return ranges ++ rest

end

mutual

def convertibleRowIdOnly : Predicate → Bool
  | .leaf column _ _ op literals => isRowIdColumn column && (leafToRanges op literals).isSome
  | .and children | .or children => convertibleAll children
  | _ => false

def convertibleAll : List Predicate → Bool
  | [] => true
  | child :: children => convertibleRowIdOnly child && convertibleAll children

end

def rangesRepresentConjunct (conjunct : Predicate) : Bool :=
  convertibleRowIdOnly conjunct && (extractRowIdRanges conjunct).any (!·.isEmpty)

/-- the derived ranges and the conjuncts that stay in the filter -/
def tryExtractRowIdRanges (rowTrackingEnabled dataEvolutionEnabled : Bool) (conjuncts : List Predicate) :
    Option (List RowRange) × List Predicate :=
  if conjuncts.isEmpty then (none, conjuncts)
  else if !rowTrackingEnabled && !dataEvolutionEnabled then (none, conjuncts)
  else match extractRowIdRanges (mkAnd conjuncts) with
    | some ranges => (some ranges, conjuncts.filter fun c => !rangesRepresentConjunct c)
    | none => (none, conjuncts)

/-! ## rows -/

/-- a leaf on `_ROW_ID` reads the id of the row, every other leaf is left to `other` -/
def rowIdLeaf (id : Int) (other : LeafEval) : LeafEval := fun column index dataType op literals =>
  if isRowIdColumn column then evaluateExactLeaf .bigInt (some (.scalar (.long id))) op literals
  else other column index dataType op literals

def RowSatisfies (id : Int) (other : LeafEval) (p : Predicate) : Prop :=
  eval (rowIdLeaf id other) p = some true

def Datum.InI64 (l : Datum) : Prop := ∀ v, datumToI64 l = some v → -2 ^ 63 ≤ v ∧ v ≤ i64Max

def I64Literals : Predicate → Prop := Leaves fun _ _ _ _ literals => ∀ l ∈ literals, l.InI64

/-- in the order of their starts; the ranges may overlap -/
def ByStart (ranges : List RowRange) : Prop := ranges.Pairwise fun a b => a.fromId ≤ b.fromId

/-! ## one leaf -/

theorem mem_rows_new {a b x : Int} : x ∈ rows (RowRange.new a b).toList ↔ a ≤ x ∧ x ≤ b := by
  unfold RowRange.new
  split
  · exact mem_rows_singleton
  · next h =>
    rw [Option.toList_none, rows_nil]
    exact iff_of_false (Set.notMem_empty x) (by omega)

theorem byStart_new (a b : Int) : ByStart (RowRange.new a b).toList := by
  cases RowRange.new a b with
  | none => exact .nil
  | some r => exact pairwise_singleton _ r

theorem mem_new_from {a b : Int} {r : RowRange} (h : r ∈ (RowRange.new a b).toList) : r.fromId = a := by
  unfold RowRange.new at h
  split at h
  · rw [mem_singleton.mp h]
  · cases h

theorem literalScalar_i64 {l : Datum} {v : Int} (h : datumToI64 l = some v)
    (hv : -2 ^ 63 ≤ v ∧ v ≤ i64Max) : literalScalar .bigInt l = some (.long v) := by
  have hint : integerLiteral l = some v := by cases l <;> cases h <;> rfl
  have hfits : fitsSigned 64 v = some v := if_pos ⟨hv.1, Int.lt_of_le_of_lt hv.2 (by decide)⟩
  show ((integerLiteral l).bind (fitsSigned 64)).map Datum.long = _
  rw [hint, Option.bind_some, hfits]
  rfl

section leaf
variable {id : Int} {literals : List Datum} {op : PredicateOperator}

theorem comparison_rowId (hop : op.isComparison = true)
    (hi64 : ∀ l ∈ literals, l.InI64) {v : Int}
    (h : firstI64 literals = some v) :
    evaluateExactLeaf .bigInt (some (.scalar (.long id))) op literals = comparison op (compare id v) := by
  obtain ⟨l, hl, hv⟩ := Option.bind_eq_some_iff.mp h
  have hscalar := literalScalar_i64 hv (hi64 l (mem_of_mem_head? hl) v hv)
  rw [comparison_dispatch hop]
  show evaluateSingle .bigInt (some (.scalar (.long id))) op literals = _
  rw [evaluateSingle, hl, Option.bind_eq_bind, Option.bind_some, hscalar]
  rfl

variable {ranges : List RowRange}

theorem membership_rowId (id : Int) (hi64 : ∀ l ∈ literals, l.InI64)
    (h : (literals.mapM fun d => (datumToI64 d).map point) = some ranges) :
    ∃ scalars equal, literals.mapM (literalScalar .bigInt) = some scalars ∧
      scalars.mapM (evaluateColumnPredicate .eq (.scalar (.long id))) = some equal ∧
      (equal.any (fun b => b) = true ↔ id ∈ rows ranges) := by
  induction literals generalizing ranges with
  | nil =>
    obtain rfl : [] = ranges := by simpa using h
    exact ⟨[], [], rfl, rfl, by simp⟩
  | cons l literals ih =>
    rw [mapM_cons] at h
    obtain ⟨r, hr, h⟩ := Option.bind_eq_some_iff.mp h
    obtain ⟨rest, hrest, h⟩ := Option.bind_eq_some_iff.mp h
    obtain ⟨v, hv, rfl⟩ := Option.map_eq_some_iff.mp hr
    obtain rfl : point v :: rest = ranges := by simpa using h
    obtain ⟨scalars, equal, hscalars, hequal, hany⟩ := ih (forall_mem_cons.mp hi64).2 hrest
    have hscalar := literalScalar_i64 hv (hi64 l mem_cons_self v hv)
    refine ⟨.long v :: scalars, (compare id v == .eq) :: equal, ?_, ?_, ?_⟩
    · rw [mapM_cons, hscalar, hscalars]
      rfl
    · rw [mapM_cons, hequal]
      rfl
    · rw [any_cons, Bool.or_eq_true, hany, mem_rows_cons, beq_iff_eq, compare_eq_iff_eq]
      exact or_congr_left ⟨fun h => ⟨h.ge, h.le⟩, fun h => le_antisymm h.2 h.1⟩

theorem leafToRanges_spec (h0 : 0 ≤ id) (hmax : id ≤ i64Max)
    (hi64 : ∀ l ∈ literals, l.InI64)
    (h : leafToRanges op literals = some ranges) :
    ByStart ranges ∧ ∃ b, evaluateExactLeaf .bigInt (some (.scalar (.long id))) op literals = some b ∧
      (b = true ↔ id ∈ rows ranges) := by
  cases op <;> try cases h
  case isIn =>
    obtain ⟨points, hpoints, h⟩ := Option.bind_eq_some_iff.mp h
    obtain ⟨scalars, equal, hscalars, hequal, hany⟩ := membership_rowId id hi64 hpoints
    split at h
    · cases h
    obtain rfl := Option.some_inj.mp h
    refine ⟨pairwise_sortByFrom points, equal.any (fun b => b), ?_, ?_⟩
    · show evaluateSetMembership .bigInt (some (.scalar (.long id))) .isIn literals = _
      rw [evaluateSetMembership, hscalars]
      simp only [Option.bind_eq_bind, Option.bind_some, hequal]
      rfl
    · rw [rows_perm (perm_insertionSort _ points)]
      exact hany
  all_goals
    obtain ⟨v, hv, rfl⟩ := Option.map_eq_some_iff.mp h
    rw [comparison_rowId rfl hi64 hv]
  case eq =>
    refine ⟨pairwise_singleton _ _, _, rfl, ?_⟩
    rw [beq_iff_eq, compare_eq_iff_eq, mem_rows_singleton]
    exact ⟨fun h => ⟨h.ge, h.le⟩, fun h => le_antisymm h.2 h.1⟩
  case lt | ltEq | gt =>
    refine ⟨by split; exacts [.nil, byStart_new _ _], _, rfl, ?_⟩
    simp only [beq_iff_eq, bne_iff_ne, compare_lt_iff_lt, compare_le_iff_le, compare_gt_iff_gt]
    split
    · simp; omega
    · rw [mem_rows_new]; omega
  case gtEq =>
    refine ⟨byStart_new _ _, _, rfl, ?_⟩
    rw [bne_iff_ne, compare_ge_iff_ge, mem_rows_new]
    omega

end leaf

/-! ## intersection -/

section intersection
variable {a b : List RowRange} {turns : Nat}

/-- **The loop keeps the rows that are in both lists**, overlapping or not. -/
theorem rows_intersectLoop (hturns : a.length + b.length ≤ turns) (ha : ByStart a) (hb : ByStart b) :
    rows (intersectLoop turns a b) = rows a ∩ rows b := by
  induction turns generalizing a b with
  | zero =>
    obtain rfl : a = [] := length_eq_zero_iff.mp (by omega)
    simp [intersectLoop]
  | succ turns ih =>
    match a, b with
    | [], _ => simp [intersectLoop]
    | _ :: _, [] => simp [intersectLoop]
    | r :: a, q :: b =>
      obtain ⟨hr, ha'⟩ := pairwise_cons.mp ha
      obtain ⟨hq, hb'⟩ := pairwise_cons.mp hb
      simp only [length_cons] at hturns
      ext x
      rw [intersectLoop, mem_rows_append, mem_rows_new, Set.mem_inter_iff]
      split
      · rw [ih (by rw [length_cons]; omega) ha' hb, Set.mem_inter_iff, mem_rows_cons, mem_rows_cons]
        -- a row of `r` in a later range of `b` is in `q`, which starts before and ends behind `r`
        have hpast : x ∈ rows b → q.fromId ≤ x := fun ⟨q', hq', hfrom, _⟩ => le_trans (hq q' hq') hfrom
        grind
      · rw [ih (by rw [length_cons]; omega) ha hb', Set.mem_inter_iff, mem_rows_cons, mem_rows_cons]
        have hpast : x ∈ rows a → r.fromId ≤ x := fun ⟨r', hr', hfrom, _⟩ => le_trans (hr r' hr') hfrom
        grind

theorem intersectLoop_from {m m' : Int} (ha : ∀ r ∈ a, m ≤ r.fromId) (hb : ∀ q ∈ b, m' ≤ q.fromId) :
    ∀ x ∈ intersectLoop turns a b, m ≤ x.fromId ∧ m' ≤ x.fromId := by
  induction turns generalizing a b with
  | zero => exact forall_mem_nil _
  | succ turns ih =>
    match a, b with
    | [], _ => exact forall_mem_nil _
    | _ :: _, [] => exact forall_mem_nil _
    | r :: a, q :: b =>
      intro x hx
      rw [intersectLoop] at hx
      rcases mem_append.mp hx with hx | hx
      · have := mem_new_from hx
        have := ha r mem_cons_self
        have := hb q mem_cons_self
        omega
      · split at hx
        · exact ih (forall_mem_cons.mp ha).2 hb x hx
        · exact ih ha (forall_mem_cons.mp hb).2 x hx

theorem intersectLoop_byStart (ha : ByStart a) (hb : ByStart b) : ByStart (intersectLoop turns a b) := by
  induction turns generalizing a b with
  | zero => exact .nil
  | succ turns ih =>
    match a, b with
    | [], _ => exact .nil
    | _ :: _, [] => exact .nil
    | r :: a, q :: b =>
      obtain ⟨hr, ha'⟩ := pairwise_cons.mp ha
      obtain ⟨hq, hb'⟩ := pairwise_cons.mp hb
      have hra : ∀ r' ∈ r :: a, r.fromId ≤ r'.fromId := forall_mem_cons.mpr ⟨le_rfl, hr⟩
      have hqb : ∀ q' ∈ q :: b, q.fromId ≤ q'.fromId := forall_mem_cons.mpr ⟨le_rfl, hq⟩
      rw [intersectLoop]
      refine pairwise_append.mpr ⟨byStart_new _ _, ?_, fun x hx y hy => ?_⟩
      · split
        · exact ih ha' hb
        · exact ih ha hb'
      · rw [mem_new_from hx]
        split at hy
        · exact max_le_iff.mpr (intersectLoop_from hr hqb y hy)
        · exact max_le_iff.mpr (intersectLoop_from hra hq y hy)

theorem rows_intersectRangeLists (ha : ByStart a) (hb : ByStart b) :
    rows (intersectRangeLists a b) = rows a ∩ rows b := rows_intersectLoop le_rfl ha hb

end intersection

/-! ## trees -/

def Admits (id : Int) (ranges : Option (List RowRange)) : Prop := ∀ r ∈ ranges, id ∈ rows r

variable {r : List RowRange}

section trees
variable {id : Int} {other : LeafEval} {p : Predicate} {children : List Predicate}
  {result ranges : Option (List RowRange)}

theorem admits_none : Admits id none := fun r hr => absurd hr (Option.not_mem_none r)

theorem admits_some : Admits id (some r) ↔ id ∈ rows r :=
  ⟨fun h => h r rfl, fun h _ hr => Option.some_inj.mp hr ▸ h⟩

theorem meetRanges_spec (id : Int) (hresult : ∀ r ∈ result, ByStart r) (hranges : ∀ r ∈ ranges, ByStart r) :
    (∀ r ∈ meetRanges result ranges, ByStart r) ∧
      (Admits id (meetRanges result ranges) ↔ Admits id result ∧ Admits id ranges) := by
  cases ranges with
  | none => exact ⟨hresult, by simp [meetRanges, Admits]⟩
  | some b =>
    cases result with
    | none => exact ⟨hranges, by simp [meetRanges, Admits]⟩
    | some a =>
      have ha := hresult a rfl
      have hb := hranges b rfl
      have hrows := rows_intersectRangeLists ha hb
      simp only [meetRanges, Admits, Option.mem_some_iff, forall_eq', hrows]
      exact ⟨intersectLoop_byStart ha hb, Iff.rfl⟩

theorem extractAnd_spec (id : Int) (hchildren : ∀ c ∈ children, ∀ r ∈ extractRowIdRanges c, ByStart r)
    (hresult : ∀ r ∈ result, ByStart r) : (∀ r ∈ extractAnd children result, ByStart r) ∧
      (Admits id (extractAnd children result) ↔
        Admits id result ∧ ∀ c ∈ children, Admits id (extractRowIdRanges c)) := by
  induction children generalizing result with
  | nil => rw [extractAnd]; exact ⟨hresult, by simp⟩
  | cons c children ih =>
    obtain ⟨hmeet, hiff⟩ := meetRanges_spec id hresult (hchildren c mem_cons_self)
    obtain ⟨hs, hrest⟩ := ih (forall_mem_cons.mp hchildren).2 hmeet
    rw [extractAnd]
    exact ⟨hs, by rw [hrest, hiff, forall_mem_cons, and_assoc]⟩

theorem extractOr_some {all : List RowRange} (h : extractOr children = some all) :
    (∀ c ∈ children, (extractRowIdRanges c).isSome) ∧
      (id ∈ rows all ↔ ∃ c ∈ children, Admits id (extractRowIdRanges c)) := by
  induction children generalizing all with
  | nil =>
    obtain rfl : [] = all := by simpa [extractOr] using h
    simp
  | cons c children ih =>
    rw [extractOr] at h
    obtain ⟨r, hr, h⟩ := Option.bind_eq_some_iff.mp h
    obtain ⟨rest, hrest, h⟩ := Option.bind_eq_some_iff.mp h
    obtain rfl : r ++ rest = all := Option.some_inj.mp h
    obtain ⟨hsome, hiff⟩ := ih hrest
    rw [mem_rows_append, hiff, exists_mem_cons_iff, forall_mem_cons, hr]
    exact ⟨⟨rfl, hsome⟩, by simp [Admits]⟩

theorem extractOr_none (h : extractOr children = none) : ∃ c ∈ children, extractRowIdRanges c = none := by
  induction children with
  | nil => simp [extractOr] at h
  | cons c children ih =>
    cases hc : extractRowIdRanges c with
    | none => exact ⟨c, mem_cons_self, hc⟩
    | some r =>
      cases hrest : extractOr children with
      | none =>
        obtain ⟨d, hd, hnone⟩ := ih hrest
        exact ⟨d, mem_cons_of_mem c hd, hnone⟩
      | some rest =>
        rw [extractOr, hc, hrest] at h
        cases h

theorem mergeRowRanges_byStart (all : List RowRange) : ByStart (mergeRowRanges all) :=
  (mergeRowRanges_apart all).imp fun {a _} h => by have := a.le; omega

theorem extract_byStart (hp : I64Literals p) : ∀ r ∈ extractRowIdRanges p, ByStart r := by
  induction p with
  | leaf column index dataType op literals =>
    cases hp with | leaf hi64 =>
    intro r hr
    rw [extractRowIdRanges] at hr
    split at hr
    · exact (leafToRanges_spec (le_refl 0) (by decide) hi64 hr).1
    · cases hr
  | and children ih =>
    cases hp with | and h =>
    rw [extractRowIdRanges]
    exact (extractAnd_spec 0 (fun c hc => ih c hc (h c hc)) fun r hr => absurd hr (Option.not_mem_none r)).1
  | or children ih =>
    intro r hr
    rw [extractRowIdRanges] at hr
    obtain ⟨all, -, rfl⟩ := Option.map_eq_some_iff.mp hr
    exact mergeRowRanges_byStart all
  | _ => intro r hr; rw [extractRowIdRanges] at hr <;> cases hr

theorem admits_and (hc : ∀ c ∈ children, I64Literals c) :
    Admits id (extractRowIdRanges (.and children)) ↔ ∀ c ∈ children, Admits id (extractRowIdRanges c) := by
  rw [extractRowIdRanges, (extractAnd_spec id (fun c h => extract_byStart (hc c h))
    fun r hr => absurd hr (Option.not_mem_none r)).2, and_iff_right admits_none]

variable (h0 : 0 ≤ id) (hmax : id ≤ i64Max)
include h0 hmax

/-- **The ranges hold every row that satisfies the tree.** -/
theorem admits_of_satisfies (hp : I64Literals p) (h : RowSatisfies id other p) :
    Admits id (extractRowIdRanges p) := by
  induction p with
  | leaf column index dataType op literals =>
    cases hp with | leaf hi64 =>
    intro r hr
    rw [extractRowIdRanges] at hr
    rw [RowSatisfies, eval, rowIdLeaf] at h
    split at hr
    · next hcol =>
      obtain ⟨-, b, hb, hiff⟩ := leafToRanges_spec h0 hmax hi64 hr
      rw [if_pos hcol, hb] at h
      exact hiff.mp (Option.some_inj.mp h)
    · cases hr
  | and children ih =>
    cases hp with | and hc =>
    rw [RowSatisfies, eval_and, conj_true] at h
    exact (admits_and hc).mpr fun c hmem => ih c hmem (hc c hmem) (h c hmem)
  | or children ih =>
    cases hp with | or hc =>
    rw [RowSatisfies, eval_or] at h
    obtain ⟨c, hmem, hc'⟩ := disj_true h
    intro r hr
    rw [extractRowIdRanges] at hr
    obtain ⟨all, hall, rfl⟩ := Option.map_eq_some_iff.mp hr
    rw [rows_mergeRowRanges, (extractOr_some hall).2]
    exact ⟨c, hmem, ih c hmem (hc c hmem) hc'⟩
  | _ => intro r hr; rw [extractRowIdRanges] at hr <;> cases hr

omit h0 hmax in
theorem children_value {leaf : LeafEval} {P : Predicate → Prop} (u : Bool)
    (h : ∀ c ∈ children, ∃ b, eval leaf c = some b ∧ (b = true ↔ P c)) :
    ∃ b, evalChildren leaf u children = some b ∧
      (b = true ↔ if u then ∀ c ∈ children, P c else ∃ c ∈ children, P c) := by
  induction children with
  | nil => exact ⟨u, by cases u <;> simp [evalChildren, conj, disj], by cases u <;> simp⟩
  | cons c children ih =>
    obtain ⟨x, hx, hxp⟩ := h c mem_cons_self
    obtain ⟨y, hy, hyp⟩ := ih (forall_mem_cons.mp h).2
    refine ⟨join u x y, evalChildren_cons.mpr ⟨x, y, hx, hy, rfl⟩, ?_⟩
    cases u <;> simp_all [join]

omit h0 hmax in
theorem convertible_of_mem (h : convertibleAll children = true) : ∀ c ∈ children, convertibleRowIdOnly c = true := by
  induction children with
  | nil => exact forall_mem_nil _
  | cons c children ih =>
    rw [convertibleAll, Bool.and_eq_true] at h
    exact forall_mem_cons.mpr ⟨h.1, ih h.2⟩

/-- **The ranges of a convertible tree are exact**; where there are none, the tree is true of every row. -/
theorem convertible_exact (hconv : convertibleRowIdOnly p = true) (hp : I64Literals p) :
    ∃ b, eval (rowIdLeaf id other) p = some b ∧ (b = true ↔ Admits id (extractRowIdRanges p)) := by
  induction p with
  | leaf column index dataType op literals =>
    cases hp with | leaf hi64 =>
    rw [convertibleRowIdOnly, Bool.and_eq_true, Option.isSome_iff_exists] at hconv
    obtain ⟨hcol, r, hr⟩ := hconv
    obtain ⟨-, b, hb, hiff⟩ := leafToRanges_spec h0 hmax hi64 hr
    refine ⟨b, by rw [eval, rowIdLeaf, if_pos hcol, hb], ?_⟩
    rw [extractRowIdRanges, if_pos hcol, hr, hiff, admits_some]
  | and children ih =>
    cases hp with | and hc =>
    rw [convertibleRowIdOnly] at hconv
    rw [eval_and, admits_and hc]
    exact children_value true fun c h => ih c h (convertible_of_mem hconv c h) (hc c h)
  | or children ih =>
    cases hp with | or hc =>
    rw [convertibleRowIdOnly] at hconv
    obtain ⟨b, hb, hiff⟩ := children_value false fun c h => ih c h (convertible_of_mem hconv c h) (hc c h)
    refine ⟨b, (eval_or ..).trans hb, hiff.trans ?_⟩
    rw [extractRowIdRanges, if_neg Bool.false_ne_true]
    cases hor : extractOr children with
    | none =>
      obtain ⟨c, hmem, hnone⟩ := extractOr_none hor
      exact iff_of_true ⟨c, hmem, by rw [hnone]; exact admits_none⟩ admits_none
    | some all =>
      rw [← (extractOr_some hor).2, Option.map_some, admits_some, rows_mergeRowRanges]
  | _ => rw [convertibleRowIdOnly] at hconv <;> cases hconv

end trees

/-! ## filters -/

section filters
variable {q : Predicate} {ps out : List Predicate}

/-- the conjuncts of a list of trees that are no constant are all put into the flat list, unless
`AlwaysFalse` takes the place of everything -/
def Collected (ps out flat : List Predicate) : Prop :=
  flat = [.alwaysFalse] ∨
    .alwaysFalse ∉ flat ∧ (∀ q ∈ out, q ∈ flat) ∧ ∀ q ∈ splitAndAll ps, q ≠ .alwaysTrue → q ∈ flat

theorem flattenAnd_collected (h : ∀ p ∈ ps, ∀ out, .alwaysFalse ∉ out → Collected [p] out (flattenAndOne p out))
    (hout : .alwaysFalse ∉ out) : Collected ps out (flattenAnd ps out) := by
  induction ps generalizing out with
  | nil => rw [flattenAnd]; exact .inr ⟨hout, fun _ h => h, by simp [splitAndAll]⟩
  | cons p ps ih =>
    rw [flattenAnd]
    rcases h p mem_cons_self out hout with hfalse | ⟨hnot, hkeep, hparts⟩
    · rw [hfalse]
      exact .inl rfl
    · have hhead : ¬ (flattenAndOne p out).head?.any isFalse = true := fun hany => by
        obtain ⟨q, hq, hf⟩ := Option.any_eq_true _ _ |>.mp hany
        cases q <;> try cases hf
        exact hnot (mem_of_mem_head? hq)
      rw [if_neg hhead]
      rcases ih (forall_mem_cons.mp h).2 hnot with hfalse | ⟨hnot', hkeep', hparts'⟩
      · exact .inl hfalse
      refine .inr ⟨hnot', fun q hq => hkeep' q (hkeep q hq), fun q hq hne => ?_⟩
      rw [splitAndAll, mem_append] at hq
      rcases hq with hq | hq
      · exact hkeep' q (hparts q (by simpa [splitAndAll] using hq) hne)
      · exact hparts' q hq hne

theorem flattenAndOne_collected (p : Predicate) :
    ∀ out, .alwaysFalse ∉ out → Collected [p] out (flattenAndOne p out) := by
  have hpush : ∀ q : Predicate, q ≠ .alwaysFalse → splitAnd q = [q] → (∀ out, flattenAndOne q out = out ++ [q]) →
      ∀ out, .alwaysFalse ∉ out → Collected [q] out (flattenAndOne q out) := fun q hne hsplit heq out hout => by
    rw [heq]
    refine .inr ⟨by simp [hout, hne.symm], fun r hr => mem_append_left _ hr, fun r hr _ => ?_⟩
    simp [splitAndAll, hsplit] at hr
    simp [hr]
  induction p with
  | alwaysTrue => exact fun out hout => .inr ⟨by simpa [flattenAndOne] using hout, by simp [flattenAndOne],
      by simp [splitAndAll, splitAnd]⟩
  | alwaysFalse => exact fun out _ => .inl (by rw [flattenAndOne])
  | and children ih =>
    intro out hout
    rw [flattenAndOne]
    simpa [Collected, splitAndAll, splitAnd] using flattenAnd_collected ih hout
  | leaf | or | not => exact hpush _ (by simp) (by simp [splitAnd]) fun _ => by simp [flattenAndOne]

theorem admits_splitAnd {id : Int} {p : Predicate} (hp : I64Literals p) :
    Admits id (extractRowIdRanges p) ↔ ∀ q ∈ splitAnd p, Admits id (extractRowIdRanges q) := by
  induction p with
  | and children ih =>
    cases hp with | and hc =>
    rw [admits_and hc, splitAnd]
    constructor
    · intro h q hq
      obtain ⟨c, hmem, hq⟩ := mem_splitAndAll.mp hq
      exact (ih c hmem (hc c hmem)).mp (h c hmem) q hq
    · intro h c hmem
      exact (ih c hmem (hc c hmem)).mpr fun q hq => h q (mem_splitAndAll.mpr ⟨c, hmem, hq⟩)
  | _ => simp [splitAnd]

theorem admits_of_mkAnd {id : Int} (hps : ∀ p ∈ ps, I64Literals p)
    (hr : extractRowIdRanges (mkAnd ps) = some r) (h : id ∈ rows r) {c : Predicate} (hc : c ∈ ps) :
    Admits id (extractRowIdRanges c) := by
  refine (admits_splitAnd (hps c hc)).mpr fun q hq => ?_
  by_cases htrue : q = .alwaysTrue
  · simpa [htrue, extractRowIdRanges] using admits_none
  have hp : I64Literals (mkAnd ps) := Leaves.mkAnd hps
  rw [mkAnd] at hr hp
  have hflat : Collected ps [] (flattenAnd ps []) :=
    flattenAnd_collected (fun p _ => flattenAndOne_collected p) not_mem_nil
  rcases hflat with hfalse | ⟨-, -, hparts⟩
  · -- a filter with `AlwaysFalse` in it gives no ranges
    rw [hfalse, extractRowIdRanges] at hr <;> cases hr
  · have hmem := hparts q (mem_splitAndAll.mpr ⟨c, hc, hq⟩) htrue
    generalize flattenAnd ps [] = flat at hr hp hmem
    match flat with
    | [] => exact absurd hmem not_mem_nil
    | [p] =>
      rw [mem_singleton.mp hmem, hr, admits_some]
      exact h
    | p :: p' :: flat =>
      cases hp with | and hflat =>
      have hall := admits_some.mpr h
      rw [← hr, admits_and hflat] at hall
      exact hall q hmem

end filters

/-! ## main theorem -/

/-- **Row ranges out of `_ROW_ID` predicates.**  For a row with a non-negative id: the ranges of a
tree hold it if it satisfies the tree; if the ranges represent the tree they hold it only then; and a
filter selects it exactly if the derived ranges hold it and it satisfies what is left of the filter. -/
theorem row_id_ranges_keep_rows {id : Int} (h0 : 0 ≤ id) (hmax : id ≤ i64Max) (other : LeafEval) :
    (∀ p r, I64Literals p → extractRowIdRanges p = some r → RowSatisfies id other p → id ∈ rows r) ∧
    (∀ p, I64Literals p → rangesRepresentConjunct p = true →
      ∃ r, extractRowIdRanges p = some r ∧ (RowSatisfies id other p ↔ id ∈ rows r)) ∧
    ∀ rowTracking dataEvolution conjuncts, (∀ c ∈ conjuncts, I64Literals c) →
      ((∀ c ∈ conjuncts, RowSatisfies id other c) ↔
        (∀ r, (tryExtractRowIdRanges rowTracking dataEvolution conjuncts).1 = some r → id ∈ rows r) ∧
        ∀ c ∈ (tryExtractRowIdRanges rowTracking dataEvolution conjuncts).2, RowSatisfies id other c) := by
  have hexact : ∀ p, I64Literals p → rangesRepresentConjunct p = true →
      (RowSatisfies id other p ↔ Admits id (extractRowIdRanges p)) := fun p hp h => by
    rw [rangesRepresentConjunct, Bool.and_eq_true] at h
    obtain ⟨b, hb, hiff⟩ : ∃ b, eval (rowIdLeaf id other) p = some b ∧ _ := convertible_exact h0 hmax h.1 hp
    rw [← hiff, RowSatisfies, hb, Option.some_inj]
  refine ⟨fun p r hp hr h => admits_of_satisfies h0 hmax hp h r hr, fun p hp h => ?_, fun rt de conjuncts hps => ?_⟩
  · have hiff := hexact p hp h
    rw [rangesRepresentConjunct, Bool.and_eq_true, Option.any_eq_true] at h
    obtain ⟨-, r, hr, -⟩ := h
    exact ⟨r, hr, by rw [hiff, hr, admits_some]⟩
  unfold tryExtractRowIdRanges
  split
  · exact ⟨fun h => ⟨nofun, h⟩, fun h => h.2⟩
  split
  · exact ⟨fun h => ⟨nofun, h⟩, fun h => h.2⟩
  split
  · next r hr =>
    constructor
    · intro h
      have hconj : RowSatisfies id other (mkAnd conjuncts) := eval_mkAnd (conj_true.mpr h)
      exact ⟨fun r' hr' => admits_of_satisfies h0 hmax (Leaves.mkAnd hps) hconj r' (hr.trans hr'),
        fun c hc => h c (mem_filter.mp hc).1⟩
    · rintro ⟨hrows, hleft⟩ c hc
      cases hrep : rangesRepresentConjunct c with
      | false => exact hleft c (mem_filter.mpr ⟨hc, by rw [hrep]; rfl⟩)
      | true => exact (hexact c (hps c hc) hrep).mpr (admits_of_mkAnd hps hr (hrows r rfl) hc)
  · exact ⟨fun h => ⟨nofun, h⟩, fun h => h.2⟩

/-- `_ROW_ID >= 3 AND _ROW_ID IN (5, 5, 9)` becomes two points, the first of them twice -/
theorem row_id_ranges_keep_rows_at_five :
    let leaf := fun op literals => Predicate.leaf "_ROW_ID" 0 ⟨.bigInt, false⟩ op literals
    let filter := [leaf .gtEq [.long 3], leaf .isIn [.long 5, .long 9, .long 5]]
    let derived := [point 5, point 5, point 9]
    (tryExtractRowIdRanges true false filter).1 = some derived ∧
      (tryExtractRowIdRanges true false filter).2.length = 0 ∧
      ((∀ c ∈ filter, RowSatisfies 5 (fun _ _ _ _ _ => none) c) ↔ 5 ∈ rows derived) := by
  intro leaf filter derived
  have hi64 : ∀ c ∈ filter, I64Literals c := by
    simp only [filter, leaf, forall_mem_cons]
    refine ⟨.leaf ?_, .leaf ?_, nofun⟩
    all_goals simp [Datum.InI64, datumToI64, i64Max]
  have hranges : (tryExtractRowIdRanges true false filter).1 = some derived := by decide +kernel
  have hleft : (tryExtractRowIdRanges true false filter).2.length = 0 := by decide +kernel
  refine ⟨hranges, hleft, ?_⟩
  rw [(row_id_ranges_keep_rows (by decide) (by decide) _).2.2 true false filter hi64, hranges,
    length_eq_zero_iff.mp hleft]
  simp

end Paimon
