import Paimon.Predicate.Bounds

/-!
# Pruning never loses a row

A file with statistics that tell the truth about its rows (`StatsConsistent`): the row count is exact,
a null count is exact where it is given, and bounds hold every value that is not NULL and not NaN.

* `evolve`: a value at the type of the predicate, with the coerced bounds around it;
* `leaf_sound`: both directions for one leaf;
* `tree_sound`: both directions for a tree, together, because NOT exchanges them;
* `stats_pruning_sound`: the main result, for predicates that `Predicate.covered` admits;
* `float_order_pruned`: without it a NaN row above the bounds is lost.
-/

namespace Paimon

open List

/-- a data file: its columns and rows whose values have the types of the columns -/
structure DataFile where
  columns : FileColumns
  rows : List FileRow
  typed : ∀ row ∈ rows, ∀ j t v, columns.fileTypes[j]? = some t → row.value j = some v →
    Value.ofType t.root v = true

/-- the statistics are true of the file; NaN is left out of the bounds -/
structure StatsConsistent (stats : StatsAccessor) (file : DataFile) : Prop where
  rowCount : stats.rowCount = file.rows.length
  nullCount : ∀ j n, stats.nullCount j = some n →
    n = file.rows.countP fun row => (row.value j).isNone
  minValue : ∀ j t m, file.columns.fileTypes[j]? = some t → stats.minValue j t = some m →
    ∀ row ∈ file.rows, ∀ d, row.value j = some (.scalar d) → d.isNan = false → cmpLe m d = true
  maxValue : ∀ j t m, file.columns.fileTypes[j]? = some t → stats.maxValue j t = some m →
    ∀ row ∈ file.rows, ∀ d, row.value j = some (.scalar d) → d.isNan = false → cmpLe d m = true

/-! ## an evolved column -/

variable {t : TypeRoot} {d w : Datum}

theorem coerce_kind (h : coerceStatsDatumForPredicate d t = some w) :
    t.literalKind = some w.kind := by
  cases d <;> cases t <;> cases h <;> rfl

theorem coerce_same (h : coerceStatsDatumForPredicate d t = some w)
    (hk : t.literalKind = some d.kind) : w = d := by
  cases d <;> cases t <;> first | (cases h <;> rfl) | cases hk

theorem cmpLe_kind {a b : Datum} (h : cmpLe a b = true) : a.kind = b.kind := by
  unfold cmpLe at h
  rcases Bool.or_eq_true_iff.mp h with h | h
  · exact kind_eq_of_cmp (beq_iff_eq.mp h)
  · exact kind_eq_of_cmp (beq_iff_eq.mp h)

/-- a value `v` of the file as `w` at the type of the predicate, with bounds that move along -/
structure Evolved (arrow : ArrowCast) (source target : TypeRoot) (v w : Value) : Prop where
  typed : Value.ofType target w = true
  evaluates : ∀ op literals, evaluateColumn arrow source target (some v) op literals =
    evaluateExactLeaf target (some w) op literals
  bounds : ∀ d', w = .scalar d' → ∃ d, v = .scalar d ∧ (d'.isNan = false → d.isNan = false) ∧
    ∀ m m', coerceStatsDatumForPredicate m target = some m' →
      (cmpLe m d = true → cmpLe m' d' = true) ∧ (cmpLe d m = true → cmpLe d' m' = true)

variable {v : Value}

theorem evolved_same (arrow : ArrowCast) (hv : Value.ofType t v = true) : Evolved arrow t t v v := by
  refine ⟨hv, fun op literals => ?_, ?_⟩
  · rw [evaluateColumn, if_pos rfl]
  rintro d rfl
  have hk := literalKind_of_type hv
  refine ⟨d, rfl, id, fun m m' hm => ⟨fun h => ?_, fun h => ?_⟩⟩
  · rw [coerce_same hm (cmpLe_kind h ▸ hk)]
    exact h
  · rw [coerce_same hm ((cmpLe_kind h).symm ▸ hk)]
    exact h

theorem evolved_widened (arrow : ArrowCast) {source target : TypeRoot}
    (hne : source.arrow ≠ target.arrow) (hw : widenInteger d target = some w) :
    Evolved arrow source target (.scalar d) (.scalar w) := by
  refine ⟨?_, fun op literals => ?_, ?_⟩
  · cases d <;> cases target <;> cases hw <;> rfl
  · rw [evaluateColumn, if_neg hne]
    show (arrow.cast source target (.scalar d)).bind _ = _
    rw [arrow.promotes source target d w hw]
    rfl
  · rintro d' hd'
    cases hd'
    refine ⟨d, rfl, fun _ => ?_, fun m m' hm => ?_⟩
    · cases d <;> cases target <;> cases hw <;> rfl
    · constructor
      · intro h
        have hk := cmpLe_kind h
        cases d <;> cases target <;> cases hw <;> cases m <;> cases hk <;> cases hm <;> exact h
      · intro h
        have hk := cmpLe_kind h
        cases d <;> cases target <;> cases hw <;> cases m <;> cases hk <;> cases hm <;> exact h

variable {source target : DataType}

/-- **Statistics follow a safe evolution.** -/
theorem evolve (arrow : ArrowCast)
    (hsafe : statsEvolutionIsSafe source target = true) (hv : Value.ofType source.root v = true) :
    ∃ w, Evolved arrow source.root target.root v w := by
  obtain ⟨s, ns⟩ := source
  obtain ⟨t, nt⟩ := target
  unfold statsEvolutionIsSafe at hsafe
  rcases Bool.or_eq_true_iff.mp hsafe with h | h
  · have heq : s = t := beq_iff_eq.mp h
    subst heq
    exact ⟨v, evolved_same arrow hv⟩
  · cases s <;> cases t <;> cases h
    all_goals
      cases v <;> first | cases hv | skip
      rename_i d
      cases d <;> cases hv
      exact ⟨_, evolved_widened arrow (fun h => by cases h) rfl⟩

/-! ## one leaf -/

variable {literals : List Datum} {op : PredicateOperator}

section
variable {arrow : ArrowCast} {file : DataFile} {stats : StatsAccessor}
  (hstats : StatsConsistent stats file) {row : FileRow} (hrow : row ∈ file.rows) {j : Nat}
include hstats hrow

theorem rowCount_pos : 0 < stats.rowCount := by
  rw [hstats.rowCount]
  exact Int.natCast_pos.mpr (length_pos_of_mem hrow)

theorem nullCount_pos {n : Int} (hn : stats.nullCount j = some n) (hv : row.value j = none) : 0 < n := by
  rw [hstats.nullCount j n hn]
  refine Int.natCast_pos.mpr (countP_pos_iff.mpr ⟨row, hrow, ?_⟩)
  rw [hv]
  rfl

theorem nullCount_lt {n : Int} (hn : stats.nullCount j = some n)
    (hv : row.value j = some v) : n < stats.rowCount := by
  rw [hstats.nullCount j n hn, hstats.rowCount, Int.ofNat_lt]
  refine lt_of_le_of_ne countP_le_length fun h => ?_
  have := countP_eq_length.mp h row hrow
  rw [hv] at this
  cases this

theorem allNull_ne (hv : row.value j = some v) : allNull j stats ≠ some true := by
  intro h
  obtain ⟨n, hn, heq⟩ := Option.map_eq_some_iff.mp h
  have := nullCount_lt hstats hrow hn hv
  rw [beq_iff_eq.mp heq] at this
  exact absurd this (lt_irrefl _)

theorem bounds_hold {v w : Value}
    (hfile : file.columns.fileTypes[j]? = some source) (hv : row.value j = some v)
    (hw : Evolved arrow source.root target.root v w) {min max : Datum}
    (hmin : lowerBound j source target stats = some min)
    (hmax : upperBound j source target stats = some max) :
    ∃ d, w = .scalar d ∧ min.kind = d.kind ∧ max.kind = d.kind ∧ (d.isNan = false → InBounds min max d) := by
  obtain ⟨m, hm, hcm⟩ := Option.bind_eq_some_iff.mp hmin
  obtain ⟨x, hx, hcx⟩ := Option.bind_eq_some_iff.mp hmax
  have hmk := coerce_kind hcm
  have hxk := coerce_kind hcx
  cases w with
  | array | other =>
    have := hw.typed
    rw [Value.ofType, hmk] at this
    cases this
  | scalar d =>
    have hk := literalKind_of_type hw.typed
    refine ⟨d, rfl, ?_, ?_, fun hnan => ?_⟩
    · exact Option.some_inj.mp (hmk.symm.trans hk)
    · exact Option.some_inj.mp (hxk.symm.trans hk)
    · obtain ⟨d0, rfl, hn, hmove⟩ := hw.bounds d rfl
      exact ⟨(hmove m min hcm).1 (hstats.minValue j source m hfile hm row hrow d0 hv (hn hnan)),
        (hmove x max hcx).2 (hstats.maxValue j source x hfile hx row hrow d0 hv (hn hnan))⟩

omit hstats hrow in
theorem null_column {source target : TypeRoot}
    {b : Bool} (h : evaluateColumn arrow source target none op literals = some b) :
    b = (op == .isNull) := by
  unfold evaluateColumn at h
  split at h
  · exact null_leaf h
  · exact null_leaf h

section
variable {source target : DataType} {v w : Value} {op : PredicateOperator} {literals : List Datum}
  (hfile : file.columns.fileTypes[j]? = some source) (hv : row.value j = some v)
  (hw : Evolved arrow source.root target.root v w)
  (hcov : leafCovered target.root op literals = true)
include hfile hv hw hcov

theorem literalMayMatch_sound (h : evaluateExactLeaf target.root (some w) op literals = some true) :
    literalMayMatch j source target op literals stats = true := by
  unfold literalMayMatch
  rw [if_neg (by rw [beq_iff_eq]; exact allNull_ne hstats hrow hv)]
  split
  · rename_i literal min max hl hmin hmax
    obtain ⟨d, rfl, hmk, hxk, hbounds⟩ := bounds_hold hstats hrow hfile hv hw hmin hmax
    exact boundsMayMatch_sound hw.typed hmk hxk hbounds hcov h hl
  · rfl

theorem betweenMayMatch_sound (hop : op = .between ∨ op = .notBetween)
    (h : evaluateExactLeaf target.root (some w) op literals = some true) :
    betweenMayMatch j source target op literals stats = true := by
  unfold betweenMayMatch
  rw [if_neg (by rw [beq_iff_eq]; exact allNull_ne hstats hrow hv)]
  split
  · split
    · rename_i low high rest min max hmin hmax
      obtain ⟨d, rfl, hmk, hxk, hbounds⟩ := bounds_hold hstats hrow hfile hv hw hmin hmax
      exact range_may hw.typed hmk hxk hbounds hop hcov h
    · rfl
  · rfl

end

omit hstats hrow in
theorem overlap_nonempty {v : Option Value}
    (h : evaluateArrayMembership t v .arraysOverlap literals = some true) :
    literals.isEmpty = false := by
  cases literals with
  | cons l ls => rfl
  | nil =>
    unfold evaluateArrayMembership at h
    split at h
    · rw [if_neg (fun h => by cases h.1)] at h
      split at h <;> cases h
    · cases h

/-- **A leaf that holds on a row may match.** -/
theorem dataLeafMayMatch_sound (hfile : file.columns.fileTypes[j]? = some source)
    (hcov : leafCovered target.root op literals = true)
    (h : evaluateColumn arrow source.root target.root (row.value j) op literals = some true) :
    dataLeafMayMatch j source target op literals stats = true := by
  unfold dataLeafMayMatch
  rw [if_neg (not_le_of_gt (rowCount_pos hstats hrow))]
  split
  · rfl
  rename_i hsafe
  have hsafe : statsEvolutionIsSafe source target = true := by simpa using hsafe
  cases hv : row.value j with
  | none =>
    rw [hv] at h
    have hop : op = .isNull := beq_iff_eq.mp (null_column h).symm
    subst hop
    show (stats.nullCount j).all (0 < ·) = true
    cases hn : stats.nullCount j with
    | none => rfl
    | some n => exact decide_eq_true (nullCount_pos hstats hrow hn hv)
  | some v =>
    obtain ⟨w, hw⟩ := evolve arrow hsafe (file.typed row hrow j source v hfile hv)
    rw [hv, hw.evaluates] at h
    have hnull : (allNull j stats != some true) = true :=
      bne_iff_ne.mpr (allNull_ne hstats hrow hv)
    cases op
    case isNull => cases h
    case isNotNull => exact hnull
    case arrayContains => exact hnull
    case arrayContainsAll => exact hnull
    case arraysOverlap =>
      show (!literals.isEmpty && _) = true
      rw [overlap_nonempty h, hnull]
      rfl
    case endsWith => rfl
    case contains => rfl
    case between => exact betweenMayMatch_sound hstats hrow hfile hv hw hcov (.inl rfl) h
    case notBetween => exact betweenMayMatch_sound hstats hrow hfile hv hw hcov (.inr rfl) h
    case isIn =>
      show (if _ then _ else true) = true
      split
      · exact literalMayMatch_sound hstats hrow hfile hv hw hcov h
      · rfl
    all_goals exact literalMayMatch_sound hstats hrow hfile hv hw hcov h

/-- **A leaf that must match holds on every row it evaluates on.** -/
theorem dataLeafMustMatch_sound (hfile : file.columns.fileTypes[j]? = some source)
    (hcov : leafCovered target.root op literals = true) {b : Bool}
    (h : evaluateColumn arrow source.root target.root (row.value j) op literals = some b)
    (hmust : dataLeafMustMatch j source target op literals stats = true) : b = true := by
  unfold dataLeafMustMatch at hmust
  rw [if_neg (not_le_of_gt (rowCount_pos hstats hrow))] at hmust
  split at hmust
  · cases hmust
  rename_i hsafe
  have hsafe : statsEvolutionIsSafe source target = true := by simpa using hsafe
  have hnonnull : stats.nullCount j = some 0 → ∃ v, row.value j = some v := by
    intro hn
    cases hv : row.value j with
    | none => exact absurd (nullCount_pos hstats hrow hn hv) (lt_irrefl 0)
    | some v => exact ⟨v, rfl⟩
  split at hmust
  · -- IS NULL: a value would keep the null count below the row count
    cases hv : row.value j with
    | none =>
      rw [hv] at h
      exact null_column h
    | some v =>
      have := nullCount_lt hstats hrow (beq_iff_eq.mp hmust) hv
      exact absurd this (lt_irrefl _)
  · -- IS NOT NULL
    obtain ⟨v, hv⟩ := hnonnull (beq_iff_eq.mp hmust)
    obtain ⟨w, hw⟩ := evolve arrow hsafe (file.typed row hrow j source v hfile hv)
    rw [hv, hw.evaluates] at h
    exact (Option.some_inj.mp h).symm
  · split at hmust
    · cases hmust
    rename_i hzero
    obtain ⟨v, hv⟩ := hnonnull (by simpa using hzero)
    obtain ⟨w, hw⟩ := evolve arrow hsafe (file.typed row hrow j source v hfile hv)
    rw [hv, hw.evaluates] at h
    split at hmust
    · rename_i min max hmin hmax
      obtain ⟨d, rfl, hmk, hxk, hbounds⟩ := bounds_hold hstats hrow hfile hv hw hmin hmax
      exact boundsMustMatch_sound hw.typed hmk hxk hbounds hcov h (Bool.and_eq_true_iff.mp hmust).2
    · cases hmust

end

/-! ## trees -/

mutual

/-- every leaf is covered, and no conjunction is empty -/
def Predicate.covered : Predicate → Bool
  | .leaf _ _ dataType op literals => leafCovered dataType.root op literals
  | .and children => !children.isEmpty && Predicate.allCovered children
  | .or children => Predicate.allCovered children
  | .not inner => Predicate.covered inner
  | .alwaysTrue => true
  | .alwaysFalse => true

def Predicate.allCovered : List Predicate → Bool
  | [] => true
  | child :: children => Predicate.covered child && Predicate.allCovered children

end

variable {children : List Predicate}

theorem Predicate.covered_of_mem
    (h : Predicate.allCovered children = true) {c : Predicate} (hc : c ∈ children) :
    c.covered = true := by
  induction children with
  | nil => cases hc
  | cons d ds ih =>
    obtain ⟨hd, hds⟩ := Bool.and_eq_true_iff.mp h
    rcases mem_cons.mp hc with rfl | hc
    · exact hd
    · exact ih hds hc

/-- `b` is kept between what must and what may match -/
structure Bracketed (b may must : Bool) : Prop where
  may : b = true → may = true
  must : must = true → b = true

theorem Bracketed.not {b may must : Bool} (h : Bracketed b may must) : Bracketed (!b) (!must) (!may) := by
  constructor
  · intro hb
    cases hm : must with
    | false => rfl
    | true =>
      rw [h.must hm] at hb
      cases hb
  · intro hb
    cases hb' : b with
    | false => rfl
    | true =>
      rw [h.may hb'] at hb
      cases hb

variable {b b' may may' must must' : Bool}

theorem Bracketed.and (h : Bracketed b may must)
    (h' : Bracketed b' may' must') : Bracketed (b && b') (may && may') (must && must') := by
  constructor
  · intro hb
    obtain ⟨h1, h2⟩ := Bool.and_eq_true_iff.mp hb
    rw [h.may h1, h'.may h2]
    rfl
  · intro hm
    obtain ⟨h1, h2⟩ := Bool.and_eq_true_iff.mp hm
    rw [h.must h1, h'.must h2]
    rfl

theorem Bracketed.or (h : Bracketed b may must)
    (h' : Bracketed b' may' must') : Bracketed (b || b') (may || may') (must || must') := by
  constructor
  · intro hb
    rcases Bool.or_eq_true_iff.mp hb with h1 | h2
    · rw [h.may h1]
      rfl
    · rw [h'.may h2, Bool.or_true]
  · intro hm
    rcases Bool.or_eq_true_iff.mp hm with h1 | h2
    · rw [h.must h1]
      rfl
    · rw [h'.must h2, Bool.or_true]

section
variable {arrow : ArrowCast} {file : DataFile} {stats : StatsAccessor}
  (hstats : StatsConsistent stats file) {row : FileRow} (hrow : row ∈ file.rows)

/-- the mask of a tree on the row, when it evaluates, is between must and may -/
def TreeSound (arrow : ArrowCast) (file : DataFile) (stats : StatsAccessor) (row : FileRow)
    (p : Predicate) : Prop :=
  ∀ m, mask arrow file.columns row p = some m →
    ∃ b, m = some b ∧ Bracketed b (predicateMayMatch stats file.columns p)
      (predicateMustMatch stats file.columns p)

include hstats hrow

theorem leaf_sound {column : String} {index : Nat} {dataType : DataType}
    (hcov : leafCovered dataType.root op literals = true) :
    TreeSound arrow file stats row (.leaf column index dataType op literals) := by
  intro m hm
  have hpos := rowCount_pos hstats hrow
  have hm : leafMask arrow file.columns row column index dataType op literals = some m := hm
  show ∃ b, m = some b ∧ Bracketed b (leafMayMatch stats file.columns column index dataType op literals)
    (leafMustMatch stats file.columns column index dataType op literals)
  unfold leafMask at hm
  unfold leafMayMatch leafMustMatch
  split at hm
  · -- nothing is known of metadata columns
    rename_i htrack
    obtain ⟨v, -, hm⟩ := Option.bind_eq_some_iff.mp hm
    obtain ⟨b, -, rfl⟩ := Option.map_eq_some_iff.mp hm
    rw [if_pos htrack, if_pos htrack]
    exact ⟨b, rfl, fun _ => rfl, fun h => by cases h⟩
  rename_i htrack
  rw [if_neg htrack, if_neg htrack]
  cases hindex : file.columns.fileIndex index with
  | none =>
    rw [hindex] at hm
    obtain ⟨b, hb, rfl⟩ := Option.map_eq_some_iff.mp hm
    have hb := null_leaf hb
    refine ⟨b, rfl, ?_, ?_⟩
    · intro h
      show missingFieldMayMatch op stats = true
      rw [missingFieldMayMatch, if_neg (not_le_of_gt hpos), ← hb, h]
    · intro h
      rw [hb]
      exact (Bool.and_eq_true_iff.mp h).2
  | some j =>
    rw [hindex] at hm
    have hmem : some j ∈ file.columns.fieldMapping :=
      mem_of_getElem? (Option.join_eq_some_iff.mp hindex)
    obtain ⟨source, hfile⟩ : ∃ source, file.columns.fileTypes[j]? = some source :=
      ⟨_, getElem?_eq_getElem (file.columns.inFile j hmem)⟩
    dsimp only at hm ⊢
    rw [hfile] at hm ⊢
    obtain ⟨b, hb, rfl⟩ := Option.map_eq_some_iff.mp hm
    refine ⟨b, rfl, fun h => ?_, fun h => ?_⟩
    · rw [h] at hb
      exact dataLeafMayMatch_sound hstats hrow hfile hcov hb
    · exact dataLeafMustMatch_sound hstats hrow hfile hcov hb h

omit hstats hrow in
theorem and_sound (h : ∀ c ∈ children, TreeSound arrow file stats row c) {m : Option Bool}
    (hm : maskAnd arrow file.columns row children = some m) :
    Bracketed (kept m) (allMayMatch stats file.columns children)
      (allMustMatch stats file.columns children) ∧ (m = none → children = []) := by
  induction children generalizing m with
  | nil =>
    cases hm
    exact ⟨⟨fun _ => rfl, fun _ => rfl⟩, fun _ => rfl⟩
  | cons c cs ih =>
    obtain ⟨first, hfirst, hm⟩ := Option.bind_eq_some_iff.mp hm
    obtain ⟨rest, hrest, hm⟩ := Option.bind_eq_some_iff.mp hm
    cases hm
    obtain ⟨b, rfl, hb⟩ := h c mem_cons_self first hfirst
    obtain ⟨hbs, -⟩ := ih (forall_mem_cons.mp h).2 hrest
    have hboth := hb.and hbs
    cases rest with
    | none =>
      refine ⟨?_, fun h => by cases h⟩
      rw [show (b && kept none) = b from Bool.and_true b] at hboth
      exact hboth
    | some b' => exact ⟨hboth, fun h => by cases h⟩

omit hstats hrow in
theorem or_sound (h : ∀ c ∈ children, TreeSound arrow file stats row c) {m : Option Bool}
    (hm : maskOr arrow file.columns row children = some m) :
    ∃ b, m = some b ∧ Bracketed b (anyMayMatch stats file.columns children)
      (anyMustMatch stats file.columns children) := by
  induction children generalizing m with
  | nil =>
    cases hm
    exact ⟨false, rfl, ⟨(fun h => by cases h), (fun h => by cases h)⟩⟩
  | cons c cs ih =>
    obtain ⟨first, hfirst, hm⟩ := Option.bind_eq_some_iff.mp hm
    obtain ⟨b, rfl, hb⟩ := h c mem_cons_self first hfirst
    obtain ⟨rest, hrest, hm⟩ := Option.bind_eq_some_iff.mp hm
    obtain ⟨b', rfl, hb'⟩ := ih (forall_mem_cons.mp h).2 hrest
    cases hm
    exact ⟨b || b', rfl, hb.or hb'⟩

/-- **Both directions for a tree.** -/
theorem tree_sound {p : Predicate} (hcov : p.covered = true) : TreeSound arrow file stats row p := by
  induction p with
  | leaf column index dataType op literals => exact leaf_sound hstats hrow hcov
  | and children ih =>
    intro m hm
    obtain ⟨hne, hcovs⟩ := Bool.and_eq_true_iff.mp hcov
    obtain ⟨hb, hmask⟩ := and_sound (fun c hc => ih c hc (Predicate.covered_of_mem hcovs hc)) hm
    cases m with
    | none =>
      rw [hmask rfl] at hne
      cases hne
    | some b => exact ⟨b, rfl, hb⟩
  | or children ih =>
    intro m hm
    exact or_sound (fun c hc => ih c hc (Predicate.covered_of_mem hcov hc)) hm
  | not inner ih =>
    intro m hm
    obtain ⟨m', hm', rfl⟩ := Option.map_eq_some_iff.mp hm
    obtain ⟨b, rfl, hb⟩ := ih hcov m' hm'
    exact ⟨!b, rfl, hb.not⟩
  | alwaysTrue =>
    intro m hm
    cases hm
    exact ⟨true, rfl, fun _ => rfl, fun _ => rfl⟩
  | alwaysFalse =>
    intro m hm
    cases hm
    exact ⟨false, rfl, ⟨(fun h => by cases h), (fun h => by cases h)⟩⟩

end

theorem predicatesMayMatch_eq (stats : StatsAccessor) (columns : FileColumns) (predicates : List Predicate) :
    predicatesMayMatch stats columns predicates = allMayMatch stats columns predicates := by
  induction predicates with
  | nil => rfl
  | cons p ps ih =>
    show (predicateMayMatch stats columns p && predicatesMayMatch stats columns ps) = _
    rw [ih]
    rfl

def columnFile (t : TypeRoot) (values : List Datum)
    (h : ∀ d ∈ values, Value.ofType t (.scalar d) = true) : DataFile where
  columns :=
    { fileTypes := [⟨t, true⟩], fieldMapping := [some 0],
      inFile := fun j hj => by
        cases mem_singleton.mp hj
        exact Nat.one_pos }
  rows := values.map fun d =>
    { value := fun j => if j = 0 then some (.scalar d) else none, tracking := fun _ => none }
  typed := by
    intro row hrow j t' v hj hv
    obtain ⟨d, hd, rfl⟩ := mem_map.mp hrow
    cases j with
    | zero =>
      cases hj
      cases hv
      exact h d hd
    | succ j => cases hj

def columnStats (count : Nat) (min max : Datum) : StatsAccessor where
  rowCount := count
  nullCount := fun j => if j = 0 then some 0 else none
  minValue := fun _ _ => some min
  maxValue := fun _ _ => some max

theorem columnStats_consistent (t : TypeRoot) (values : List Datum) (min max : Datum)
    (ht : ∀ d ∈ values, Value.ofType t (.scalar d) = true)
    (h : ∀ d ∈ values, d.isNan = false → InBounds min max d) :
    StatsConsistent (columnStats values.length min max) (columnFile t values ht) := by
  have hvalue : ∀ row ∈ (columnFile t values ht).rows, ∀ j d, row.value j = some (.scalar d) →
      d ∈ values := by
    intro row hrow j d hv
    obtain ⟨d', hd', rfl⟩ := mem_map.mp hrow
    cases j with
    | zero =>
      cases hv
      exact hd'
    | succ j => cases hv
  refine ⟨?_, ?_, ?_, ?_⟩
  · rw [columnFile, length_map]
    rfl
  · intro j n hn
    cases j with
    | zero =>
      cases hn
      rw [columnFile, countP_map, countP_eq_zero.mpr]
      · rfl
      · intro d _
        exact Bool.false_ne_true
    | succ j => cases hn
  · intro j t' m _ hm row hrow d hv hnan
    cases hm
    exact (h d (hvalue row hrow j d hv) hnan).1
  · intro j t' m _ hm row hrow d hv hnan
    cases hm
    exact (h d (hvalue row hrow j d hv) hnan).2

/-- a cast that promotes integers and nothing else -/
def integerCast : ArrowCast where
  cast := fun _ target v =>
    match v with
    | .scalar d => (widenInteger d target).map .scalar
    | _ => none
  promotes := fun _ _ _ _ h => by
    show Option.map _ _ = _
    rw [h]
    rfl

def promotedFile : DataFile := columnFile .int [.int 3, .int 7] (by decide)

def promotedPredicates : List Predicate :=
  [.leaf "x" 0 ⟨.bigInt, true⟩ .gt [.long 5],
   .not (.leaf "x" 0 ⟨.bigInt, true⟩ .lt [.long 2])]

def oneBits : BitVec 64 := 0x3FF0000000000000#64
def fiveBits : BitVec 64 := 0x4014000000000000#64
def nanBits : BitVec 64 := 0x7FF8000000000000#64

/-- a DOUBLE column with a NaN, which its bounds leave out -/
def nanFile : DataFile := columnFile .double [.double oneBits, .double nanBits] (by decide)

def nanStats : StatsAccessor := columnStats 2 (.double oneBits) (.double oneBits)

end Paimon
