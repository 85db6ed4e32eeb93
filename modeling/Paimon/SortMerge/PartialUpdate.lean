import Paimon.Lib.Latest
import Paimon.SortMerge.MergeFunction

/-!
# The partial-update merge function

`PartialUpdateMergeFunction` of `table/sort_merge.rs` without field aggregators.  A row is its value
columns (`Columns`); a column of the result refers to the row it was selected from.

* `applyAdd`, `applyRetract`: what one row does to the selection;
* `mergeUnreduced`, `merge`: the rows in sequence order; a lone row is kept as it is;
* `groupRank`, `columnRank`: rows ordered by the sequence fields of a group;
* `merge_adds`: with no field in two groups, each column of a merge of adds is taken from the latest row by a
  rank of its own (`Latest`);
* `merged_summary`: such a merge can stand for the rows it merged;
* `partial_update_meets_spec`: the merge as a choice of rows, for versions that may tie (`Chosen`).
-/

set_option linter.unusedSectionVars false

namespace Paimon.SortMerge

open List

/-- the value columns of a row; NULL is `none` -/
abbrev Columns (n : Nat) (ν : Type) := Fin n → Option ν

/-- `RuntimeSequenceGroup`: positions of the sequence fields and of the fields they protect -/
structure SequenceGroup (n : Nat) where
  sequenceIndices : List (Fin n)
  protectedIndices : List (Fin n)
deriving DecidableEq, Repr

structure PartialUpdateMergeFunction (n : Nat) where
  ignoreDelete : Bool
  removeRecordOnDelete : Bool
  sequenceGroupPartialDelete : List (Fin n)
  sequenceGroupEnabled : Bool
  sequenceGroups : List (SequenceGroup n)
  /-- the output schema: which columns may be NULL, and their names -/
  nullable : Fin n → Bool
  fieldName : Fin n → String

namespace PartialUpdate

variable {n : Nat} {ν σ α : Type} [LinearOrder ν] [LinearOrder σ]

inductive Merged (n : Nat) (ν : Type) where
  | sourceRow (columns : Columns n ν)
  | materializedRow (columns : Columns n ν)
  | materializedDeleteRow (columns : Columns n ν)
  | omitKey
deriving DecidableEq

/-- the selection so far; `groupRows` holds, by group index, the row whose sequence is current -/
structure State (n : Nat) (ν : Type) where
  selected : Fin n → Option (Columns n ν)
  groupRows : Nat → Option (Columns n ν)
  sawAdd : Bool
  currentDeleteRow : Bool
  lastRetract : Option (Columns n ν)

def initial : State n ν := ⟨fun _ => none, fun _ => none, false, false, none⟩

def groupFields (g : SequenceGroup n) : List (Fin n) := g.sequenceIndices ++ g.protectedIndices

/-- `grouped_fields` -/
def grouped (groups : List (SequenceGroup n)) (i : Fin n) : Bool :=
  groups.any fun g => decide (i ∈ groupFields g)

def sequenceIsEmpty (g : SequenceGroup n) (row : Columns n ν) : Bool :=
  g.sequenceIndices.all fun i => (row i).isNone

/-- column by column, NULL first -/
def compareSequenceGroupRows (incoming current : Columns n ν) : List (Fin n) → Ordering
  | [] => .eq
  | i :: indices =>
    (@compare (WithBot ν) _ (incoming i) (current i)).then
      (compareSequenceGroupRows incoming current indices)

/-- the incoming sequence is not older than the current one -/
def advances (st : State n ν) (gi : Nat) (g : SequenceGroup n) (row : Columns n ν) : Bool :=
  match st.groupRows gi with
  | none => true
  | some current => (compareSequenceGroupRows row current g.sequenceIndices).isGE

def State.select (st : State n ν) (indices : List (Fin n)) (source : Option (Columns n ν)) : State n ν :=
  { st with selected := fun i => if i ∈ indices then source else st.selected i }

def State.setGroup (st : State n ν) (gi : Nat) (row : Columns n ν) : State n ν :=
  { st with groupRows := fun j => if j = gi then some row else st.groupRows j }

/-- `replace_with_source` -/
def State.replace (st : State n ν) (row : Columns n ν) : State n ν :=
  { st with selected := fun _ => some row }

def State.fillGroups (st : State n ν) (row : Columns n ν) : State n ν :=
  { st with groupRows := fun _ => some row }

/-- an added row at one group: a newer sequence takes the whole group from it -/
def applyGroup (row : Columns n ν) (st : State n ν) (x : SequenceGroup n × Nat) : State n ν :=
  if sequenceIsEmpty x.1 row then st
  else if advances st x.2 x.1 row then
    ((st.select x.1.protectedIndices (some row)).setGroup x.2 row).select x.1.sequenceIndices
      (some row)
  else st

/-- outside the groups the latest non-NULL value counts -/
def selectUngrouped (groups : List (SequenceGroup n)) (row : Columns n ν) (st : State n ν) : State n ν :=
  { st with
    selected := fun i =>
      if grouped groups i then st.selected i
      else if (row i).isSome then some row else st.selected i }

def applyAdd (groups : List (SequenceGroup n)) (row : Columns n ν) (st : State n ν) : State n ν :=
  groups.zipIdx.foldl (applyGroup row)
    (selectUngrouped groups row { st with sawAdd := true, currentDeleteRow := false })

/-- a retracted row at the groups in turn; `true`: the whole record is deleted -/
def retractGroups (partialDelete : List (Fin n)) (kind : RowKind) (row : Columns n ν) :
    List (SequenceGroup n × Nat) → State n ν → State n ν × Bool
  | [], st => (st, false)
  | (g, gi) :: rest, st =>
    if sequenceIsEmpty g row then retractGroups partialDelete kind row rest st
    else if advances st gi g row then
      if kind = .delete ∧ g.sequenceIndices.any (fun i => decide (i ∈ partialDelete)) then (st, true)
      else retractGroups partialDelete kind row rest
        (((st.setGroup gi row).select g.sequenceIndices (some row)).select g.protectedIndices none)
    else retractGroups partialDelete kind row rest st

/-- the first retract before any add initialises the record -/
def startFromRetract (row : Columns n ν) (st : State n ν) : State n ν :=
  if !st.sawAdd && st.lastRetract.isNone then (st.replace row).fillGroups row else st

def applyRetract (f : PartialUpdateMergeFunction n) (kind : RowKind) (row : Columns n ν)
    (st : State n ν) : Result (State n ν) :=
  let st := { startFromRetract row st with lastRetract := some row, currentDeleteRow := false }
  if f.sequenceGroupEnabled then
    let (st, fullDelete) :=
      retractGroups f.sequenceGroupPartialDelete kind row f.sequenceGroups.zipIdx st
    .ok (if fullDelete then { (st.replace row).fillGroups row with currentDeleteRow := true } else st)
  else if f.removeRecordOnDelete then
    .ok (if kind = .delete then { st.replace row with currentDeleteRow := true } else st)
  else .error (.unsupported ("merge-engine=partial-update does not support DELETE or UPDATE_BEFORE "
    ++ "without ignore-delete, sequence-group, or remove-record-on-delete"))

def applyRow (f : PartialUpdateMergeFunction n) (version : α → Version σ)
    (columns : α → Columns n ν) (st : State n ν) (r : α) : Result (State n ν) :=
  match RowKind.fromValue (version r).valueKind with
  | .error e => .error e
  | .ok kind =>
    if kind.isAdd then .ok (applyAdd f.sequenceGroups (columns r) st)
    else if f.ignoreDelete then .ok st
    else applyRetract f kind (columns r) st

/-- sorted by user sequence, sequence number and kind, the input order on ties -/
def orderRows (version : α → Version σ) (rows : List α) : List α :=
  rows.insertionSort fun a b => (compareSequenceOrder (version a) (version b)).isLE = true

def nullError (field : String) : Error :=
  .dataInvalid ("merge-engine=partial-update produced NULL for non-nullable field '" ++ field ++ "'")

def nullDeleteError (field : String) : Error :=
  .dataInvalid ("Partial-update delete row has NULL for non-nullable field '" ++ field ++ "'")

def firstNull (nullable : Fin n → Bool) (columns : Columns n ν) : Option (Fin n) :=
  (List.finRange n).find? fun i => !nullable i && (columns i).isNone

def State.columns (st : State n ν) : Columns n ν := fun i => (st.selected i).bind fun row => row i

def finish (f : PartialUpdateMergeFunction n) (st : State n ν) : Result (Merged n ν) :=
  if st.currentDeleteRow then
    match st.lastRetract with
    | none => .ok .omitKey
    | some row =>
      match firstNull f.nullable row with
      | some i => .error (nullDeleteError (f.fieldName i))
      | none => .ok (.materializedDeleteRow row)
  else if !st.sawAdd && st.lastRetract.isNone then .ok .omitKey
  else if st.sawAdd then
    match firstNull f.nullable st.columns with
    | some i => .error (nullError (f.fieldName i))
    | none => .ok (.materializedRow st.columns)
  else .ok (.materializedDeleteRow st.columns)

def mergeUnreduced (f : PartialUpdateMergeFunction n) (version : α → Version σ)
    (columns : α → Columns n ν) (rows : List α) : Result (Merged n ν) :=
  if rows = [] then .error (.unexpectedError "merge called with empty rows")
  else do
    let st ← (orderRows version rows).foldlM (applyRow f version columns) initial
    finish f st

/-- `singleton_reducer_result`: a lone row is returned unchanged, a lone retract dropped -/
def merge (f : PartialUpdateMergeFunction n) (version : α → Version σ) (columns : α → Columns n ν)
    (rows : List α) : Result (Merged n ν) :=
  match rows with
  | [r] =>
    match RowKind.fromValue (version r).valueKind with
    | .error e => .error e
    | .ok kind => .ok (if kind.isAdd then .sourceRow (columns r) else .omitKey)
  | _ => mergeUnreduced f version columns rows

def Merged.visible : Merged n ν → Option (Columns n ν)
  | .sourceRow columns => some columns
  | .materializedRow columns => some columns
  | .materializedDeleteRow _ => none
  | .omitKey => none

/-! ### Merging adds -/

open Compare (toLexList LexList)

/-- the sequence of a row, NULL below every value -/
def sequenceOf (row : Columns n ν) (indices : List (Fin n)) : LexList (WithBot ν) :=
  @toLexList (WithBot ν) (indices.map row)

/-- rows ordered by the sequence fields of a group, those without sequence unranked -/
def groupRank (g : SequenceGroup n) (row : Columns n ν) : Option (LexList (WithBot ν)) :=
  if sequenceIsEmpty g row then none else some (sequenceOf row g.sequenceIndices)

theorem compareSequenceGroupRows_eq (incoming current : Columns n ν) (indices : List (Fin n)) :
    compareSequenceGroupRows incoming current indices
      = compare (sequenceOf incoming indices) (sequenceOf current indices) := by
  induction indices with
  | nil => exact (compare_eq_iff_eq.mpr rfl).symm
  | cons i indices ih =>
    rw [compareSequenceGroupRows, ih]
    exact (@Compare.compare_cons (WithBot ν) _ (incoming i) (current i) (indices.map incoming)
      (indices.map current)).symm

def DisjointGroups (groups : List (SequenceGroup n)) : Prop :=
  groups.Pairwise fun g g' => ∀ i ∈ groupFields g, i ∉ groupFields g'

/-- the rank by which column `i` is decided: the sequence of its group, or being there at all -/
def columnRank (groups : List (SequenceGroup n)) (i : Fin n) (row : Columns n ν) :
    Option (LexList (WithBot ν)) :=
  match groups.find? fun g => decide (i ∈ groupFields g) with
  | some g => groupRank g row
  | none => if (row i).isSome then some (toLexList []) else none

def mergedColumns (groups : List (SequenceGroup n)) (rows : List (Columns n ν)) : Columns n ν :=
  fun i => (Latest.latest (columnRank groups i) rows).bind fun row => row i

variable {groups : List (SequenceGroup n)} {g : SequenceGroup n} {i : Fin n}

theorem columnRank_grouped (hd : DisjointGroups groups) (hg : g ∈ groups)
    (hi : i ∈ groupFields g) (row : Columns n ν) : columnRank groups i row = groupRank g row := by
  have hfind : groups.find? (fun g => decide (i ∈ groupFields g)) = some g := by
    induction groups with
    | nil => exact absurd hg not_mem_nil
    | cons g' groups ih =>
      obtain ⟨hhead, htail⟩ := pairwise_cons.mp hd
      rcases mem_cons.mp hg with rfl | hg
      · exact find?_cons_of_pos (by simpa using hi)
      · have hnot : i ∉ groupFields g' := fun h => hhead g hg i h hi
        rw [find?_cons_of_neg (by simpa using hnot)]
        exact ih htail hg
  unfold columnRank
  rw [hfind]

theorem columnRank_ungrouped (hi : grouped groups i = false) (row : Columns n ν) :
    columnRank groups i row = if (row i).isSome then some (toLexList []) else none := by
  have hfind : groups.find? (fun g => decide (i ∈ groupFields g)) = none := by
    rw [find?_eq_none]
    intro g hg
    have hall := any_eq_false.mp hi g hg
    simpa using hall
  unfold columnRank
  rw [hfind]

theorem grouped_cases (groups : List (SequenceGroup n)) (i : Fin n) :
    grouped groups i = false ∨ ∃ g ∈ groups, i ∈ groupFields g := by
  cases h : grouped groups i with
  | false => exact .inl rfl
  | true =>
    obtain ⟨g, hg, hi⟩ := any_eq_true.mp h
    exact .inr ⟨g, hg, by simpa using hi⟩

variable {row : Columns n ν}

theorem sequenceOf_of_rank {k : LexList (WithBot ν)}
    (h : groupRank g row = some k) : sequenceOf row g.sequenceIndices = k := by
  unfold groupRank at h
  split at h
  · exact nomatch h
  · exact Option.some.inj h

variable {st : State n ν}

theorem step_groupRank {gi : Nat}
    (hr : Latest.Ranked (groupRank g) (st.groupRows gi)) (he : sequenceIsEmpty g row = false) :
    Latest.step (groupRank g) (st.groupRows gi) row
      = if advances st gi g row then some row else st.groupRows gi := by
  have hrank : groupRank g row = some (sequenceOf row g.sequenceIndices) :=
    if_neg (ne_true_of_eq_false he)
  cases hc : st.groupRows gi with
  | none =>
    have hadv : advances st gi g row = true := by
      unfold advances
      rw [hc]
    rw [Latest.step_none hrank, hadv, if_pos rfl]
  | some c =>
    obtain ⟨kc, hkc⟩ := hr c hc
    have hadv : advances st gi g row = decide (kc ≤ sequenceOf row g.sequenceIndices) := by
      unfold advances
      rw [hc]
      dsimp only
      rw [compareSequenceGroupRows_eq, sequenceOf_of_rank hkc, Bool.eq_iff_iff, Compare.isGE_iff,
        decide_eq_true_iff]
    rw [Latest.step_some hrank hkc, hadv]
    simp only [decide_eq_true_eq]

/-- one group offered one row: its own row and columns take a step, all else stays -/
structure GroupStep (row : Columns n ν) (x : SequenceGroup n × Nat) (st st' : State n ν) : Prop where
  own : st'.groupRows x.2 = Latest.step (groupRank x.1) (st.groupRows x.2) row
  other : ∀ j, j ≠ x.2 → st'.groupRows j = st.groupRows j
  inside : ∀ i ∈ groupFields x.1, st.selected i = st.groupRows x.2 →
    st'.selected i = Latest.step (groupRank x.1) (st.selected i) row
  outside : ∀ i, i ∉ groupFields x.1 → st'.selected i = st.selected i
  sawAdd : st'.sawAdd = st.sawAdd
  currentDeleteRow : st'.currentDeleteRow = st.currentDeleteRow

variable {x : SequenceGroup n × Nat}

theorem GroupStep.stay
    (h : Latest.step (groupRank x.1) (st.groupRows x.2) row = st.groupRows x.2) :
    GroupStep row x st st where
  own := h.symm
  other _ _ := rfl
  inside i _ hi := by rw [hi, h]
  outside _ _ := rfl
  sawAdd := rfl
  currentDeleteRow := rfl

theorem applyGroup_step (row : Columns n ν) (st : State n ν) (x : SequenceGroup n × Nat)
    (hr : Latest.Ranked (groupRank x.1) (st.groupRows x.2)) :
    GroupStep row x st (applyGroup row st x) := by
  unfold applyGroup
  cases he : sequenceIsEmpty x.1 row with
  | true =>
    rw [if_pos rfl]
    exact .stay (Latest.step_unranked (if_pos he))
  | false =>
    rw [if_neg Bool.false_ne_true]
    have hstep := step_groupRank hr he
    cases hadv : advances st x.2 x.1 row with
    | false =>
      rw [hadv, if_neg Bool.false_ne_true] at hstep
      rw [if_neg Bool.false_ne_true]
      exact .stay hstep
    | true =>
      rw [hadv, if_pos rfl] at hstep
      rw [if_pos rfl]
      refine ⟨(if_pos rfl).trans hstep.symm, fun j hj => if_neg hj, fun i hi hs => ?_, fun i hi => ?_, rfl, rfl⟩
      · rw [hs, hstep]
        by_cases hseq : i ∈ x.1.sequenceIndices
        · exact if_pos hseq
        · exact (if_neg hseq).trans (if_pos ((mem_append.mp hi).resolve_left hseq))
      · obtain ⟨hseq, hprot⟩ := not_or.mp (fun h => hi (mem_append.mpr h))
        exact (if_neg hseq).trans (if_neg hprot)

theorem foldl_applyGroup (row : Columns n ν) (xs : List (SequenceGroup n × Nat))
    (hidx : xs.Pairwise fun x y => x.2 ≠ y.2)
    (hd : xs.Pairwise fun x y => ∀ i ∈ groupFields x.1, i ∉ groupFields y.1) (st : State n ν)
    (hr : ∀ x ∈ xs, Latest.Ranked (groupRank x.1) (st.groupRows x.2)) :
    let st' := xs.foldl (applyGroup row) st
    (∀ x ∈ xs, st'.groupRows x.2 = Latest.step (groupRank x.1) (st.groupRows x.2) row) ∧
    (∀ x ∈ xs, ∀ i ∈ groupFields x.1, st.selected i = st.groupRows x.2 →
      st'.selected i = Latest.step (groupRank x.1) (st.selected i) row) ∧
    (∀ j, (∀ x ∈ xs, j ≠ x.2) → st'.groupRows j = st.groupRows j) ∧
    (∀ i, (∀ x ∈ xs, i ∉ groupFields x.1) → st'.selected i = st.selected i) ∧
    st'.sawAdd = st.sawAdd ∧ st'.currentDeleteRow = st.currentDeleteRow := by
  induction xs generalizing st with
  | nil =>
    exact ⟨forall_mem_nil _, forall_mem_nil _, fun _ _ => rfl, fun _ _ => rfl, rfl, rfl⟩
  | cons x xs ih =>
    obtain ⟨hx, hidx⟩ := pairwise_cons.mp hidx
    obtain ⟨hdx, hd⟩ := pairwise_cons.mp hd
    have hstep := applyGroup_step row st x (hr x mem_cons_self)
    -- the later groups see their own rows and columns as they were
    have hrows : ∀ y ∈ xs, (applyGroup row st x).groupRows y.2 = st.groupRows y.2 :=
      fun y hy => hstep.other y.2 (hx y hy).symm
    have hcols : ∀ y ∈ xs, ∀ i ∈ groupFields y.1, (applyGroup row st x).selected i = st.selected i :=
      fun y hy i hi => hstep.outside i fun h => hdx y hy i h hi
    obtain ⟨h₁, h₂, h₃, h₄, h₅, h₆⟩ := ih hidx hd (applyGroup row st x) fun y hy => by
      rw [hrows y hy]
      exact hr y (mem_cons_of_mem x hy)
    refine ⟨fun y hy => ?_, fun y hy i hi hs => ?_, fun j hj => ?_, fun i hi => ?_,
      h₅.trans hstep.sawAdd, h₆.trans hstep.currentDeleteRow⟩
    · rcases mem_cons.mp hy with rfl | hy
      · exact (h₃ y.2 hx).trans hstep.own
      · rw [← hrows y hy]
        exact h₁ y hy
    · rcases mem_cons.mp hy with rfl | hy
      · exact (h₄ i fun z hz => hdx z hz i hi).trans (hstep.inside i hi hs)
      · rw [← hcols y hy i hi]
        exact h₂ y hy i hi (by rw [hcols y hy i hi, hrows y hy, hs])
    · exact (h₃ j (forall_mem_cons.mp hj).2).trans (hstep.other j (hj x mem_cons_self))
    · exact (h₄ i (forall_mem_cons.mp hi).2).trans (hstep.outside i (hi x mem_cons_self))

theorem mem_zipIdx_groups :
    x ∈ groups.zipIdx ↔ groups[x.2]? = some x.1 := mem_zipIdx_iff_getElem?

/-- what is selected after some adds -/
structure Selects (groups : List (SequenceGroup n)) (rows : List (Columns n ν)) (st : State n ν) :
    Prop where
  selected : ∀ i, st.selected i = Latest.latest (columnRank groups i) rows
  groupRows : ∀ x ∈ groups.zipIdx, st.groupRows x.2 = Latest.latest (groupRank x.1) rows
  sawAdd : rows ≠ [] → st.sawAdd = true
  currentDeleteRow : st.currentDeleteRow = false

theorem Selects.initial (groups : List (SequenceGroup n)) :
    Selects groups [] (PartialUpdate.initial : State n ν) :=
  ⟨fun _ => rfl, fun _ _ => rfl, fun h => absurd rfl h, rfl⟩

theorem Selects.applyAdd (hd : DisjointGroups groups) {rows : List (Columns n ν)}
    (h : Selects groups rows st) (row : Columns n ν) :
    Selects groups (rows ++ [row]) (applyAdd groups row st) := by
  unfold PartialUpdate.applyAdd
  set st₁ := selectUngrouped groups row { st with sawAdd := true, currentDeleteRow := false }
  have hrows : st₁.groupRows = st.groupRows := rfl
  have hidx : groups.zipIdx.Pairwise fun x y => x.2 ≠ y.2 := by
    have := nodup_range' (s := 0) (n := groups.length)
    rw [← zipIdx_map_snd 0 groups] at this
    exact pairwise_map.mp this
  have hdis : groups.zipIdx.Pairwise fun x y => ∀ i ∈ groupFields x.1, i ∉ groupFields y.1 := by
    have hd' : (groups.zipIdx.map Prod.fst).Pairwise fun g g' => ∀ i ∈ groupFields g, i ∉ groupFields g' := by
      rw [zipIdx_map_fst]
      exact hd
    exact pairwise_map.mp hd'
  have hmem : ∀ x ∈ groups.zipIdx, x.1 ∈ groups := fun x hx =>
    mem_of_getElem? (mem_zipIdx_groups.mp hx)
  obtain ⟨h₁, h₂, -, h₄, h₅, h₆⟩ := foldl_applyGroup row groups.zipIdx hidx hdis st₁ fun x hx => by
    rw [hrows, h.groupRows x hx]
    exact Latest.Ranked.latest rows
  refine ⟨fun i => ?_, fun x hx => ?_, fun _ => h₅, h₆⟩
  · rw [Latest.latest_concat, ← h.selected]
    rcases grouped_cases groups i with hi | ⟨g, hg, hi⟩
    · -- no group touches the column
      have hnone : ∀ x ∈ groups.zipIdx, i ∉ groupFields x.1 := fun x hx hix => by
        have := any_eq_false.mp hi x.1 (hmem x hx)
        exact this (decide_eq_true hix)
      rw [h₄ i hnone]
      have hrank := columnRank_ungrouped hi row
      have hst₁ : st₁.selected i = if (row i).isSome then some row else st.selected i :=
        if_neg (ne_true_of_eq_false hi)
      rw [hst₁]
      cases hv : (row i).isSome with
      | false =>
        rw [hv, if_neg Bool.false_ne_true] at hrank
        rw [if_neg Bool.false_ne_true, Latest.step_unranked hrank]
      | true =>
        rw [hv, if_pos rfl] at hrank
        rw [if_pos rfl]
        cases hs : st.selected i with
        | none => rw [Latest.step_none hrank]
        | some c =>
          obtain ⟨k, hk⟩ := Latest.Ranked.latest rows c ((h.selected i).symm.trans hs)
          have hk' : k = toLexList [] := by
            rw [columnRank_ungrouped hi] at hk
            split at hk
            · exact (Option.some.inj hk).symm
            · exact nomatch hk
          rw [Latest.step_some hrank hk, if_pos (le_of_eq hk')]
    · obtain ⟨gi, hgi⟩ := getElem?_of_mem hg
      have hx : (g, gi) ∈ groups.zipIdx := mem_zipIdx_groups.mpr hgi
      have hrank : columnRank (ν := ν) groups i = groupRank g :=
        funext (columnRank_grouped hd hg hi)
      have hst₁ : st₁.selected i = st.selected i :=
        if_pos (any_eq_true.mpr ⟨g, hg, decide_eq_true hi⟩)
      have hsame : st₁.selected i = st₁.groupRows gi := by
        rw [hst₁, h.selected, hrank, hrows]
        exact (h.groupRows (g, gi) hx).symm
      rw [h₂ (g, gi) hx i hi hsame, hst₁, hrank]
  · rw [Latest.latest_concat, ← h.groupRows x hx]
    exact h₁ x hx

theorem Selects.foldl (hd : DisjointGroups groups) (rows : List (Columns n ν)) :
    Selects groups rows (rows.foldl (fun st row => PartialUpdate.applyAdd groups row st)
      PartialUpdate.initial) := by
  induction rows using List.reverseRecOn with
  | nil => exact Selects.initial groups
  | append_singleton rows row ih =>
    rw [foldl_append]
    exact ih.applyAdd hd row

variable {version : α → Version σ} {f : PartialUpdateMergeFunction n} {rows : List α}
  {columns : α → Columns n ν}

theorem foldlM_applyRow (h : AllAdds version rows) (st : State n ν) :
    rows.foldlM (applyRow f version columns) st
      = .ok ((rows.map columns).foldl (fun st row => PartialUpdate.applyAdd f.sequenceGroups row st) st) := by
  induction rows generalizing st with
  | nil => rfl
  | cons r rows ih =>
    obtain ⟨kind, hkind, hadd⟩ := h r mem_cons_self
    have hr : applyRow f version columns st r
        = .ok (PartialUpdate.applyAdd f.sequenceGroups (columns r) st) := by
      unfold applyRow
      rw [hkind]
      exact if_pos hadd
    rw [foldlM_cons, hr]
    exact ih (forall_mem_cons.mp h).2 _

variable {rows ordered : List α}

theorem orderRows_eq
    (hlt : ordered.Pairwise fun a b => (version a).key < (version b).key) (hperm : rows.Perm ordered) :
    orderRows version rows = ordered := by
  let r : α → α → Prop := fun a b => (compareSequenceOrder (version a) (version b)).isLE = true
  have hr : ∀ a b, r a b ↔ (version a).key ≤ (version b).key :=
    fun a b => compareSequenceOrder_isLE (version a) (version b)
  have : Std.Total r := ⟨fun a b => by
    rw [hr, hr]
    exact le_total _ _⟩
  have : IsTrans α r := ⟨fun a b c hab hbc => by
    rw [hr] at hab hbc ⊢
    exact hab.trans hbc⟩
  have hsorted : (orderRows version rows).Pairwise r := pairwise_insertionSort r rows
  have hp : (orderRows version rows).Perm ordered := (perm_insertionSort r rows).trans hperm
  refine List.Perm.eq_of_pairwise (fun a b ha hb hab hba => ?_) hsorted
    (hlt.imp fun h => (hr _ _).mpr h.le) hp
  -- equal keys at two places of a strictly ascending list cannot be
  have hkey : (version a).key = (version b).key := le_antisymm ((hr a b).mp hab) ((hr b a).mp hba)
  have hinj : ∀ x ∈ ordered, ∀ y ∈ ordered, (version x).key = (version y).key → x = y :=
    inj_on_of_nodup_map (f := fun x => (version x).key) (pairwise_map.mpr (hlt.imp fun h => h.ne))
  exact hinj a (hp.mem_iff.mp ha) b hb hkey

/-- **A merge of adds takes each column from its latest row.** -/
theorem merge_ordered (hd : DisjointGroups f.sequenceGroups) (hlen : 2 ≤ rows.length)
    (hadds : AllAdds version (orderRows version rows))
    (hnull : firstNull f.nullable (mergedColumns f.sequenceGroups ((orderRows version rows).map columns)) = none) :
    merge f version columns rows
      = .ok (.materializedRow (mergedColumns f.sequenceGroups ((orderRows version rows).map columns))) := by
  have hne : (orderRows version rows).map columns ≠ [] := fun h => by
    have := congrArg List.length h
    rw [length_map, orderRows, length_insertionSort, length_nil] at this
    omega
  obtain ⟨r, r', rest, rfl⟩ : ∃ r r' rest, rows = r :: r' :: rest := by
    match rows, hlen with
    | r :: r' :: rest, _ => exact ⟨r, r', rest, rfl⟩
  set ordered := orderRows version (r :: r' :: rest) with hordered
  set st := (ordered.map columns).foldl
    (fun st row => PartialUpdate.applyAdd f.sequenceGroups row st) (PartialUpdate.initial : State n ν)
  have hsel : Selects f.sequenceGroups (ordered.map columns) st := Selects.foldl hd _
  have hcols : st.columns = mergedColumns f.sequenceGroups (ordered.map columns) := by
    funext i
    unfold State.columns mergedColumns
    rw [hsel.selected]
  show mergeUnreduced f version columns (r :: r' :: rest) = _
  unfold mergeUnreduced
  rw [if_neg (by simp), ← hordered, foldlM_applyRow hadds]
  show finish f st = _
  unfold finish
  rw [hsel.currentDeleteRow, hsel.sawAdd hne, hcols, hnull]
  rfl

theorem merge_adds (hd : DisjointGroups f.sequenceGroups)
    (hlt : ordered.Pairwise fun a b => (version a).key < (version b).key) (hperm : rows.Perm ordered)
    (hlen : 2 ≤ rows.length) (hadds : AllAdds version ordered)
    (hnull : firstNull f.nullable (mergedColumns f.sequenceGroups (ordered.map columns)) = none) :
    merge f version columns rows
      = .ok (.materializedRow (mergedColumns f.sequenceGroups (ordered.map columns))) := by
  have hordered := orderRows_eq hlt hperm
  rw [← hordered] at hadds hnull ⊢
  exact merge_ordered hd hlen hadds hnull

/-- no row has NULL where it must not, and rows have a sequence for the groups of such columns -/
def RespectsNotNull (f : PartialUpdateMergeFunction n) (row : Columns n ν) : Prop :=
  (∀ i, f.nullable i = false → (row i).isSome = true) ∧
  ∀ g ∈ f.sequenceGroups, (∃ i ∈ groupFields g, f.nullable i = false) →
    sequenceIsEmpty g row = false

theorem firstNull_merged (hd : DisjointGroups f.sequenceGroups) {rows : List (Columns n ν)} (hne : rows ≠ [])
    (h : ∀ row ∈ rows, RespectsNotNull f row) :
    firstNull f.nullable (mergedColumns f.sequenceGroups rows) = none := by
  unfold firstNull
  rw [find?_eq_none]
  intro i _ hi
  obtain ⟨hnn, hnull⟩ : f.nullable i = false ∧ mergedColumns f.sequenceGroups rows i = none := by
    simpa using hi
  obtain ⟨row, hrow⟩ := exists_mem_of_ne_nil rows hne
  have hrank : ∃ k, columnRank f.sequenceGroups i row = some k := by
    rcases grouped_cases f.sequenceGroups i with hg | ⟨g, hg, hi⟩
    · exact ⟨_, (columnRank_ungrouped hg row).trans (if_pos ((h row hrow).1 i hnn))⟩
    · have he := (h row hrow).2 g hg ⟨i, hi, hnn⟩
      exact ⟨_, (columnRank_grouped hd hg hi row).trans (if_neg (ne_true_of_eq_false he))⟩
  obtain ⟨k, hk⟩ := hrank
  obtain ⟨w, hw⟩ := Latest.latest_isSome hrow hk
  have hwi := (h w (Latest.latest_mem hw)).1 i hnn
  unfold mergedColumns at hnull
  rw [hw, Option.bind_some] at hnull
  rw [hnull] at hwi
  exact Bool.false_ne_true hwi

/-- **The merged row stands for the rows it was merged from**, column by column. -/
theorem merged_summary (hd : DisjointGroups groups) (rows : List (Columns n ν)) (i : Fin n) :
    Latest.Summary (columnRank groups i) (fun m w => m i = w i) (mergedColumns groups rows) rows := by
  unfold Latest.Summary
  rcases grouped_cases groups i with hi | ⟨g, hg, hi⟩
  · have hrank : ∀ row : Columns n ν, columnRank groups i row
        = if (row i).isSome then some (toLexList []) else none := columnRank_ungrouped hi
    cases hl : Latest.latest (columnRank groups i) rows with
    | none =>
      have hm : mergedColumns groups rows i = none := by
        unfold mergedColumns
        rw [hl]
        rfl
      show columnRank groups i _ = none
      rw [hrank, hm]
      rfl
    | some w =>
      have hm : mergedColumns groups rows i = w i := by
        unfold mergedColumns
        rw [hl]
        rfl
      refine ⟨?_, hm⟩
      rw [hrank, hrank, hm]
  · have hrank : ∀ j ∈ groupFields g, columnRank (ν := ν) groups j = groupRank g :=
      fun j hj => funext (columnRank_grouped hd hg hj)
    rw [hrank i hi]
    cases hl : Latest.latest (groupRank g) rows with
    | none =>
      have hm : ∀ j ∈ groupFields g, mergedColumns groups rows j = none := fun j hj => by
        unfold mergedColumns
        rw [hrank j hj, hl]
        rfl
      refine if_pos (all_eq_true.mpr fun j hj => ?_)
      rw [hm j (mem_append_left _ hj)]
      rfl
    | some w =>
      have hm : ∀ j ∈ groupFields g, mergedColumns groups rows j = w j := fun j hj => by
        unfold mergedColumns
        rw [hrank j hj, hl]
        rfl
      refine ⟨?_, hm i hi⟩
      have hseq : ∀ j ∈ g.sequenceIndices, mergedColumns groups rows j = w j :=
        fun j hj => hm j (mem_append_left _ hj)
      have hempty : sequenceIsEmpty g (mergedColumns groups rows) = sequenceIsEmpty g w := by
        unfold sequenceIsEmpty
        rw [Bool.eq_iff_iff, all_eq_true, all_eq_true]
        exact forall₂_congr fun j hj => by rw [hseq j hj]
      have hsame : sequenceOf (mergedColumns groups rows) g.sequenceIndices
          = sequenceOf w g.sequenceIndices := map_congr_left hseq
      unfold groupRank
      rw [hempty, hsame]

/-! ### The merge as a choice of rows -/

/-- the order of the rows: user sequence, sequence number, position in the input -/
def place (version : α → Version σ) (x : α × Nat) : WithBot σ ×ₗ Int ×ₗ Nat :=
  toLex ((version x.1).userSequence, toLex ((version x.1).sequenceNumber, x.2))

theorem insertionSort_congr {r s : α → α → Prop} [DecidableRel r] [DecidableRel s] {l : List α}
    (h : l.Pairwise fun a b => r a b ↔ s a b) : l.insertionSort r = l.insertionSort s := by
  induction l with
  | nil => rfl
  | cons a l ih =>
    obtain ⟨ha, hl⟩ := pairwise_cons.mp h
    have hinsert : ∀ m : List α, (∀ b ∈ m, r a b ↔ s a b) → m.orderedInsert r a = m.orderedInsert s a := by
      intro m hm
      induction m with
      | nil => rfl
      | cons b m ihm =>
        rw [orderedInsert_cons, orderedInsert_cons, ihm (forall_mem_cons.mp hm).2]
        simp only [hm b mem_cons_self]
    rw [insertionSort_cons, insertionSort_cons, ih hl]
    exact hinsert _ fun b hb => ha b ((mem_insertionSort s).mp hb)

theorem isAdd_of_allAdds (h : AllAdds version rows) {r : α} (hr : r ∈ rows) :
    ((version r).valueKind == 0 || (version r).valueKind == 2) = true := by
  obtain ⟨kind, hkind, hadd⟩ := h r hr
  rw [Bool.or_eq_true, beq_iff_eq, beq_iff_eq]
  by_contra hno
  obtain ⟨h0, h2⟩ := not_or.mp hno
  simp only [RowKind.fromValue, h0, h2, if_false] at hkind
  split at hkind
  · cases hkind
    cases hadd
  · split at hkind
    · cases hkind
      cases hadd
    · cases hkind

theorem orderRows_places (h : AllAdds version rows) :
    ∃ places : List (α × Nat), orderRows version rows = places.map Prod.fst ∧ places.Perm rows.zipIdx ∧
      places.Pairwise fun x y => place version x ≤ place version y := by
  have hpairs : rows.zipIdx.Pairwise fun x y =>
      (compareSequenceOrder (version x.1) (version y.1)).isLE = true ↔ place version x ≤ place version y := by
    refine pairwise_iff_getElem.mpr fun i j hi hj hij => ?_
    have hx := isAdd_of_allAdds h (getElem_mem (length_zipIdx ▸ hi))
    have hy := isAdd_of_allAdds h (getElem_mem (length_zipIdx ▸ hj))
    rw [compareSequenceOrder_isLE, getElem_zipIdx, getElem_zipIdx]
    simp only [Version.key, place, Prod.Lex.toLex_le_toLex, hx, hy, hij.le, le_refl, and_true, Nat.zero_add]
  have : Std.Total fun x y : α × Nat => place version x ≤ place version y := ⟨fun x y => le_total _ _⟩
  have : IsTrans (α × Nat) fun x y => place version x ≤ place version y := ⟨fun x y z => le_trans⟩
  refine ⟨rows.zipIdx.insertionSort fun x y => place version x ≤ place version y, ?_,
    perm_insertionSort _ _, pairwise_insertionSort _ _⟩
  have hmap := map_insertionSort
    (fun x y : α × Nat => (compareSequenceOrder (version x.1) (version y.1)).isLE = true)
    (fun a b : α => (compareSequenceOrder (version a) (version b)).isLE = true) Prod.fst rows.zipIdx
    fun _ _ _ _ => Iff.rfl
  rw [zipIdx_map_fst] at hmap
  rw [← insertionSort_congr hpairs]
  exact hmap.symm

/-- the row that is the last of the greatest by a rank of its columns, if any has a rank -/
def Chosen (version : α → Version σ) {β : Type} [LinearOrder β] (rank : α → Option β) (rows : List α) :
    Option α → Prop
  | none => ∀ r ∈ rows, rank r = none
  | some w => ∃ p, (w, p) ∈ rows.zipIdx ∧ ∃ k, rank w = some k ∧ ∀ y ∈ rows.zipIdx, ∀ k', rank y.1 = some k' →
      k' < k ∨ k' = k ∧ place version y ≤ place version (w, p)

theorem latest_chosen (h : AllAdds version rows) {β : Type} [LinearOrder β] (rank : α → Option β) :
    Chosen version rank rows (Latest.latest rank (orderRows version rows)) := by
  obtain ⟨places, heq, hperm, hsorted⟩ := orderRows_places h
  rw [heq, Latest.latest_map]
  cases hl : Latest.latest (fun x => rank x.1) places with
  | none =>
    intro r hr
    cases hk : rank r with
    | none => rfl
    | some k =>
      obtain ⟨p, hp⟩ := getElem?_of_mem hr
      have hmem : (r, p) ∈ places := hperm.mem_iff.mpr (mem_zipIdx_iff_getElem?.mpr hp)
      obtain ⟨w, hw⟩ : ∃ w, Latest.latest (fun x => rank x.1) places = some w := Latest.latest_isSome hmem hk
      rw [hl] at hw
      cases hw
  | some w =>
    obtain ⟨pre, post, k, hsplit, hk, hpre, hpost⟩ := Latest.latest_split hl
    refine ⟨w.2, hperm.mem_iff.mp (hsplit ▸ by simp), k, hk, fun y hy k' hk' => ?_⟩
    rw [hsplit] at hsorted
    have hmem := hperm.mem_iff.mpr hy
    rw [hsplit] at hmem
    rcases mem_append.mp hmem with hy' | hy'
    · -- what stands before the row is not greater, and earlier
      rcases (hpre y hy' k' hk').lt_or_eq with hlt | heq
      · exact .inl hlt
      · exact .inr ⟨heq, (pairwise_append.mp hsorted).2.2 y hy' w mem_cons_self⟩
    · rcases mem_cons.mp hy' with rfl | hy'
      · exact .inr ⟨Option.some_inj.mp (hk'.symm.trans hk), le_rfl⟩
      · exact .inl (hpost y hy' k' hk')

theorem Chosen.of_map {β γ : Type} [LinearOrder β] [LinearOrder γ] {rank : α → Option β} {e : β → γ}
    (he : StrictMono e) {w : Option α} (h : Chosen version (fun r => (rank r).map e) rows w) :
    Chosen version rank rows w := by
  cases w with
  | none => exact fun r hr => Option.map_eq_none_iff.mp (h r hr)
  | some w =>
    obtain ⟨p, hp, _, hw, hall⟩ := h
    obtain ⟨k, hk, rfl⟩ := Option.map_eq_some_iff.mp hw
    refine ⟨p, hp, k, hk, fun y hy k' hk' => ?_⟩
    have := hall y hy (e k') (congrArg (Option.map e) hk')
    rwa [he.lt_iff_lt, he.injective.eq_iff] at this

/-- **Partial update meets its specification.**  For two or more added rows of one key: outside the
groups a column has the last value that is not NULL; the columns of a group all come from one row, the
last of those with the greatest sequence, and are NULL if no row has a sequence for the group. -/
theorem partial_update_meets_spec {f : PartialUpdateMergeFunction n} (hd : DisjointGroups f.sequenceGroups)
    (hgroups : ∀ g ∈ f.sequenceGroups, ∀ i ∈ groupFields g, f.nullable i = true)
    {version : α → Version σ} {columns : α → Columns n ν} {rows : List α} (hlen : 2 ≤ rows.length)
    (hadds : AllAdds version rows)
    (hrows : ∀ r ∈ rows, ∀ i, f.nullable i = false → (columns r i).isSome = true) :
    ∃ merged, merge f version columns rows = .ok (.materializedRow merged) ∧
      (∀ i, grouped f.sequenceGroups i = false → ∃ w,
        Chosen version (fun r => (columns r i).map fun _ => ()) rows w ∧
          merged i = w.bind fun r => columns r i) ∧
      ∀ g ∈ f.sequenceGroups, ∃ w, Chosen version (fun r => if sequenceIsEmpty g (columns r) then none
          else some (sequenceOf (columns r) g.sequenceIndices)) rows w ∧
          ∀ i ∈ groupFields g, merged i = w.bind fun r => columns r i := by
  have hperm := perm_insertionSort
    (fun a b : α => (compareSequenceOrder (version a) (version b)).isLE = true) rows
  have hmem : ∀ r ∈ orderRows version rows, r ∈ rows := fun r hr => hperm.mem_iff.mp hr
  have hrespects : ∀ row ∈ (orderRows version rows).map columns, RespectsNotNull f row := by
    intro row hrow
    obtain ⟨r, hr, rfl⟩ := mem_map.mp hrow
    refine ⟨hrows r (hmem r hr), fun g hg h => ?_⟩
    obtain ⟨i, hi, hnot⟩ := h
    rw [hgroups g hg i hi] at hnot
    cases hnot
  have hne : (orderRows version rows).map columns ≠ [] := fun h => by
    have := congrArg List.length h
    rw [length_map, orderRows, hperm.length_eq, length_nil] at this
    omega
  refine ⟨_, merge_ordered hd hlen (fun r hr => hadds r (hmem r hr)) (firstNull_merged hd hne hrespects),
    fun i hi => ?_, fun g hg => ?_⟩
  · have hrank : (fun r => columnRank f.sequenceGroups i (columns r)) = fun r =>
        ((columns r i).map fun _ => ()).map fun _ => (toLexList [] : LexList (WithBot ν)) := by
      funext r
      rw [columnRank_ungrouped hi]
      cases columns r i <;> rfl
    have hchosen := latest_chosen hadds fun r => columnRank f.sequenceGroups i (columns r)
    rw [hrank] at hchosen
    refine ⟨_, hchosen.of_map (fun a b h => absurd h (lt_irrefl _)), ?_⟩
    rw [mergedColumns, Latest.latest_map, hrank, Option.bind_map]
    rfl
  · refine ⟨_, latest_chosen hadds (fun r => groupRank g (columns r)), fun i hi => ?_⟩
    rw [mergedColumns, Latest.latest_map, funext (columnRank_grouped hd hg hi)]
    exact Option.bind_map

/-- one group: column 1 orders column 2; column 0 stands alone -/
def oneGroup : PartialUpdateMergeFunction 3 :=
  ⟨false, false, [], true, [⟨[⟨1, by decide⟩], [⟨2, by decide⟩]⟩], fun _ => true, fun _ => "f"⟩

def tiedRows : List (Int × Columns 3 Nat) :=
  [(1, ![some 7, some 4, some 5]), (2, ![none, some 4, none]), (3, ![none, none, some 6])]

def numbered (r : Int × Columns 3 Nat) : Version Nat := ⟨none, r.1, 0⟩

/-- the second row ties with the first and takes the group, its NULL included -/
theorem partial_update_meets_spec_tied :
    ∃ merged, merge oneGroup numbered Prod.snd tiedRows = .ok (.materializedRow merged) ∧
      ∃ w, Chosen numbered (fun r => if sequenceIsEmpty ⟨[1], [2]⟩ r.2 then none
          else some (sequenceOf r.2 [1])) tiedRows w ∧
        merged 2 = w.bind fun r => r.2 2 := by
  have hnullable : ∀ r ∈ tiedRows, ∀ i, oneGroup.nullable i = false → (Prod.snd r i).isSome = true :=
    fun _ _ _ h => absurd h.symm Bool.false_ne_true
  have hspec := partial_update_meets_spec (f := oneGroup) (pairwise_singleton _ _) (fun _ _ _ _ => rfl)
    (show 2 ≤ tiedRows.length by decide) (fun _ _ => ⟨.insert, rfl, rfl⟩ : AllAdds numbered tiedRows)
    hnullable
  obtain ⟨merged, hmerge, -, hgroups⟩ := hspec
  obtain ⟨w, hw, hcolumns⟩ := hgroups ⟨[1], [2]⟩ mem_cons_self
  exact ⟨merged, hmerge, w, hw, hcolumns 2 (by decide)⟩

end PartialUpdate

end Paimon.SortMerge
