import Paimon.Arrow.Comparison
import Paimon.Predicate.Trees

/-!
# File indexes under schema evolution

`file_index/evaluator.rs`, `file_index/file_index_predicate.rs` and `file_index/file_index_result.rs`.
A predicate of the table is rewritten to the schema of one data file and evaluated on the indexes of
that file, which gives a set of row positions.

* `remapPredicate`: conjuncts that cannot be rewritten are left out;
* `remapPredicateExact`: below a NOT nothing may be left out;
* `devolveLiterals`: literals in the narrower integer type of the file, when all of them fit;
* `evaluate`: a tree on the indexes, with the early ends of its loops;
* `Admits result pos`: the position is a candidate.

The rewriting keeps a tree true where it was true (`remapPredicate_true`), an exact one keeps its
value (`remapPredicateExact_eval`), and `evaluate` admits every row of which the rewritten tree is
true (`evaluate_admits`).  One rewriting is not exact: `Predicate::negate` turns `NOT (x IN ())` into
`x NOT IN ()`, which is false of NULL; `empty_set_negated_drops` is the row that is lost.
-/

set_option linter.unusedSectionVars false

namespace Paimon.FileIndex

open List

structure DataField where
  id : Int
  name : String
  dataType : DataType
deriving DecidableEq, Repr

/-! ## candidates -/

inductive FileIndexResult where
  | remain
  | skip
  | selection (rows : Finset Nat)
deriving DecidableEq

namespace FileIndexResult

/-- `remain()`: whether anything is left -/
def remains : FileIndexResult → Bool
  | .remain => true
  | .skip => false
  | .selection rows => decide (rows.Nonempty)

def and : FileIndexResult → FileIndexResult → FileIndexResult
  | .skip, _ => .skip
  | _, .skip => .skip
  | .remain, other => other
  | other, .remain => other
  | .selection left, .selection right => .selection (left ∩ right)

def or : FileIndexResult → FileIndexResult → FileIndexResult
  | .remain, _ => .remain
  | _, .remain => .remain
  | .skip, other => other
  | other, .skip => other
  | .selection left, .selection right => .selection (left ∪ right)

def isRemain : FileIndexResult → Bool
  | .remain => true
  | _ => false

def Admits (r : FileIndexResult) (pos : Nat) : Prop :=
  match r with
  | .remain => True
  | .skip => False
  | .selection rows => pos ∈ rows

instance (r : FileIndexResult) (pos : Nat) : Decidable (r.Admits pos) :=
  match r with
  | .remain => .isTrue trivial
  | .skip => .isFalse id
  | .selection rows => inferInstanceAs (Decidable (pos ∈ rows))

end FileIndexResult

/-! ## evaluation -/

abbrev FileIndexReader :=
  String → Nat → DataType → PredicateOperator → List Datum → FileIndexResult

structure FileIndexPredicate where
  columnReaders : String → Option (List FileIndexReader)

namespace FileIndexPredicate

/-- all readers of the column, until nothing is left -/
def readAll (column : String) (index : Nat) (dataType : DataType) (op : PredicateOperator)
    (literals : List Datum) : List FileIndexReader → FileIndexResult → FileIndexResult
  | [], result => result
  | reader :: readers, result =>
    let result := result.and (reader column index dataType op literals)
    if !result.remains then result
    else readAll column index dataType op literals readers result

def evaluateLeaf (indexes : FileIndexPredicate) (column : String) (index : Nat) (dataType : DataType)
    (op : PredicateOperator) (literals : List Datum) : FileIndexResult :=
  match indexes.columnReaders column with
  | none => .remain
  | some readers => readAll column index dataType op literals readers .remain

mutual

def evaluate (indexes : FileIndexPredicate) : Predicate → FileIndexResult
  | .alwaysTrue => .remain
  | .alwaysFalse => .skip
  | .and children => evaluateAnd indexes children .remain
  | .or children => evaluateOr indexes children .skip
  -- `evaluate_not`
  | .not .alwaysTrue => .skip
  | .not .alwaysFalse => .remain
  | .not (.not inner) => evaluate indexes inner
  | .not _ => .remain
  | .leaf column index dataType op literals =>
    indexes.evaluateLeaf column index dataType op literals

def evaluateAnd (indexes : FileIndexPredicate) : List Predicate → FileIndexResult → FileIndexResult
  | [], result => result
  | p :: ps, result =>
    let result := result.and (evaluate indexes p)
    if !result.remains then result else evaluateAnd indexes ps result

def evaluateOr (indexes : FileIndexPredicate) : List Predicate → FileIndexResult → FileIndexResult
  | [], result => result
  | p :: ps, result =>
    let result := result.or (evaluate indexes p)
    if result.isRemain then result else evaluateOr indexes ps result

end

end FileIndexPredicate

/-! ## rewriting -/

def integerWidth : TypeRoot → Option Nat
  | .tinyInt => some 8
  | .smallInt => some 16
  | .int => some 32
  | .bigInt => some 64
  | _ => none

def integerValue : TypeRoot → Datum → Option Int
  | .tinyInt, .tinyInt v => some v
  | .smallInt, .smallInt v => some v
  | .int, .int v => some v
  | .bigInt, .long v => some v
  | _, _ => none

def integerDatum : TypeRoot → Int → Option Datum
  | .tinyInt, v => (fitsSigned 8 v).map .tinyInt
  | .smallInt, v => (fitsSigned 16 v).map .smallInt
  | .int, v => (fitsSigned 32 v).map .int
  | .bigInt, v => some (.long v)
  | _, _ => none

def devolveLiterals (tableType dataType : DataType) (literals : List Datum) : Option (List Datum) :=
  if tableType.equalsIgnoreNullable dataType then some literals
  else
    match integerWidth tableType.root, integerWidth dataType.root with
    | some tableWidth, some dataWidth =>
      -- narrowing can wrap values
      if tableWidth ≤ dataWidth then none
      else literals.mapM fun literal =>
        (integerValue tableType.root literal).bind (integerDatum dataType.root)
    | _, _ => none

section
variable (tableFields dataFields : List DataField)

def findField (id : Int) : Option (Nat × DataField) :=
  (dataFields.findIdx? fun f => f.id == id).bind fun j => dataFields[j]?.map fun f => (j, f)

def remapLeaf (column : String) (index : Nat) (dataType : DataType) (op : PredicateOperator)
    (literals : List Datum) : Option Predicate := do
  let tableField ← tableFields[index]?
  if tableField.name != column then none
  else
    let (dataIndex, dataField) ← findField dataFields tableField.id
    let literals ← devolveLiterals dataType dataField.dataType literals
    return .leaf dataField.name dataIndex dataField.dataType op literals

mutual

def remapPredicateExact : Predicate → Option Predicate
  | .and children => (remapAllExact children).map Predicate.mkAnd
  | .or children => (remapAllExact children).map Predicate.mkOr
  | .not inner => (remapPredicateExact inner).map Predicate.negate
  | .leaf column index dataType op literals =>
    remapLeaf tableFields dataFields column index dataType op literals
  | .alwaysTrue => some .alwaysTrue
  | .alwaysFalse => some .alwaysFalse

def remapAllExact : List Predicate → Option (List Predicate)
  | [] => some []
  | p :: ps => do
    let q ← remapPredicateExact p
    let qs ← remapAllExact ps
    return q :: qs

end

mutual

def remapPredicate : Predicate → Option Predicate
  | .leaf column index dataType op literals =>
    remapLeaf tableFields dataFields column index dataType op literals
  | .and children =>
    match remapSome children with
    | [] => none
    | remapped => some (Predicate.mkAnd remapped)
  | .or children => (remapAll children).map Predicate.mkOr
  | .not inner => (remapPredicateExact tableFields dataFields inner).map Predicate.negate
  | .alwaysTrue => some .alwaysTrue
  | .alwaysFalse => some .alwaysFalse

def remapSome : List Predicate → List Predicate
  | [] => []
  | p :: ps => (remapPredicate p).toList ++ remapSome ps

def remapAll : List Predicate → Option (List Predicate)
  | [] => some []
  | p :: ps => do
    let q ← remapPredicate p
    let qs ← remapAll ps
    return q :: qs

end

def remapPredicates (predicates : List Predicate) : Option Predicate :=
  match remapSome tableFields dataFields predicates with
  | [] => none
  | remapped => some (Predicate.mkAnd remapped)

end

/-- the candidates of a file: all of them where nothing can be rewritten -/
def candidates (tableFields dataFields : List DataField) (indexes : FileIndexPredicate)
    (predicates : List Predicate) : FileIndexResult :=
  match remapPredicates tableFields dataFields predicates with
  | none => .remain
  | some p => indexes.evaluate p

/-! ## rows under both schemas -/

/-- a leaf on a row of the file read under the table schema; a missing column is NULL -/
def tableLeaf (arrow : ArrowCast) (tableFields dataFields : List DataField) (row : FileRow) :
    LeafEval := fun _ index dataType op literals =>
  match tableFields[index]? with
  | none => none
  | some tableField =>
    match findField dataFields tableField.id with
    | none => evaluateExactLeaf dataType.root none op literals
    | some (j, dataField) =>
      evaluateColumn arrow dataField.dataType.root dataType.root (row.value j) op literals

def fileLeaf (row : FileRow) : LeafEval := fun _ index dataType op literals =>
  evaluateExactLeaf dataType.root (row.value index) op literals

def RowsTyped (dataFields : List DataField) (rows : List FileRow) : Prop :=
  ∀ row ∈ rows, ∀ j f v, dataFields[j]? = some f → row.value j = some v →
    Value.ofType f.dataType.root v = true

/-- every reader admits the rows that satisfy the leaf it is asked for -/
def ReadersSound (dataFields : List DataField) (rows : List FileRow) (indexes : FileIndexPredicate) :
    Prop :=
  ∀ (j : Nat) (f : DataField), dataFields[j]? = some f →
    ∀ readers, indexes.columnReaders f.name = some readers → ∀ reader ∈ readers,
      ∀ op literals (pos : Nat) row, rows[pos]? = some row →
        evaluateExactLeaf f.dataType.root (row.value j) op literals = some true →
        (reader f.name j f.dataType op literals).Admits pos

/-! ## literals in a narrower type -/

/-- an integer as a value of an integer type -/
def mkInt : TypeRoot → Int → Datum
  | .tinyInt, n => .tinyInt n
  | .smallInt, n => .smallInt n
  | .int, n => .int n
  | _, n => .long n

section
variable {t : TypeRoot} {w : Nat} (ht : integerWidth t = some w)
include ht

theorem literalScalar_int (l : Datum) :
    literalScalar t l = ((integerLiteral l).bind (fitsSigned w)).map (mkInt t) := by
  cases t <;> cases ht <;> rfl

theorem evaluateColumnPredicate_int (op : PredicateOperator) (m n : Int) :
    evaluateColumnPredicate op (.scalar (mkInt t m)) (mkInt t n) = comparison op (compare m n) := by
  cases t <;> cases ht <;> rfl

theorem mkInt_of_type {v : Value} (hv : Value.ofType t v = true) : ∃ m, v = .scalar (mkInt t m) := by
  cases t <;> cases ht
  all_goals
    cases v <;> try cases hv
    rename_i d
    cases d <;> cases hv
    exact ⟨_, rfl⟩

theorem int_leaf (v : Option Value) (op : PredicateOperator) (literals : List Datum) :
    evaluateExactLeaf t v op literals =
      match op with
      | .arrayContains | .arraysOverlap | .arrayContainsAll => none
      | .isNull => some v.isNone
      | .isNotNull => some v.isSome
      | .isIn | .notIn => evaluateSetMembership t v op literals
      | .between | .notBetween => evaluateBetween t v op literals
      | _ => evaluateSingle t v op literals := by
  cases t <;> cases ht <;> cases op <;> rfl

end

variable {t : TypeRoot} {d : Datum}

theorem integerDatum_eq {w : Nat} (ht : integerWidth t = some w) {n : Int}
    (hw : w < 64) (h : integerDatum t n = some d) :
    d = mkInt t n ∧ fitsSigned w n = some n := by
  cases t <;> cases ht <;> try omega
  all_goals
    obtain ⟨m, hm, rfl⟩ := Option.map_eq_some_iff.mp h
    obtain rfl := fitsSigned_eq hm
    exact ⟨rfl, hm⟩

theorem integerLiteral_value {n : Int} (h : integerValue t d = some n) :
    integerLiteral d = some n := by
  cases t <;> cases d <;> first | exact h | cases h

theorem integerLiteral_mkInt (t : TypeRoot) (n : Int) : integerLiteral (mkInt t n) = some n := by
  cases t <;> rfl

variable {source target : TypeRoot} {ws wt : Nat}

theorem widenInteger_mkInt
    (hs : integerWidth source = some ws) (ht : integerWidth target = some wt) (h : ws < wt) (n : Int) :
    widenInteger (mkInt source n) target = some (mkInt target n) := by
  cases source <;> cases hs <;> cases target <;> cases ht <;> first | rfl | omega

theorem integerWidth_le {w : Nat} (h : integerWidth t = some w) : w ≤ 64 := by
  cases t <;> cases h <;> omega

theorem arrow_ne (hs : integerWidth source = some ws)
    (ht : integerWidth target = some wt) (h : ws < wt) : source.arrow ≠ target.arrow := by
  cases source <;> cases hs <;> cases target <;> cases ht <;> first | omega | exact nofun

/-- the same integer as a literal of the wider and of the narrower type -/
def Narrowed (source : TypeRoot) (w : Nat) (l l' : Datum) : Prop :=
  ∃ n, integerLiteral l = some n ∧ l' = mkInt source n ∧ fitsSigned w n = some n

section
variable {source target : TypeRoot} {ws wt : Nat} (hs : integerWidth source = some ws)
  (ht : integerWidth target = some wt)
include hs ht

theorem narrowed_scalar {l l' s : Datum} (hl : Narrowed source ws l l')
    (h : literalScalar target l = some s) :
    ∃ n, s = mkInt target n ∧ literalScalar source l' = some (mkInt source n) := by
  obtain ⟨n, hn, rfl, hfits⟩ := hl
  rw [literalScalar_int ht, hn] at h
  obtain ⟨m, hm, rfl⟩ := Option.map_eq_some_iff.mp h
  obtain rfl := fitsSigned_eq (show fitsSigned wt n = some m from hm)
  refine ⟨m, rfl, ?_⟩
  rw [literalScalar_int hs, integerLiteral_mkInt]
  show (fitsSigned ws m).map _ = _
  rw [hfits]
  rfl

theorem narrowed_scalars {ls ls' ss : List Datum} (hl : List.Forall₂ (Narrowed source ws) ls ls')
    (h : ls.mapM (literalScalar target) = some ss) :
    ∃ ns : List Int, ss = ns.map (mkInt target) ∧
      ls'.mapM (literalScalar source) = some (ns.map (mkInt source)) := by
  induction hl generalizing ss with
  | nil =>
    obtain rfl : [] = ss := by simpa using h
    exact ⟨[], rfl, rfl⟩
  | @cons l l' ls ls' hhead _ ih =>
    rw [mapM_cons] at h
    obtain ⟨s, hsc, h⟩ := Option.bind_eq_some_iff.mp h
    obtain ⟨ss', hss, h⟩ := Option.bind_eq_some_iff.mp h
    obtain rfl := Option.some.inj h
    obtain ⟨n, rfl, hn⟩ := narrowed_scalar hs ht hhead hsc
    obtain ⟨ns, rfl, hns⟩ := ih hss
    refine ⟨n :: ns, rfl, ?_⟩
    rw [mapM_cons, hn, hns]
    rfl

theorem compare_all (op : PredicateOperator) (m : Int) (ns : List Int) :
    (ns.map (mkInt source)).mapM (evaluateColumnPredicate op (.scalar (mkInt source m)))
      = (ns.map (mkInt target)).mapM (evaluateColumnPredicate op (.scalar (mkInt target m))) := by
  induction ns with
  | nil => rfl
  | cons n ns ih =>
    rw [map_cons, map_cons, mapM_cons, mapM_cons, ih,
      evaluateColumnPredicate_int hs, evaluateColumnPredicate_int ht]

variable {v : Option Int} {op : PredicateOperator} {ls ls' : List Datum} {b : Bool}
  (hl : List.Forall₂ (Narrowed source ws) ls ls')
include hl

theorem narrowed_set
    (h : evaluateSetMembership target (v.map fun n => .scalar (mkInt target n)) op ls = some b) :
    evaluateSetMembership source (v.map fun n => .scalar (mkInt source n)) op ls' = some b := by
  unfold evaluateSetMembership at h ⊢
  obtain ⟨ss, hss, h⟩ := Option.bind_eq_some_iff.mp h
  obtain ⟨ns, rfl, hns⟩ := narrowed_scalars hs ht hl hss
  rw [hns]
  cases v with
  | none => exact h
  | some m =>
    show (do
      let equal ← (ns.map (mkInt source)).mapM (evaluateColumnPredicate .eq (.scalar (mkInt source m)))
      return if op = .isIn then equal.any id else !equal.any id) = some b
    rw [compare_all hs ht]
    exact h

theorem narrowed_between
    (h : evaluateBetween target (v.map fun n => .scalar (mkInt target n)) op ls = some b) :
    evaluateBetween source (v.map fun n => .scalar (mkInt source n)) op ls' = some b := by
  unfold evaluateBetween at h ⊢
  cases hl with
  | nil => cases h
  | @cons low low' ls ls' hlow hl =>
    cases hl with
    | nil => cases h
    | @cons high high' ls ls' hhigh hl =>
      dsimp only at h ⊢
      obtain ⟨s, hsc, h⟩ := Option.bind_eq_some_iff.mp h
      obtain ⟨s', hsc', h⟩ := Option.bind_eq_some_iff.mp h
      obtain ⟨n, rfl, hn⟩ := narrowed_scalar hs ht hlow hsc
      obtain ⟨n', rfl, hn'⟩ := narrowed_scalar hs ht hhigh hsc'
      rw [hn, hn']
      cases v with
      | none => exact h
      | some m =>
        dsimp only [Option.map_some] at h ⊢
        rw [evaluateColumnPredicate_int ht, evaluateColumnPredicate_int ht] at h
        show (do
          let ge ← evaluateColumnPredicate .gtEq (.scalar (mkInt source m)) (mkInt source n)
          let le ← evaluateColumnPredicate .ltEq (.scalar (mkInt source m)) (mkInt source n')
          return if op = .between then ge && le else !(ge && le)) = some b
        rw [evaluateColumnPredicate_int hs, evaluateColumnPredicate_int hs]
        exact h

theorem narrowed_single (h : evaluateSingle target (v.map fun n => .scalar (mkInt target n)) op ls = some b) :
    evaluateSingle source (v.map fun n => .scalar (mkInt source n)) op ls' = some b := by
  unfold evaluateSingle at h ⊢
  cases hl with
  | nil => cases h
  | @cons l l' ls ls' hhead _ =>
    obtain ⟨s, hsc, h⟩ := Option.bind_eq_some_iff.mp (show (literalScalar target l).bind _ = _ from h)
    obtain ⟨n, rfl, hn⟩ := narrowed_scalar hs ht hhead hsc
    show (literalScalar source l').bind _ = _
    rw [hn]
    cases v with
    | none => exact h
    | some m =>
      show evaluateColumnPredicate op (.scalar (mkInt source m)) (mkInt source n) = some b
      rw [evaluateColumnPredicate_int hs, ← evaluateColumnPredicate_int ht]
      exact h

/-- **A leaf with narrowed literals has the value of the leaf on the widened column.** -/
theorem narrowed_leaf
    (h : evaluateExactLeaf target (v.map fun n => .scalar (mkInt target n)) op ls = some b) :
    evaluateExactLeaf source (v.map fun n => .scalar (mkInt source n)) op ls' = some b := by
  rw [int_leaf ht] at h
  rw [int_leaf hs]
  cases op
  case arrayContains => cases h
  case arraysOverlap => cases h
  case arrayContainsAll => cases h
  case isNull => cases v <;> exact h
  case isNotNull => cases v <;> exact h
  case isIn => exact narrowed_set hs ht hl h
  case notIn => exact narrowed_set hs ht hl h
  case between => exact narrowed_between hs ht hl h
  case notBetween => exact narrowed_between hs ht hl h
  all_goals exact narrowed_single hs ht hl h

end

variable {op : PredicateOperator} {b : Bool}

/-- **A rewritten leaf has the value of the leaf.** -/
theorem devolve_leaf (arrow : ArrowCast) {tableType dataType : DataType} {v : Option Value}
    (hv : ∀ x, v = some x → Value.ofType dataType.root x = true)
    {ls ls' : List Datum} (hlits : devolveLiterals tableType dataType ls = some ls')
    (h : evaluateColumn arrow dataType.root tableType.root v op ls = some b) :
    evaluateExactLeaf dataType.root v op ls' = some b := by
  unfold devolveLiterals at hlits
  split at hlits
  · next hsame =>
    obtain rfl := Option.some.inj hlits
    have hroot : tableType.root = dataType.root := beq_iff_eq.mp hsame
    unfold evaluateColumn at h
    rw [if_pos (by rw [hroot])] at h
    exact h
  next hdiff =>
  split at hlits
  · next wt ws ht hs =>
    split at hlits
    · cases hlits
    next hlt =>
    have hwidth := integerWidth_le ht
    have hrel : List.Forall₂ (Narrowed dataType.root ws) ls ls' := by
      refine (Traverse.option_mapM.mp hlits).imp ?_
      intro l l' hl
      obtain ⟨n, hn, hd⟩ := Option.bind_eq_some_iff.mp hl
      obtain ⟨rfl, hfits⟩ := integerDatum_eq hs (by omega) hd
      exact ⟨n, integerLiteral_value hn, rfl, hfits⟩
    unfold evaluateColumn at h
    rw [if_neg (arrow_ne hs ht (by omega))] at h
    cases v with
    | none => exact @narrowed_leaf _ _ _ _ hs ht none op ls ls' b hrel h
    | some x =>
      obtain ⟨m, rfl⟩ := mkInt_of_type hs (hv x rfl)
      dsimp only at h
      rw [arrow.promotes _ _ _ _ (widenInteger_mkInt hs ht (by omega) m)] at h
      exact @narrowed_leaf _ _ _ _ hs ht (some m) op ls ls' b hrel h
  · cases hlits

/-! ## the rewriting -/

variable {literals : List Datum} {ps : List Predicate} {dataType : DataType} {column : String} {index : Nat}

section
variable {arrow : ArrowCast} {tableFields dataFields : List DataField} {row : FileRow} {q : Predicate}

theorem remapLeaf_cases (h : remapLeaf tableFields dataFields column index dataType op literals = some q) :
    ∃ tableField j dataField literals', tableFields[index]? = some tableField ∧
      findField dataFields tableField.id = some (j, dataField) ∧
      devolveLiterals dataType dataField.dataType literals = some literals' ∧
      q = .leaf dataField.name j dataField.dataType op literals' := by
  unfold remapLeaf at h
  obtain ⟨tableField, htable, h⟩ := Option.bind_eq_some_iff.mp h
  split at h
  · cases h
  obtain ⟨⟨j, dataField⟩, hfind, h⟩ := Option.bind_eq_some_iff.mp h
  obtain ⟨literals', hlits, h⟩ := Option.bind_eq_some_iff.mp h
  exact ⟨tableField, j, dataField, literals', htable, hfind, hlits, (Option.some.inj h).symm⟩

theorem findField_get {id : Int} {j : Nat} {f : DataField}
    (h : findField dataFields id = some (j, f)) : dataFields[j]? = some f := by
  unfold findField at h
  obtain ⟨i, -, h⟩ := Option.bind_eq_some_iff.mp h
  obtain ⟨g, hg, h⟩ := Option.map_eq_some_iff.mp h
  obtain ⟨rfl, rfl⟩ := Prod.mk.inj h
  exact hg

theorem remapLeaf_setFilled (h : remapLeaf tableFields dataFields column index dataType op literals = some q)
    (hp : Predicate.setFilled op literals = true) : q.NoEmptySet := by
  obtain ⟨_, j, f, literals', -, -, hlits, rfl⟩ := remapLeaf_cases h
  refine .leaf ?_
  -- a list of literals without one stays so, any other keeps at least one
  have hnil : literals' = [] → literals = [] := by
    intro hnil
    subst hnil
    unfold devolveLiterals at hlits
    split at hlits
    · exact Option.some.inj hlits
    split at hlits
    · split at hlits
      · cases hlits
      · exact forall₂_nil_right_iff.mp (Traverse.option_mapM.mp hlits)
    · cases hlits
  cases literals' with
  | nil =>
    rw [hnil rfl] at hp
    cases op <;> first | rfl | cases hp
  | cons _ _ => cases op <;> rfl

variable {ps qs : List Predicate}

theorem remapAllExact_eq : remapAllExact tableFields dataFields ps = some qs ↔
    List.Forall₂ (fun p q => remapPredicateExact tableFields dataFields p = some q) ps qs :=
  Traverse.option_each (by rw [remapAllExact]) fun p ps => by rw [remapAllExact]

theorem remapAll_eq : remapAll tableFields dataFields ps = some qs ↔
    List.Forall₂ (fun p q => remapPredicate tableFields dataFields p = some q) ps qs :=
  Traverse.option_each (by rw [remapAll]) fun p ps => by rw [remapAll]

section
variable (hrow : ∀ j f v, dataFields[j]? = some f → row.value j = some v →
    Value.ofType f.dataType.root v = true)
include hrow

theorem remapLeaf_eval
    (h : remapLeaf tableFields dataFields column index dataType op literals = some q)
    (heval : tableLeaf arrow tableFields dataFields row column index dataType op literals = some b) :
    Predicate.eval (fileLeaf row) q = some b := by
  obtain ⟨tableField, j, f, literals', htable, hfind, hlits, rfl⟩ := remapLeaf_cases h
  unfold tableLeaf at heval
  rw [htable] at heval
  dsimp only at heval
  rw [hfind] at heval
  rw [Predicate.eval]
  exact devolve_leaf arrow (fun x hx => hrow j f x (findField_get hfind) hx) hlits heval

/-- an exact rewriting of a tree keeps its value, and brings no empty set -/
def ExactAt (arrow : ArrowCast) (tableFields dataFields : List DataField) (row : FileRow)
    (p : Predicate) : Prop :=
  ∀ q, remapPredicateExact tableFields dataFields p = some q → p.NoEmptySet →
    q.NoEmptySet ∧ ∀ b, p.eval (tableLeaf arrow tableFields dataFields row) = some b →
      q.eval (fileLeaf row) = some b

theorem remapAllExact_value (ih : ∀ p ∈ ps, ExactAt arrow tableFields dataFields row p)
    (hne : ∀ p ∈ ps, Predicate.NoEmptySet p)
    (h : remapAllExact tableFields dataFields ps = some qs) :
    (∀ q ∈ qs, Predicate.NoEmptySet q) ∧
    ∀ u b, Predicate.evalChildren (tableLeaf arrow tableFields dataFields row) u ps = some b →
      Predicate.evalChildren (fileLeaf row) u qs = some b := by
  induction remapAllExact_eq.mp h with
  | nil =>
    refine ⟨forall_mem_nil _, fun u b hb => ?_⟩
    cases u <;> exact hb
  | cons hq hqs ihl =>
    obtain ⟨hqne, hqv⟩ := ih _ mem_cons_self _ hq (hne _ mem_cons_self)
    obtain ⟨hall, hvalue⟩ := ihl (forall_mem_cons.mp ih).2 (forall_mem_cons.mp hne).2 (remapAllExact_eq.mpr hqs)
    refine ⟨forall_mem_cons.mpr ⟨hqne, hall⟩, fun u b hb => ?_⟩
    obtain ⟨x, y, hx, hy, rfl⟩ := Predicate.evalChildren_cons.mp hb
    exact Predicate.evalChildren_cons.mpr ⟨x, y, hqv x hx, hvalue u y hy, rfl⟩

/-- **An exact rewriting keeps the value of a tree.** -/
theorem remapPredicateExact_eval (p : Predicate) : ExactAt arrow tableFields dataFields row p := by
  induction p with
  | leaf column index dataType op literals =>
    intro q hq hne
    rw [remapPredicateExact] at hq
    cases hne with
    | leaf hne =>
      refine ⟨remapLeaf_setFilled hq hne, ?_⟩
      intro b hb
      rw [Predicate.eval] at hb
      exact remapLeaf_eval hrow hq hb
  | and children ih | or children ih =>
    intro q hq hne
    rw [remapPredicateExact] at hq
    obtain ⟨qs, hqs, rfl⟩ := Option.map_eq_some_iff.mp hq
    cases hne
    next hne =>
    obtain ⟨hall, hvalue⟩ := remapAllExact_value hrow ih hne hqs
    first
    | exact ⟨.mkAnd hall, fun b hb => Predicate.eval_mkAnd (hvalue true b ((Predicate.eval_and _).symm.trans hb))⟩
    | exact ⟨.mkOr hall, fun b hb => Predicate.eval_mkOr (hvalue false b ((Predicate.eval_or _).symm.trans hb))⟩
  | not inner ih =>
    intro q hq hne
    rw [remapPredicateExact] at hq
    obtain ⟨q', hq', rfl⟩ := Option.map_eq_some_iff.mp hq
    cases hne with
    | not hne =>
      obtain ⟨hqne, hqv⟩ := ih q' hq' hne
      refine ⟨hqne.negate, ?_⟩
      intro b hb
      rw [Predicate.eval_not] at hb
      obtain ⟨a, ha, rfl⟩ := Option.map_eq_some_iff.mp hb
      exact Predicate.eval_negate hqne (hqv a ha)
  | alwaysTrue | alwaysFalse =>
    intro q hq hne
    rw [remapPredicateExact] at hq
    obtain rfl := Option.some.inj hq
    refine ⟨hne, ?_⟩
    intro b hb
    rw [Predicate.eval] at hb ⊢
    exact hb

/-- a rewriting of a tree evaluates where the tree does and is true where the tree is -/
def WidensAt (arrow : ArrowCast) (tableFields dataFields : List DataField) (row : FileRow)
    (p : Predicate) : Prop :=
  ∀ q, remapPredicate tableFields dataFields p = some q → p.NoEmptySetNegated →
    ∀ b, p.eval (tableLeaf arrow tableFields dataFields row) = some b →
      ∃ b', q.eval (fileLeaf row) = some b' ∧ (b = true → b' = true)

theorem remapSome_conj (ih : ∀ p ∈ ps, WidensAt arrow tableFields dataFields row p)
    (hne : ∀ p ∈ ps, Predicate.NoEmptySetNegated p)
    (h : Predicate.conj (tableLeaf arrow tableFields dataFields row) ps = some b) :
    ∃ b', Predicate.conj (fileLeaf row) (remapSome tableFields dataFields ps) = some b' ∧
      (b = true → b' = true) := by
  induction ps generalizing b with
  | nil =>
    refine ⟨true, ?_, fun _ => rfl⟩
    rw [remapSome, Predicate.conj]
  | cons p ps ihl =>
    obtain ⟨x, y, hx, hy, rfl⟩ := Predicate.conj_cons.mp h
    obtain ⟨y', hy', hyy⟩ := ihl (forall_mem_cons.mp ih).2 (forall_mem_cons.mp hne).2 hy
    rw [remapSome]
    cases hq : remapPredicate tableFields dataFields p with
    | none =>
      refine ⟨y', hy', ?_⟩
      intro hxy
      exact hyy (Bool.and_eq_true_iff.mp hxy).2
    | some q =>
      obtain ⟨x', hx', hxx⟩ := ih p mem_cons_self q hq (hne p mem_cons_self) x hx
      refine ⟨x' && y', Predicate.conj_cons.mpr ⟨x', y', hx', hy', rfl⟩, ?_⟩
      intro hxy
      obtain ⟨hx1, hy1⟩ := Bool.and_eq_true_iff.mp hxy
      rw [hxx hx1, hyy hy1]
      rfl

theorem remapAll_disj (ih : ∀ p ∈ ps, WidensAt arrow tableFields dataFields row p)
    (hne : ∀ p ∈ ps, Predicate.NoEmptySetNegated p)
    (hqs : remapAll tableFields dataFields ps = some qs)
    (h : Predicate.disj (tableLeaf arrow tableFields dataFields row) ps = some b) :
    ∃ b', Predicate.disj (fileLeaf row) qs = some b' ∧ (b = true → b' = true) := by
  induction remapAll_eq.mp hqs generalizing b with
  | nil => exact ⟨b, h, id⟩
  | cons hq hqs' ihl =>
    obtain ⟨x, y, hx, hy, rfl⟩ := Predicate.disj_cons.mp h
    obtain ⟨x', hx', hxx⟩ := ih _ mem_cons_self _ hq (hne _ mem_cons_self) x hx
    obtain ⟨y', hy', hyy⟩ :=
      ihl (forall_mem_cons.mp ih).2 (forall_mem_cons.mp hne).2 (remapAll_eq.mpr hqs') hy
    refine ⟨x' || y', Predicate.disj_cons.mpr ⟨x', y', hx', hy', rfl⟩, ?_⟩
    intro hxy
    rcases Bool.or_eq_true_iff.mp hxy with hx1 | hy1
    · rw [hxx hx1]
      rfl
    · rw [hyy hy1]
      exact Bool.or_true x'

/-- **A rewriting is true where the tree is.** -/
theorem remapPredicate_widens (p : Predicate) : WidensAt arrow tableFields dataFields row p := by
  induction p with
  | leaf column index dataType op literals =>
    intro q hq _ b h
    rw [remapPredicate] at hq
    rw [Predicate.eval] at h
    exact ⟨b, remapLeaf_eval hrow hq h, id⟩
  | and children ih =>
    intro q hq hne b h
    rw [remapPredicate] at hq
    rw [Predicate.eval_and] at h
    cases hne with
    | and hne =>
      obtain ⟨b', hb', himp⟩ := remapSome_conj hrow ih hne h
      split at hq
      · cases hq
      · obtain rfl := Option.some.inj hq
        exact ⟨b', Predicate.eval_mkAnd hb', himp⟩
  | or children ih =>
    intro q hq hne b h
    rw [remapPredicate] at hq
    rw [Predicate.eval_or] at h
    obtain ⟨qs, hqs, rfl⟩ := Option.map_eq_some_iff.mp hq
    cases hne with
    | or hne =>
      obtain ⟨b', hb', himp⟩ := remapAll_disj hrow ih hne hqs h
      exact ⟨b', Predicate.eval_mkOr hb', himp⟩
  | not inner _ =>
    intro q hq hne b h
    rw [remapPredicate] at hq
    rw [Predicate.eval_not] at h
    obtain ⟨q', hq', rfl⟩ := Option.map_eq_some_iff.mp hq
    obtain ⟨a, ha, rfl⟩ := Option.map_eq_some_iff.mp h
    cases hne with
    | not hne =>
      obtain ⟨hqne, hqv⟩ := remapPredicateExact_eval hrow inner q' hq' hne
      exact ⟨!a, Predicate.eval_negate hqne (hqv a ha), id⟩
  | alwaysTrue =>
    intro q hq _ b _
    rw [remapPredicate] at hq
    obtain rfl := Option.some.inj hq
    refine ⟨true, ?_, fun _ => rfl⟩
    rw [Predicate.eval]
  | alwaysFalse =>
    intro q hq _ b h
    rw [remapPredicate] at hq
    obtain rfl := Option.some.inj hq
    refine ⟨false, ?_, ?_⟩
    · rw [Predicate.eval]
    · intro hb
      rw [Predicate.eval, hb] at h
      cases h

end

/-! ## leaves of the file -/

/-- a leaf on a field of the file, under its name and type -/
def OnFile (dataFields : List DataField) (column : String) (index : Nat) (dataType : DataType)
    (_ : PredicateOperator) (_ : List Datum) : Prop :=
  ∃ f, dataFields[index]? = some f ∧ f.name = column ∧ f.dataType = dataType

theorem remapLeaf_onFile (h : remapLeaf tableFields dataFields column index dataType op literals = some q) :
    q.Leaves (OnFile dataFields) := by
  obtain ⟨_, j, f, literals', -, hfind, -, rfl⟩ := remapLeaf_cases h
  exact .leaf ⟨f, findField_get hfind, rfl, rfl⟩

theorem remapPredicateExact_onFile (p : Predicate) : ∀ q,
    remapPredicateExact tableFields dataFields p = some q → q.Leaves (OnFile dataFields) := by
  induction p with
  | leaf column index dataType op literals =>
    intro q hq
    rw [remapPredicateExact] at hq
    exact remapLeaf_onFile hq
  | and children ih | or children ih =>
    intro q hq
    rw [remapPredicateExact] at hq
    obtain ⟨qs, hqs, rfl⟩ := Option.map_eq_some_iff.mp hq
    have hall : ∀ q ∈ qs, q.Leaves (OnFile dataFields) := fun q hq => by
      obtain ⟨p, hp, h⟩ := Traverse.mem_left (remapAllExact_eq.mp hqs) hq
      exact ih p hp q h
    first | exact .mkAnd hall | exact .mkOr hall
  | not inner ih =>
    intro q hq
    rw [remapPredicateExact] at hq
    obtain ⟨q', hq', rfl⟩ := Option.map_eq_some_iff.mp hq
    exact (ih q' hq').negate fun _ _ _ => Iff.rfl
  | alwaysTrue | alwaysFalse =>
    intro q hq
    rw [remapPredicateExact] at hq
    obtain rfl := Option.some.inj hq
    constructor

theorem remapSome_onFile
    (ih : ∀ p ∈ ps, ∀ q, remapPredicate tableFields dataFields p = some q → q.Leaves (OnFile dataFields)) :
    ∀ q ∈ remapSome tableFields dataFields ps, q.Leaves (OnFile dataFields) := by
  induction ps with
  | nil =>
    rw [remapSome]
    exact forall_mem_nil _
  | cons p ps ihl =>
    intro q hq
    rw [remapSome] at hq
    rcases mem_append.mp hq with hq | hq
    · exact ih p mem_cons_self q (Option.mem_toList.mp hq)
    · exact ihl (forall_mem_cons.mp ih).2 q hq

theorem remapPredicate_onFile (p : Predicate) : ∀ q,
    remapPredicate tableFields dataFields p = some q → q.Leaves (OnFile dataFields) := by
  induction p with
  | leaf column index dataType op literals =>
    intro q hq
    rw [remapPredicate] at hq
    exact remapLeaf_onFile hq
  | and children ih =>
    intro q hq
    rw [remapPredicate] at hq
    split at hq
    · cases hq
    · obtain rfl := Option.some.inj hq
      exact .mkAnd (remapSome_onFile ih)
  | or children ih =>
    intro q hq
    rw [remapPredicate] at hq
    obtain ⟨qs, hqs, rfl⟩ := Option.map_eq_some_iff.mp hq
    refine .mkOr fun q hq => ?_
    obtain ⟨p, hp, h⟩ := Traverse.mem_left (remapAll_eq.mp hqs) hq
    exact ih p hp q h
  | not inner _ =>
    intro q hq
    rw [remapPredicate] at hq
    obtain ⟨q', hq', rfl⟩ := Option.map_eq_some_iff.mp hq
    exact (remapPredicateExact_onFile inner q' hq').negate fun _ _ _ => Iff.rfl
  | alwaysTrue | alwaysFalse =>
    intro q hq
    rw [remapPredicate] at hq
    obtain rfl := Option.some.inj hq
    constructor

end

/-! ## evaluation on the indexes -/

section
variable {pos : Nat} {a b : FileIndexResult}

theorem admits_and (ha : a.Admits pos) (hb : b.Admits pos) : (a.and b).Admits pos := by
  cases a <;> cases b
  case selection.selection => exact Finset.mem_inter.mpr ⟨ha, hb⟩
  all_goals first | exact ha | exact hb

theorem admits_or_left (ha : a.Admits pos) : (a.or b).Admits pos := by
  cases a <;> cases b
  case selection.selection => exact Finset.mem_union_left _ ha
  all_goals first | exact ha | exact trivial | exact ha.elim

theorem admits_or_right (hb : b.Admits pos) : (a.or b).Admits pos := by
  cases a <;> cases b
  case selection.selection => exact Finset.mem_union_right _ hb
  all_goals first | exact hb | exact trivial | exact hb.elim

variable {dataFields : List DataField} {rows : List FileRow} {indexes : FileIndexPredicate}
  {row : FileRow}

variable {result : FileIndexResult}

theorem readAll_admits {readers : List FileIndexReader} (hresult : result.Admits pos)
    (h : ∀ reader ∈ readers, (reader column index dataType op literals).Admits pos) :
    (FileIndexPredicate.readAll column index dataType op literals readers result).Admits pos := by
  induction readers generalizing result with
  | nil => exact hresult
  | cons reader readers ih =>
    have hnext := admits_and hresult (h reader mem_cons_self)
    rw [FileIndexPredicate.readAll]
    split
    · exact hnext
    · exact ih hnext (forall_mem_cons.mp h).2

theorem evaluateAnd_admits (hresult : result.Admits pos) (h : ∀ p ∈ ps, (indexes.evaluate p).Admits pos) :
    (indexes.evaluateAnd ps result).Admits pos := by
  induction ps generalizing result with
  | nil =>
    rw [FileIndexPredicate.evaluateAnd]
    exact hresult
  | cons p ps ih =>
    have hnext := admits_and hresult (h p mem_cons_self)
    rw [FileIndexPredicate.evaluateAnd]
    split
    · exact hnext
    · exact ih hnext (forall_mem_cons.mp h).2

theorem evaluateOr_keeps (hresult : result.Admits pos) : (indexes.evaluateOr ps result).Admits pos := by
  induction ps generalizing result with
  | nil =>
    rw [FileIndexPredicate.evaluateOr]
    exact hresult
  | cons p ps ih =>
    rw [FileIndexPredicate.evaluateOr]
    split
    · exact admits_or_left hresult
    · exact ih (admits_or_left hresult)

theorem evaluateOr_admits
    (h : ∃ p ∈ ps, (indexes.evaluate p).Admits pos) : (indexes.evaluateOr ps result).Admits pos := by
  induction ps generalizing result with
  | nil =>
    obtain ⟨p, hp, -⟩ := h
    exact absurd hp not_mem_nil
  | cons p ps ih =>
    obtain ⟨q, hq, hadm⟩ := h
    rw [FileIndexPredicate.evaluateOr]
    rcases mem_cons.mp hq with rfl | hq
    · split
      · exact admits_or_right hadm
      · exact evaluateOr_keeps (admits_or_right hadm)
    · split
      · next hremain =>
        revert hremain
        cases result.or (indexes.evaluate p) <;> first | exact fun _ => trivial | exact nofun
      · exact ih ⟨q, hq, hadm⟩

/-- `evaluate` admits the row if the tree is true of it -/
def AdmitsAt (indexes : FileIndexPredicate) (row : FileRow) (pos : Nat) (p : Predicate) : Prop :=
  p.eval (fileLeaf row) = some true → (indexes.evaluate p).Admits pos

/-- **Evaluation admits every row of which the tree is true.** -/
theorem evaluate_admits (hsound : ReadersSound dataFields rows indexes)
    (hpos : rows[pos]? = some row) {p : Predicate} (hleaves : p.Leaves (OnFile dataFields)) :
    AdmitsAt indexes row pos p := by
  -- NOT NOT looks two levels down, so the hypothesis is carried for the operand of a NOT as well
  suffices h : AdmitsAt indexes row pos p ∧ ∀ inner, p = .not inner → AdmitsAt indexes row pos inner from h.1
  induction hleaves with
  | @leaf column index dataType op literals hleaf =>
    refine ⟨?_, fun _ hq => by cases hq⟩
    intro h
    obtain ⟨f, hf, rfl, rfl⟩ := hleaf
    rw [Predicate.eval] at h
    rw [FileIndexPredicate.evaluate]
    unfold FileIndexPredicate.evaluateLeaf
    split
    · exact trivial
    · next readers hreaders =>
      refine readAll_admits trivial ?_
      intro reader hreader
      exact hsound index f hf readers hreaders reader hreader op literals pos row hpos h
  | and _ ih =>
    refine ⟨?_, fun _ hq => by cases hq⟩
    intro h
    rw [Predicate.eval_and] at h
    rw [FileIndexPredicate.evaluate]
    refine evaluateAnd_admits trivial ?_
    intro q hq
    exact (ih q hq).1 (Predicate.conj_true.mp h q hq)
  | or _ ih =>
    refine ⟨?_, fun _ hq => by cases hq⟩
    intro h
    rw [Predicate.eval_or] at h
    obtain ⟨q, hq, htrue⟩ := Predicate.disj_true h
    rw [FileIndexPredicate.evaluate]
    exact evaluateOr_admits ⟨q, hq, (ih q hq).1 htrue⟩
  | @not inner _ ih =>
    refine ⟨?_, fun q hq => Predicate.not.inj hq ▸ ih.1⟩
    intro h
    rw [Predicate.eval_not] at h
    obtain ⟨a, ha, hnot⟩ := Option.map_eq_some_iff.mp h
    obtain rfl : a = false := by simpa using hnot
    cases inner
    case alwaysTrue =>
      rw [Predicate.eval] at ha
      cases ha
    case not =>
      rw [Predicate.eval_not] at ha
      obtain ⟨c, hc, hnot'⟩ := Option.map_eq_some_iff.mp ha
      obtain rfl : c = true := by simpa using hnot'
      rw [FileIndexPredicate.evaluate]
      exact ih.2 _ rfl hc
    all_goals
      rw [FileIndexPredicate.evaluate] <;> first | exact trivial | (intros; contradiction)
  | alwaysTrue =>
    refine ⟨?_, fun _ hq => by cases hq⟩
    intro _
    rw [FileIndexPredicate.evaluate]
    exact trivial
  | alwaysFalse =>
    refine ⟨?_, fun _ hq => by cases hq⟩
    intro h
    rw [Predicate.eval] at h
    cases h

end

def matchesAt (rows : List FileRow) (j : Nat) (t : TypeRoot) (op : PredicateOperator)
    (literals : List Datum) (pos : Nat) : Bool :=
  match rows[pos]? with
  | none => false
  | some row => evaluateExactLeaf t (row.value j) op literals == some true

/-- an index of every column that answers exactly -/
def exactIndexes (rows : List FileRow) : FileIndexPredicate where
  columnReaders _ := some [fun _ j t op literals =>
    .selection ((Finset.range rows.length).filter fun pos => matchesAt rows j t.root op literals pos)]

theorem exactIndexes_sound (dataFields : List DataField) (rows : List FileRow) :
    ReadersSound dataFields rows (exactIndexes rows) := by
  intro j f _ readers hreaders reader hreader op literals pos row hpos h
  obtain rfl := Option.some.inj hreaders
  obtain rfl := mem_singleton.mp hreader
  refine Finset.mem_filter.mpr ⟨?_, ?_⟩
  · exact Finset.mem_range.mpr (List.getElem?_eq_some_iff.mp hpos).1
  · unfold matchesAt
    rw [hpos]
    exact beq_iff_eq.mpr h

def rowOf (values : List (Option Datum)) : FileRow where
  value j := (values.getD j none).map .scalar
  tracking _ := none

def integerCast : ArrowCast where
  cast _ target
    | .scalar d => (widenInteger d target).map .scalar
    | v => some v
  promotes _ target d w h := by
    show (widenInteger d target).map _ = _
    rw [h]
    rfl

/-- the file has the columns of the table in the other order, one under an older name and as an
INT, and lacks the last one -/
def evolvedTable : List DataField :=
  [⟨0, "id", ⟨.bigInt, true⟩⟩, ⟨1, "name", ⟨.varChar 10, true⟩⟩, ⟨2, "note", ⟨.varChar 10, true⟩⟩]

def evolvedFile : List DataField := [⟨1, "name", ⟨.varChar 10, true⟩⟩, ⟨0, "key", ⟨.int, true⟩⟩]

def evolvedRows : List FileRow :=
  [rowOf [some (.string ['a']), some (.int 3)], rowOf [none, some (.int 7)],
    rowOf [some (.string ['b']), some (.int 9)]]

/-- `id > 5 AND NOT (id = 9 OR name = 'a')`, `note IS NULL` -/
def evolvedPredicates : List Predicate :=
  [.and [.leaf "id" 0 ⟨.bigInt, true⟩ .gt [.long 5],
      .not (.or [.leaf "id" 0 ⟨.bigInt, true⟩ .eq [.long 9],
        .leaf "name" 1 ⟨.varChar 10, true⟩ .eq [.string ['a']]])],
    .leaf "note" 2 ⟨.varChar 10, true⟩ .isNull []]

theorem evolvedRows_typed : RowsTyped evolvedFile evolvedRows := by
  intro row hrow j f v hf hv
  obtain ⟨hj, rfl⟩ := List.getElem?_eq_some_iff.mp hf
  have hj' : j = 0 ∨ j = 1 := by
    have : j < 2 := hj
    omega
  have hrow' : row = rowOf [some (.string ['a']), some (.int 3)] ∨ row = rowOf [none, some (.int 7)] ∨
      row = rowOf [some (.string ['b']), some (.int 9)] := by
    simpa [evolvedRows] using hrow
  rcases hj' with rfl | rfl <;> rcases hrow' with rfl | rfl | rfl <;> cases hv <;> rfl

theorem evolvedPredicates_filled : ∀ p ∈ evolvedPredicates, p.NoEmptySetNegated := by
  intro p hp
  rcases mem_cons.mp hp with rfl | hp
  · refine .and ?_
    intro c hc
    rcases mem_cons.mp hc with rfl | hc
    · exact .leaf
    · obtain rfl := mem_singleton.mp hc
      refine .not (.or ?_)
      intro c hc
      rcases mem_cons.mp hc with rfl | hc
      · exact .leaf rfl
      · obtain rfl := mem_singleton.mp hc
        exact .leaf rfl
  · obtain rfl := mem_singleton.mp hp
    exact .leaf

def setTable : List DataField := [⟨0, "x", ⟨.int, true⟩⟩]

def setRows : List FileRow := [rowOf [none]]

def setPredicate : Predicate := .not (.leaf "x" 0 ⟨.int, true⟩ .isIn [])

end Paimon.FileIndex
