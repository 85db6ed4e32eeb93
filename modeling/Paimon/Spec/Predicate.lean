import Paimon.Spec.Datum

/-!
# Column types and predicate trees

`DataType`, `PredicateOperator` and `Predicate` of `spec/types.rs` and `spec/predicate.rs`.  A type
is its root with a nullable flag; only `equals_ignore_nullable` looks at the whole root, so the
constructed types that no modelled function looks into carry their description as text.

`Predicate.tree_induction` is the induction over a tree with the hypothesis for all children of a
connective.
-/

namespace Paimon

/-! ## column types -/

inductive TypeRoot where
  | boolean
  | tinyInt
  | smallInt
  | int
  | bigInt
  | decimal (precision scale : Nat)
  | double
  | float
  | binary (length : Nat)
  | varBinary (length : Nat)
  | variant
  | blob
  | char (length : Nat)
  | varChar (length : Nat)
  | date
  | localZonedTimestamp (precision : Nat)
  | time (precision : Nat)
  | timestamp (precision : Nat)
  | array (nullable : Bool) (element : TypeRoot)
  | map (description : String)
  | multiset (description : String)
  | row (description : String)
  | vector (description : String)
deriving DecidableEq, Repr

structure DataType where
  root : TypeRoot
  nullable : Bool := true
deriving DecidableEq, Repr

/-- only the outermost nullable flag is ignored -/
def DataType.equalsIgnoreNullable (a b : DataType) : Bool := a.root == b.root

def TypeRoot.isFloat : TypeRoot → Bool
  | .float => true
  | .double => true
  | _ => false

/-- the literals a comparison with a column of this type takes -/
def TypeRoot.literalKind : TypeRoot → Option DatumKind
  | .boolean => some .bool
  | .tinyInt => some .tinyInt
  | .smallInt => some .smallInt
  | .int => some .int
  | .bigInt => some .long
  | .decimal _ _ => some .decimal
  | .double => some .double
  | .float => some .float
  | .binary _ => some .bytes
  | .varBinary _ => some .bytes
  | .blob => some .bytes
  | .char _ => some .string
  | .varChar _ => some .string
  | .date => some .date
  | .localZonedTimestamp _ => some .localZonedTimestamp
  | .time _ => some .time
  | .timestamp _ => some .timestamp
  | _ => none

/-! ## predicates -/

inductive PredicateOperator where
  | isNull
  | isNotNull
  | eq
  | notEq
  | lt
  | ltEq
  | gt
  | gtEq
  | isIn
  | notIn
  | startsWith
  | endsWith
  | contains
  | arrayContains
  | arraysOverlap
  | arrayContainsAll
  | like
  | between
  | notBetween
deriving DecidableEq, Repr

inductive Predicate where
  | leaf (column : String) (index : Nat) (dataType : DataType) (op : PredicateOperator)
      (literals : List Datum)
  | and (children : List Predicate)
  | or (children : List Predicate)
  | not (inner : Predicate)
  | alwaysTrue
  | alwaysFalse

/-- **Induction over a predicate tree.** -/
@[elab_as_elim, induction_eliminator]
theorem Predicate.tree_induction {P : Predicate → Prop}
    (leaf : ∀ column index dataType op literals, P (.leaf column index dataType op literals))
    (and : ∀ children, (∀ c ∈ children, P c) → P (.and children))
    (or : ∀ children, (∀ c ∈ children, P c) → P (.or children))
    (not : ∀ inner, P inner → P (.not inner)) (alwaysTrue : P .alwaysTrue)
    (alwaysFalse : P .alwaysFalse) (p : Predicate) : P p := by
  refine @Predicate.rec P (fun cs => ∀ c ∈ cs, P c) leaf (fun cs h => and cs h)
    (fun cs h => or cs h) (fun p h => not p h) alwaysTrue alwaysFalse
    (List.forall_mem_nil _) (fun c cs hc hcs d hd => ?_) p
  rcases List.mem_cons.mp hd with rfl | hd
  · exact hc
  · exact hcs d hd

/-- metadata columns are resolved by name and have no column statistics -/
def isRowTrackingColumn (name : String) : Bool :=
  name == rowIdFieldName || name == sequenceNumberFieldName

end Paimon
