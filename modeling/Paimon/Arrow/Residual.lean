import Paimon.Spec.Predicate

/-!
# The residual row filter

`arrow/residual.rs` row by row: the predicate trees are evaluated against one decoded row, `none`
being an evaluation error.  NULL compares to false, NOT is two-valued, floats compare by IEEE
`totalOrder` as the Arrow kernels do, decimals by value, timestamps by epoch nanoseconds.

* `literalScalar`: a literal as a scalar of the column's type;
* `evaluateExactLeaf`: one leaf against one value;
* `FileColumns`: the file's column types and where each table column is found in the file;
* `mask`: a tree against one row; `some none` is "no mask", which keeps the row;
* `keeps`: the conjunction of a predicate list keeps the row.

The cast of a column to the predicate's type is Arrow's; `ArrowCast` says what is used of it.
-/

namespace Paimon

/-! ## literals as scalars -/

def integerLiteral : Datum → Option Int
  | .tinyInt v => some v
  | .smallInt v => some v
  | .int v => some v
  | .long v => some v
  | _ => none

def fitsSigned (bits : Nat) (v : Int) : Option Int :=
  if -2 ^ (bits - 1) ≤ v ∧ v < 2 ^ (bits - 1) then some v else none

def float32Literal : Datum → Option (BitVec 32)
  | .float v => some v
  | .double v => if Ieee.widen (Ieee.narrow v) = v then some (Ieee.narrow v) else none
  | _ => none

def float64Literal : Datum → Option (BitVec 64)
  | .float v => some (Ieee.widen v)
  | .double v => some v
  | _ => none

/-- timestamps and decimals are compared on paths of their own and never become scalars -/
def literalScalar : TypeRoot → Datum → Option Datum
  | .boolean, .bool v => some (.bool v)
  | .tinyInt, l => ((integerLiteral l).bind (fitsSigned 8)).map .tinyInt
  | .smallInt, l => ((integerLiteral l).bind (fitsSigned 16)).map .smallInt
  | .int, l => ((integerLiteral l).bind (fitsSigned 32)).map .int
  | .bigInt, l => ((integerLiteral l).bind (fitsSigned 64)).map .long
  | .float, l => (float32Literal l).map .float
  | .double, l => (float64Literal l).map .double
  | .char _, .string v => some (.string v)
  | .varChar _, .string v => some (.string v)
  | .binary _, .bytes v => some (.bytes v)
  | .varBinary _, .bytes v => some (.bytes v)
  | .blob, .bytes v => some (.bytes v)
  | .date, .date v => some (.date v)
  | .time _, .time v => some (.time v)
  | _, _ => none

/-! ## LIKE -/

inductive LikeToken where
  | char (c : Char)
  | anyChar
  | anyText
deriving DecidableEq, Repr

/-- a backslash takes the next character literally; a trailing one stands for itself -/
def likeTokens : Text → List LikeToken
  | [] => []
  | '\\' :: [] => [.char '\\']
  | '\\' :: c :: rest => .char c :: likeTokens rest
  | '%' :: rest => .anyText :: likeTokens rest
  | '_' :: rest => .anyChar :: likeTokens rest
  | c :: rest => .char c :: likeTokens rest

def matchTokens : List LikeToken → Text → Bool
  | [], s => s.isEmpty
  | .char c :: ts, s =>
    match s with
    | [] => false
    | x :: xs => x == c && matchTokens ts xs
  | .anyChar :: ts, s =>
    match s with
    | [] => false
    | _ :: xs => matchTokens ts xs
  | .anyText :: ts, s => s.tails.any fun rest => matchTokens ts rest

/-! ## one leaf against one value -/

inductive Value where
  | scalar (d : Datum)
  | array (elements : List (Option Datum))
  | other
deriving DecidableEq, Repr

def arrowCmp : Datum → Datum → Option Ordering
  | .bool a, .bool b => some (compare a b)
  | .tinyInt a, .tinyInt b => some (compare a b)
  | .smallInt a, .smallInt b => some (compare a b)
  | .int a, .int b => some (compare a b)
  | .long a, .long b => some (compare a b)
  | .float a, .float b => some (Ieee.totalCmp a b)
  | .double a, .double b => some (Ieee.totalCmp a b)
  | .string a, .string b => some (textCmp a b)
  | .bytes a, .bytes b => some (javaBytesCmp a b)
  | .date a, .date b => some (compare a b)
  | .time a, .time b => some (compare a b)
  | _, _ => none

def comparison : PredicateOperator → Ordering → Option Bool
  | .eq, o => some (o == .eq)
  | .notEq, o => some (o != .eq)
  | .lt, o => some (o == .lt)
  | .ltEq, o => some (o != .gt)
  | .gt, o => some (o == .gt)
  | .gtEq, o => some (o != .lt)
  | _, _ => none

def textMatch : PredicateOperator → Text → Text → Option Bool
  | .startsWith, s, p => some (p.isPrefixOf s)
  | .endsWith, s, p => some (p.isSuffixOf s)
  | .contains, s, p => some (s.tails.any p.isPrefixOf)
  | .like, s, p => some (matchTokens (likeTokens p) s)
  | _, _, _ => none

def evaluateColumnPredicate (op : PredicateOperator) : Value → Datum → Option Bool
  | .scalar (.string s), .string p =>
    match textMatch op s p with
    | some b => some b
    | none => comparison op (textCmp s p)
  | .scalar v, l => (arrowCmp v l).bind (comparison op)
  | _, _ => none

def betweenOf (op : PredicateOperator) (low high : Ordering) : Bool :=
  let within := low != .lt && high != .gt
  if op = .between then within else !within

def evaluateBetween (t : TypeRoot) (v : Option Value) (op : PredicateOperator)
    (literals : List Datum) : Option Bool :=
  match literals with
  | low :: high :: _ => do
    let low ← literalScalar t low
    let high ← literalScalar t high
    match v with
    | none => return false
    | some v =>
      let ge ← evaluateColumnPredicate .gtEq v low
      let le ← evaluateColumnPredicate .ltEq v high
      return if op = .between then ge && le else !(ge && le)
  | _ => none

def evaluateSetMembership (t : TypeRoot) (v : Option Value) (op : PredicateOperator)
    (literals : List Datum) : Option Bool := do
  let scalars ← literals.mapM (literalScalar t)
  match v with
  | none => return false
  | some v =>
    let equal ← scalars.mapM (evaluateColumnPredicate .eq v)
    return if op = .isIn then equal.any id else !equal.any id

def evaluateSingle (t : TypeRoot) (v : Option Value) (op : PredicateOperator)
    (literals : List Datum) : Option Bool := do
  let literal ← literals.head?
  let scalar ← literalScalar t literal
  match v with
  | none => return false
  | some v => evaluateColumnPredicate op v scalar

/-- epoch nanoseconds of a timestamp literal, `none` if it is not one for this column -/
def literalNanos (t : TypeRoot) (l : Datum) : Option Int :=
  match t, l with
  | .timestamp _, .timestamp millis nanos =>
    if 0 ≤ nanos ∧ nanos < 1000000 then some (millis * 1000000 + nanos) else none
  | .localZonedTimestamp _, .localZonedTimestamp millis nanos =>
    if 0 ≤ nanos ∧ nanos < 1000000 then some (millis * 1000000 + nanos) else none
  | _, _ => none

def valueNanos : TypeRoot → Value → Option Int
  | .timestamp _, .scalar (.timestamp millis nanos) => some (millis * 1000000 + nanos)
  | .localZonedTimestamp _, .scalar (.localZonedTimestamp millis nanos) =>
    some (millis * 1000000 + nanos)
  | _, _ => none

def evaluateTimestampLeaf (t : TypeRoot) (v : Option Value) (op : PredicateOperator)
    (literals : List Datum) : Option Bool := do
  let values ← literals.mapM (literalNanos t)
  match v with
  | none => return false
  | some v =>
    let value ← valueNanos t v
    match op with
    | .isIn => return values.contains value
    | .notIn => return !values.contains value
    | .between | .notBetween =>
      match values with
      | low :: high :: _ => return betweenOf op (compare value low) (compare value high)
      | _ => none
    | _ =>
      let literal ← values.head?
      comparison op (compare value literal)

/-- a decimal cell against a literal; `none` if the literal is not a decimal -/
def decimalCell (v : Value) (l : Datum) : Option Ordering :=
  match v, l with
  | .scalar (.decimal u _ s), .decimal ul _ sl => decimalCmp u s ul sl
  | _, _ => none

/-- the loop over an IN list stops at the first equal literal -/
def anyDecimalEq (v : Value) : List Datum → Option Bool
  | [] => some false
  | l :: ls =>
    match decimalCell v l with
    | none => none
    | some .eq => some true
    | some _ => anyDecimalEq v ls

def evaluateDecimalLeaf (v : Option Value) (op : PredicateOperator) (literals : List Datum) : Option Bool :=
  match v with
  | none => some false
  | some v =>
    match op with
    | .isIn => anyDecimalEq v literals
    | .notIn => (anyDecimalEq v literals).map (!·)
    | .between | .notBetween =>
      match literals with
      | low :: high :: _ => do
        let low ← decimalCell v low
        let high ← decimalCell v high
        return betweenOf op low high
      | _ => none
    | _ => do
      let literal ← literals.head?
      let ordering ← decimalCell v literal
      comparison op ordering

/-- equality of an array element with a literal; NaN elements equal NaN literals -/
def elementEquals (t : TypeRoot) (l : Datum) : Option Datum → Option Bool
  | none => some false
  | some e =>
    match t, e with
    | .float, .float v => (float32Literal l).map fun expected =>
        (Ieee.isNan Ieee.infinity32 v && Ieee.isNan Ieee.infinity32 expected) || v == expected
    | .double, .double v => (float64Literal l).map fun expected =>
        (Ieee.isNan Ieee.infinity64 v && Ieee.isNan Ieee.infinity64 expected) || v == expected
    | .decimal _ _, e => evaluateDecimalLeaf (some (.scalar e)) .eq [l]
    | .timestamp p, e => evaluateTimestampLeaf (.timestamp p) (some (.scalar e)) .eq [l]
    | .localZonedTimestamp p, e =>
      evaluateTimestampLeaf (.localZonedTimestamp p) (some (.scalar e)) .eq [l]
    | t, e => evaluateSingle t (some (.scalar e)) .eq [l]

def evaluateArrayMembership (t : TypeRoot) (v : Option Value) (op : PredicateOperator)
    (literals : List Datum) : Option Bool :=
  match t with
  | .array _ element =>
    if op = .arrayContains ∧ literals.length ≠ 1 then none
    else
      match v with
      | none => some false
      | some (.array es) => do
        let found ← literals.mapM fun l => (es.mapM (elementEquals element l)).map (·.any id)
        return if op = .arrayContainsAll then found.all id else found.any id
      | _ => none
  | _ => none

def isTimestampRoot : TypeRoot → Bool
  | .timestamp _ => true
  | .localZonedTimestamp _ => true
  | _ => false

def isDecimalRoot : TypeRoot → Bool
  | .decimal _ _ => true
  | _ => false

def evaluateExactLeaf (t : TypeRoot) (v : Option Value) (op : PredicateOperator)
    (literals : List Datum) : Option Bool :=
  match op with
  | .arrayContains | .arraysOverlap | .arrayContainsAll => evaluateArrayMembership t v op literals
  | .isNull => some v.isNone
  | .isNotNull => some v.isSome
  | _ =>
    if isTimestampRoot t then evaluateTimestampLeaf t v op literals
    else if isDecimalRoot t then evaluateDecimalLeaf v op literals
    else
      match op with
      | .isIn | .notIn => evaluateSetMembership t v op literals
      | .between | .notBetween => evaluateBetween t v op literals
      | _ => evaluateSingle t v op literals

/-! ## columns of the file -/

/-- the Arrow type of a column: lengths and precisions that share a representation are equal -/
def TypeRoot.arrow : TypeRoot → TypeRoot
  | .char _ => .varChar 0
  | .varChar _ => .varChar 0
  | .binary _ => .varBinary 0
  | .varBinary _ => .varBinary 0
  | .time _ => .time 0
  | .timestamp p => .timestamp ((p + 2) / 3 * 3)
  | .localZonedTimestamp p => .localZonedTimestamp ((p + 2) / 3 * 3)
  | .array nullable element => .array nullable element.arrow
  | t => t

def widenInteger : Datum → TypeRoot → Option Datum
  | .tinyInt v, .smallInt => some (.smallInt v)
  | .tinyInt v, .int => some (.int v)
  | .tinyInt v, .bigInt => some (.long v)
  | .smallInt v, .int => some (.int v)
  | .smallInt v, .bigInt => some (.long v)
  | .int v, .bigInt => some (.long v)
  | _, _ => none

/-- Arrow's cast of a decoded column; integer promotion keeps the value -/
structure ArrowCast where
  cast : TypeRoot → TypeRoot → Value → Option Value
  promotes : ∀ (source target : TypeRoot) (d w : Datum), widenInteger d target = some w →
    cast source target (.scalar d) = some (.scalar w)

/-- the columns of a file and where a table column is found among them; a table column without a
file column reads NULL -/
structure FileColumns where
  fileTypes : List DataType
  fieldMapping : List (Option Nat)
  inFile : ∀ j, some j ∈ fieldMapping → j < fileTypes.length

/-- one decoded row: the file columns, and the row-tracking columns the read supplies -/
structure FileRow where
  value : Nat → Option Value
  tracking : String → Option (Option Value)

/-- `field_mapping.get(index).copied().flatten()` -/
def FileColumns.fileIndex (columns : FileColumns) (index : Nat) : Option Nat :=
  columns.fieldMapping[index]?.join

/-! ## the mask of a tree -/

section
variable (arrow : ArrowCast) (columns : FileColumns) (row : FileRow)

/-- a column evaluates at its own type, or cast to the type of the predicate -/
def evaluateColumn (fileType dataType : TypeRoot) (v : Option Value) (op : PredicateOperator)
    (literals : List Datum) : Option Bool :=
  if fileType.arrow = dataType.arrow then evaluateExactLeaf fileType v op literals
  else
    match v with
    | none => evaluateExactLeaf dataType none op literals
    | some v => (arrow.cast fileType dataType v).bind fun v =>
        evaluateExactLeaf dataType (some v) op literals

def leafMask (column : String) (index : Nat) (dataType : DataType) (op : PredicateOperator)
    (literals : List Datum) : Option (Option Bool) :=
  if isRowTrackingColumn column then
    -- the read must supply the column
    (row.tracking column).bind fun v =>
      (evaluateExactLeaf dataType.root v op literals).map some
  else
    match columns.fileIndex index with
    | none => (evaluateExactLeaf dataType.root none op literals).map some
    | some j =>
      match columns.fileTypes[j]? with
      | none => some none
      | some fileType =>
        (evaluateColumn arrow fileType.root dataType.root (row.value j) op literals).map some

/-- a child without a mask leaves the conjunction as it is -/
def combineAnd : Option Bool → Option Bool → Option Bool
  | none, rest => rest
  | some a, none => some a
  | some a, some b => some (a && b)

mutual

def mask : Predicate → Option (Option Bool)
  | .alwaysTrue => some (some true)
  | .alwaysFalse => some (some false)
  | .and children => maskAnd children
  | .or children => maskOr children
  | .not inner => (mask inner).map (Option.map (!·))
  | .leaf column index dataType op literals =>
    leafMask arrow columns row column index dataType op literals

def maskAnd : List Predicate → Option (Option Bool)
  | [] => some none
  | child :: children => do
    let first ← mask child
    let rest ← maskAnd children
    return combineAnd first rest

/-- a child without a mask ends the disjunction without one -/
def maskOr : List Predicate → Option (Option Bool)
  | [] => some (some false)
  | child :: children => do
    match ← mask child with
    | none => return none
    | some a =>
      match ← maskOr children with
      | none => return none
      | some b => return some (a || b)

end

/-- rows without a mask are kept -/
def kept (m : Option Bool) : Bool := m.getD true

def keeps (predicates : List Predicate) : Option Bool :=
  (maskAnd arrow columns row predicates).map kept

end

end Paimon
