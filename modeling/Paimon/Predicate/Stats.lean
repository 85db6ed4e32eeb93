import Paimon.Arrow.Residual

/-!
# Pruning by statistics

`predicate_stats.rs`: whether a file may hold a row that satisfies a predicate, and whether every
row must, from row count, null count and bounds of each column.

* `dataLeafMayMatch`, `dataLeafMustMatch`: one leaf on a column of the file;
* `betweenMayMatch`: the two range operators;
* `nextStringForPrefix`: the least text above all texts with a given beginning;
* `predicateMayMatch`, `predicateMustMatch`: a tree; each calls the other under NOT.
-/

namespace Paimon

structure StatsAccessor where
  rowCount : Int
  nullCount : Nat → Option Int
  minValue : Nat → DataType → Option Datum
  maxValue : Nat → DataType → Option Datum
  supportsInMinMaxPruning : Bool := false

/-! ## outcomes of `partial_cmp` -/

def cmpLt (a b : Datum) : Bool := datumCmp a b == some .lt
def cmpGt (a b : Datum) : Bool := datumCmp a b == some .gt
def cmpLe (a b : Datum) : Bool := datumCmp a b == some .lt || datumCmp a b == some .eq
def cmpGe (a b : Datum) : Bool := datumCmp a b == some .gt || datumCmp a b == some .eq

/-! ## statistics of an evolved column -/

def statsEvolutionIsSafe (source target : DataType) : Bool :=
  source.equalsIgnoreNullable target ||
    match source.root, target.root with
    | .tinyInt, .smallInt => true
    | .tinyInt, .int => true
    | .tinyInt, .bigInt => true
    | .smallInt, .int => true
    | .smallInt, .bigInt => true
    | .int, .bigInt => true
    | _, _ => false

def coerceStatsDatumForPredicate (datum : Datum) (t : TypeRoot) : Option Datum :=
  match datum, t with
  | .bool _, .boolean => some datum
  | .tinyInt _, .tinyInt => some datum
  | .smallInt _, .smallInt => some datum
  | .int _, .int => some datum
  | .long _, .bigInt => some datum
  | .float _, .float => some datum
  | .double _, .double => some datum
  | .string _, .varChar _ => some datum
  | .string _, .char _ => some datum
  | .bytes _, .binary _ => some datum
  | .bytes _, .varBinary _ => some datum
  | .date _, .date => some datum
  | .time _, .time _ => some datum
  | .timestamp _ _, .timestamp _ => some datum
  | .localZonedTimestamp _ _, .localZonedTimestamp _ => some datum
  | .decimal _ _ _, .decimal _ _ => some datum
  | .float v, .double => some (.double (Ieee.widen v))
  | datum, t => widenInteger datum t

/-- FLOAT and DOUBLE bounds leave NaN out and do not tell the zeroes apart -/
def equalityExclusionIsSound (bound : Datum) : Bool := !bound.kind.isFloat

/-! ## beginnings of texts -/

/-- the characters before the first unescaped wildcard -/
def likePatternLiteralPrefix : Text → Text
  | [] => []
  | '%' :: _ => []
  | '_' :: _ => []
  | '\\' :: [] => ['\\']
  | '\\' :: c :: rest => c :: likePatternLiteralPrefix rest
  | c :: rest => c :: likePatternLiteralPrefix rest

def charFromU32 (code : Nat) : Option Char :=
  if code.isValidChar then some (Char.ofNat code) else none

/-- increment the last code point, stepping over the surrogates -/
def nextStringForPrefix (pat : Text) : Option Text :=
  match pat.getLast? with
  | none => none
  | some last =>
    let next := last.toNat + 1
    let next := if 0xD800 ≤ next ∧ next ≤ 0xDFFF then 0xE000 else next
    (charFromU32 next).map fun c => pat.dropLast ++ [c]

/-- the texts between the bounds reach into `[pat, next)` -/
def beginningMayMatch (pat low high : Text) : Bool :=
  if textCmp high pat == .lt then false
  else
    match nextStringForPrefix pat with
    | some next => textCmp low next == .lt
    | none => true

/-! ## one leaf -/

section
variable (index : Nat) (statsType dataType : DataType) (op : PredicateOperator)
  (literals : List Datum) (stats : StatsAccessor)

def lowerBound : Option Datum :=
  (stats.minValue index statsType).bind fun d => coerceStatsDatumForPredicate d dataType.root

def upperBound : Option Datum :=
  (stats.maxValue index statsType).bind fun d => coerceStatsDatumForPredicate d dataType.root

def allNull : Option Bool := (stats.nullCount index).map (· == stats.rowCount)

def betweenMayMatch : Bool :=
  if allNull index stats == some true then false
  else
    match literals with
    | low :: high :: _ =>
      match lowerBound index statsType dataType stats, upperBound index statsType dataType stats with
      | some min, some max =>
        if op = .between then !cmpLt max low && !cmpGt min high
        else !(!cmpLt min low && !cmpGt max high)
      | _, _ => true
    | _ => true

def withinBounds (min max literal : Datum) : Bool := !cmpLt literal min && !cmpGt literal max

/-- the operators that look at the first literal and both bounds -/
def boundsMayMatch (literal min max : Datum) : Bool :=
  match op with
  | .isIn => if !cmpLe min max then true else literals.any (withinBounds min max)
  | .eq => withinBounds min max literal
  | .notEq => !(equalityExclusionIsSound min && datumEq min literal && datumEq max literal)
  | .notIn =>
    !(equalityExclusionIsSound min && literals.any fun l => datumEq min l && datumEq max l)
  | .lt => !cmpGe min literal
  | .ltEq => !cmpGt min literal
  | .gt => !cmpLe max literal
  | .gtEq => !cmpLt max literal
  | .startsWith =>
    match literal, min, max with
    | .string pat, .string low, .string high => beginningMayMatch pat low high
    | _, _, _ => true
  | .like =>
    match literal, min, max with
    | .string pattern, .string low, .string high =>
      let pat := likePatternLiteralPrefix pattern
      if pat.isEmpty then true else beginningMayMatch pat low high
    | _, _, _ => true
  | _ => true

def literalMayMatch : Bool :=
  if allNull index stats == some true then false
  else
    match literals.head?, lowerBound index statsType dataType stats,
      upperBound index statsType dataType stats with
    | some literal, some min, some max => boundsMayMatch op literals literal min max
    | _, _, _ => true

def dataLeafMayMatch : Bool :=
  if stats.rowCount ≤ 0 then false
  else if !statsEvolutionIsSafe statsType dataType then true
  else
    match op with
    | .isNull => (stats.nullCount index).all (0 < ·)
    | .isNotNull | .arrayContains | .arrayContainsAll => allNull index stats != some true
    | .arraysOverlap => !literals.isEmpty && allNull index stats != some true
    -- the order of texts says nothing about their ends
    | .endsWith | .contains => true
    | .between | .notBetween => betweenMayMatch index statsType dataType op literals stats
    | .isIn =>
      if stats.supportsInMinMaxPruning then
        literalMayMatch index statsType dataType op literals stats
      else true
    | _ => literalMayMatch index statsType dataType op literals stats

/-- what both bounds say about every value between them -/
def boundsMustMatch (min max : Datum) : Bool :=
  match op with
  | .eq => equalityExclusionIsSound min &&
      literals.head?.any fun l => datumEq min l && datumEq max l
  | .notEq => literals.head?.any fun l => cmpLt l min || cmpGt l max
  | .lt => literals.head?.any fun l => cmpLt max l
  | .ltEq => literals.head?.any fun l => cmpLe max l
  | .gt => literals.head?.any fun l => cmpGt min l
  | .gtEq => literals.head?.any fun l => cmpGe min l
  | .isIn => equalityExclusionIsSound min && datumEq min max && literals.any (datumEq · min)
  | .between =>
    match literals with
    | low :: high :: _ => !cmpLt min low && !cmpGt max high
    | _ => false
  | .notBetween =>
    match literals with
    | low :: high :: _ => cmpLt max low || cmpGt min high
    | _ => false
  | _ => false

def dataLeafMustMatch : Bool :=
  if stats.rowCount ≤ 0 then false
  else if !statsEvolutionIsSafe statsType dataType then false
  else
    match op with
    | .isNull => stats.nullCount index == some stats.rowCount
    | .isNotNull => stats.nullCount index == some 0
    | _ =>
      if stats.nullCount index != some 0 then false
      else
        match lowerBound index statsType dataType stats,
          upperBound index statsType dataType stats with
        | some min, some max => cmpLe min max && boundsMustMatch op literals min max
        | _, _ => false

def missingFieldMayMatch : Bool := if stats.rowCount ≤ 0 then false else op == .isNull

def missingFieldMustMatch : Bool := 0 < stats.rowCount && op == .isNull

end

/-! ## trees -/

section
variable (stats : StatsAccessor) (columns : FileColumns)

def leafMayMatch (column : String) (index : Nat) (dataType : DataType) (op : PredicateOperator)
    (literals : List Datum) : Bool :=
  if isRowTrackingColumn column then true
  else
    match columns.fileIndex index with
    | none => missingFieldMayMatch op stats
    | some j =>
      match columns.fileTypes[j]? with
      | none => true
      | some fileType => dataLeafMayMatch j fileType dataType op literals stats

def leafMustMatch (column : String) (index : Nat) (dataType : DataType) (op : PredicateOperator)
    (literals : List Datum) : Bool :=
  if isRowTrackingColumn column then false
  else
    match columns.fileIndex index with
    | none => missingFieldMustMatch op stats
    | some j =>
      match columns.fileTypes[j]? with
      | none => false
      | some fileType => dataLeafMustMatch j fileType dataType op literals stats

mutual

def predicateMayMatch : Predicate → Bool
  | .alwaysTrue => true
  | .alwaysFalse => false
  | .and children => allMayMatch children
  | .or children => anyMayMatch children
  | .not inner => !predicateMustMatch inner
  | .leaf column index dataType op literals =>
    leafMayMatch stats columns column index dataType op literals

def predicateMustMatch : Predicate → Bool
  | .alwaysTrue => 0 < stats.rowCount
  | .alwaysFalse => false
  | .and children => allMustMatch children
  | .or children => anyMustMatch children
  | .not inner => !predicateMayMatch inner
  | .leaf column index dataType op literals =>
    leafMustMatch stats columns column index dataType op literals

def allMayMatch : List Predicate → Bool
  | [] => true
  | child :: children => predicateMayMatch child && allMayMatch children

def anyMayMatch : List Predicate → Bool
  | [] => false
  | child :: children => predicateMayMatch child || anyMayMatch children

def allMustMatch : List Predicate → Bool
  | [] => true
  | child :: children => predicateMustMatch child && allMustMatch children

def anyMustMatch : List Predicate → Bool
  | [] => false
  | child :: children => predicateMustMatch child || anyMustMatch children

end

def predicatesMayMatch (predicates : List Predicate) : Bool :=
  predicates.all (predicateMayMatch stats columns)

end

end Paimon
