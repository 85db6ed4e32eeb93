import Paimon.BTree.CompositeKey
import Paimon.Predicate.Row
import Paimon.Predicate.Trees

/-!
# Plans over an index on several columns

`btree/composite_predicate.rs`: the conjuncts of a predicate become intervals of keys.  Leading
columns with a point conjunct (EQ, IN, IS NULL) are enumerated, the first column without one is cut
by its range conjuncts, and an interval stands between two bounds, each a beginning of a tuple with a
mark before or after it.

* `CompositeBound.compareKey`, `.compare`: a key against a bound, two bounds;
* `asLeaf`: the conjuncts a plan can use;
* `matchesLeaf`: a conjunct on a component;
* `plan`, `mayMatch`: the intervals, and whether a range of keys meets one.

Of a conjunct only the places of its literals matter (`evalLeaf_iff`), and `matchesLeaf` decides it
(`matchesLeaf_eq`).
-/

namespace Paimon.BTree

open List

/-! ## bounds -/

structure CompositeBound where
  values : List Component
  after : Bool
deriving DecidableEq, Repr

namespace CompositeKeyCodec

variable (codec : CompositeKeyCodec)

/-- the key from component `i` on against the values that are left -/
def compareKeyFrom : List Component → Nat → Cursor → Result (Ordering × Cursor)
  | [], _, c => .ok (.eq, c)
  | value :: values, i, c => do
    let (component, c) ← codec.nextComponent c
    let order ← codec.compareComponent i component value
    if order ≠ .eq then return (order, c) else compareKeyFrom values (i + 1) c

/-- two bounds from component `i` on; where one ends its mark decides -/
def compareValues : Nat → List Component → Bool → List Component → Bool → Result Ordering
  | _, [], after, [], after' => .ok (compare after after')
  | _, [], after, _ :: _, _ => .ok (if after then .gt else .lt)
  | _, _ :: _, _, [], after' => .ok (if after' then .lt else .gt)
  | i, value :: values, after, value' :: values', after' => do
    let order ← codec.compareComponent i value value'
    if order ≠ .eq then return order else compareValues (i + 1) values after values' after'

def serializeAt (i : Nat) (value : Datum) : Result Bytes :=
  match codec.types[i]? with
  | none => .error outOfBounds
  | some t => .ok (serializeComponent t value)

end CompositeKeyCodec

namespace CompositeBound

def compareKey (b : CompositeBound) (key : Bytes) (codec : CompositeKeyCodec) : Result Ordering := do
  let c ← codec.cursor key
  let (order, c) ← codec.compareKeyFrom b.values 0 c
  codec.finish c
  if order ≠ .eq then return order else return if b.after then .lt else .gt

def compare (b b' : CompositeBound) (codec : CompositeKeyCodec) : Result Ordering :=
  codec.compareValues 0 b.values b.after b'.values b'.after

end CompositeBound

structure CompositeInterval where
  lower : CompositeBound
  upper : CompositeBound
  pointKey : Option Bytes
deriving DecidableEq, Repr

/-! ## conjuncts -/

structure Leaf where
  column : String
  index : Nat
  dataType : DataType
  op : PredicateOperator
  literals : List Datum

/-- conjuncts that leave single values -/
def point (op : PredicateOperator) : Bool := op == .eq || op == .isIn || op == .isNull

def supported (op : PredicateOperator) : Bool :=
  point op || op == .gt || op == .gtEq || op == .lt || op == .ltEq || op == .between ||
    op == .isNotNull

def literalCountOk (op : PredicateOperator) (count : Nat) : Bool :=
  match op with
  | .eq | .gt | .gtEq | .lt | .ltEq => count == 1
  | .between => count == 2
  | _ => true

mutual

/-- a supported leaf, or an OR of EQ and IN on one column as one IN -/
def asLeaf : Predicate → Option Leaf
  | .leaf column index dataType op literals =>
    if supported op && literalCountOk op literals.length &&
        literals.all fun literal => datumMatchesType literal dataType.root then
      some ⟨column, index, dataType, op, literals⟩
    else none
  | .or children => asLeafOr children none []
  | _ => none

/-- `first` is the leaf of the first child, `values` are the literals so far -/
def asLeafOr : List Predicate → Option Leaf → List Datum → Option Leaf
  | [], first, values => first.map fun leaf => { leaf with op := .isIn, literals := values }
  | child :: children, first, values => do
    let leaf ← asLeaf child
    if leaf.op ≠ .eq ∧ leaf.op ≠ .isIn then none
    else if first.any fun f => f.column != leaf.column || f.dataType != leaf.dataType then none
    else asLeafOr children (some (first.getD leaf)) (values ++ leaf.literals)

end

/-- any of the literals is the component; all of them are compared -/
def anyEqual (t : TypeRoot) (value : Component) : List Datum → Result Bool
  | [] => .ok false
  | literal :: literals => do
    let order ← compareComponents t value (some (serializeComponent t literal))
    let rest ← anyEqual t value literals
    return order == .eq || rest

def matchesLeaf (t : TypeRoot) (value : Component) (leaf : Leaf) : Result Bool :=
  let cmp (literal : Datum) := compareComponents t value (some (serializeComponent t literal))
  if leaf.op = .isNull then .ok value.isNone
  else if value.isNone then .ok false
  else if leaf.op = .isNotNull then .ok true
  else
    match leaf.op, leaf.literals with
    | .eq, l :: _ => (cmp l).map (· == .eq)
    | .isIn, literals => anyEqual t value literals
    | .gt, l :: _ => (cmp l).map (· == .gt)
    | .gtEq, l :: _ => (cmp l).map (· != .lt)
    | .lt, l :: _ => (cmp l).map (· == .lt)
    | .ltEq, l :: _ => (cmp l).map (· != .gt)
    | .between, low :: high :: _ => do
      let order ← cmp low
      if order ≠ .lt then (cmp high).map (· != .gt) else return false
    | _, _ => .error outOfBounds

/-! ## the plan -/

structure DataField where
  name : String
  dataType : DataType
deriving DecidableEq, Repr

def codecOf (fields : List DataField) : CompositeKeyCodec := ⟨fields.map fun f => f.dataType.root⟩

def maxIntervals : Nat := 256

def columnLeaves (field : DataField) (leaves : List Leaf) : List Leaf :=
  leaves.filter fun leaf => leaf.column == field.name &&
    leaf.dataType.equalsIgnoreNullable field.dataType && supported leaf.op

def normalizeLeaf (t : TypeRoot) (leaf : Leaf) : Option Leaf :=
  (leaf.literals.mapM fun literal => normalizeKeyLiteral literal t).map fun literals =>
    { leaf with literals := literals }

def pointSize (leaf : Leaf) : Nat := if leaf.op = .isNull then 0 else leaf.literals.length

def candidates (field : DataField) (leaf : Leaf) : List (Option Datum) :=
  if leaf.op = .isNull then if field.dataType.nullable then [none] else []
  else leaf.literals.map some

def matchesAll (t : TypeRoot) (value : Component) : List Leaf → Result Bool
  | [] => .ok true
  | leaf :: leaves => do
    if ← matchesLeaf t value leaf then matchesAll t value leaves else return false

def isDuplicate (t : TypeRoot) (value : Component) : List (Option Datum) → Result Bool
  | [] => .ok false
  | v :: domain => do
    let order ← compareComponents t value (v.map (serializeComponent t))
    if order = .eq then return true else isDuplicate t value domain

/-- the values a column can have; more than `maxIntervals` are not collected -/
def domainFrom (t : TypeRoot) (column : List Leaf) :
    List (Option Datum) → List (Option Datum) → Result (List (Option Datum))
  | [], domain => .ok domain
  | candidate :: rest, domain => do
    let encoded := candidate.map (serializeComponent t)
    if ← matchesAll t encoded column then
      let domain := if ← isDuplicate t encoded domain then domain else domain ++ [candidate]
      if maxIntervals < domain.length then return domain else domainFrom t column rest domain
    else domainFrom t column rest domain

def expand (prefixes : List (List (Option Datum))) (domain : List (Option Datum)) :
    List (List (Option Datum)) :=
  prefixes.flatMap fun p => domain.map fun v => p ++ [v]

inductive Scanned where
  | declined
  | nothing (equalColumns : Nat)
  | found (prefixes : List (List (Option Datum))) (equalColumns : Nat) (range : List Leaf)

/-- the loop over the fields; `i` of them are enumerated -/
def scanFields (leaves : List Leaf) : Nat → List (List (Option Datum)) → List DataField → Result Scanned
  | i, prefixes, [] => .ok (.found prefixes i [])
  | i, prefixes, field :: fields =>
    match (columnLeaves field leaves).mapM (normalizeLeaf field.dataType.root) with
    | none => .ok .declined
    | some column =>
      match (column.filter fun leaf => point leaf.op).argmin pointSize with
      | none => .ok (.found prefixes i column)
      | some selected => do
        let domain ← domainFrom field.dataType.root column (candidates field selected) []
        if domain.isEmpty then return .nothing (i + 1)
        else if maxIntervals < prefixes.length * domain.length then return .declined
        else scanFields leaves (i + 1) (expand prefixes domain) fields

structure RangeBound where
  value : Datum
  after : Bool
  isLower : Bool

def rangeBounds (leaf : Leaf) : Result (List RangeBound) :=
  match leaf.op, leaf.literals with
  | .isNotNull, _ => .ok []
  | .gt, l :: _ => .ok [⟨l, true, true⟩]
  | .gtEq, l :: _ => .ok [⟨l, false, true⟩]
  | .lt, l :: _ => .ok [⟨l, false, false⟩]
  | .ltEq, l :: _ => .ok [⟨l, true, false⟩]
  | .between, low :: high :: _ => .ok [⟨low, false, true⟩, ⟨high, true, false⟩]
  | _, _ => .error outOfBounds

section
variable (codec : CompositeKeyCodec)

def tighten (values : List Component) (i : Nat) (ends : CompositeBound × CompositeBound)
    (b : RangeBound) : Result (CompositeBound × CompositeBound) := do
  let component ← codec.serializeAt i b.value
  let next : CompositeBound := ⟨values ++ [some component], b.after⟩
  if b.isLower then
    let order ← next.compare ends.1 codec
    return if order = .gt then (next, ends.2) else ends
  else
    let order ← next.compare ends.2 codec
    return if order = .lt then (ends.1, next) else ends

def intervalEnds (equalColumns : Nat) (range : List Leaf) (values : List Component) :
    Result (CompositeBound × CompositeBound) :=
  if range.isEmpty then .ok (⟨values, false⟩, ⟨values, true⟩)
  else do
    let bounds ← range.mapM rangeBounds
    bounds.flatten.foldlM (tighten codec values equalColumns)
      (⟨values ++ [none], true⟩, ⟨values, true⟩)

def components (values : List (Option Datum)) : List Component :=
  List.zipWith (fun t v => v.map (serializeComponent t)) codec.types values

/-- `none` where the ends leave nothing -/
def intervalOf (equalColumns : Nat) (range : List Leaf) (values : List (Option Datum)) :
    Result (Option CompositeInterval) := do
  let ends ← intervalEnds codec equalColumns range (components codec values)
  let order ← ends.1.compare ends.2 codec
  if order = .lt then
    if equalColumns = codec.types.length then
      let key ← codec.serialize values
      return some ⟨ends.1, ends.2, some key⟩
    else return some ⟨ends.1, ends.2, none⟩
  else return none

end

structure CompositePlan where
  fields : List DataField
  intervals : List CompositeInterval
  boundColumns : Nat
  equalColumns : Nat
deriving DecidableEq, Repr

def CompositePlan.plan (fields : List DataField) (predicate : Predicate) : Result (Option CompositePlan) := do
  let leaves := (Predicate.splitAnd predicate).filterMap asLeaf
  match ← scanFields leaves 0 [[]] fields with
  | .declined => return none
  | .nothing equalColumns => return some ⟨fields, [], equalColumns, equalColumns⟩
  | .found prefixes equalColumns range =>
    let boundColumns := equalColumns + if range.isEmpty then 0 else 1
    if boundColumns = 0 then return none
    else
      let intervals ← prefixes.mapM (intervalOf (codecOf fields) equalColumns range)
      return some ⟨fields, intervals.reduceOption, boundColumns, equalColumns⟩

def anyMeets (codec : CompositeKeyCodec) (first last : Bytes) : List CompositeInterval → Result Bool
  | [] => .ok false
  | interval :: intervals => do
    let low ← interval.lower.compareKey last codec
    if low = .gt then
      let high ← interval.upper.compareKey first codec
      if high = .lt then return true else anyMeets codec first last intervals
    else anyMeets codec first last intervals

def CompositePlan.mayMatch (p : CompositePlan) (first last : Option Bytes) : Result Bool :=
  if p.intervals.isEmpty then .ok false
  else
    match first, last with
    | some first, some last => anyMeets (codecOf p.fields) first last p.intervals
    | _, _ => .ok true

/-! ## bounds stand at places -/

variable {v : Option Datum}

section
variable {types : List TypeRoot}

/-- values of the columns from number `i` on -/
def PrefixOk (types : List TypeRoot) (i : Nat) (values : List (Option Datum)) : Prop :=
  ∀ (k : Nat) (v : Option Datum), values[k]? = some v →
    ∃ t, types[i + k]? = some t ∧ ComponentOk t v

variable {values : List (Option Datum)} {i : Nat}

theorem PrefixOk.head (h : PrefixOk types i (v :: values)) :
    (∃ t, types[i]? = some t ∧ ComponentOk t v) ∧ PrefixOk types (i + 1) values := by
  refine ⟨h 0 v rfl, fun k w hk => ?_⟩
  obtain ⟨t, ht, hw⟩ := h (k + 1) w hk
  exact ⟨t, by rw [← ht]; congr 1; omega, hw⟩

theorem PrefixOk.length_le (h : PrefixOk types 0 values) : values.length ≤ types.length := by
  rcases Nat.eq_zero_or_pos values.length with h0 | hpos
  · omega
  · have hlast : values.length - 1 < values.length := by omega
    obtain ⟨t, ht, -⟩ := h _ _ (getElem?_eq_getElem hlast)
    have := (List.getElem?_eq_some_iff.mp ht).1
    omega

variable {t : TypeRoot}

theorem PrefixOk.append {p : List (Option Datum)}
    (h : PrefixOk types 0 p) (ht : types[p.length]? = some t) (hv : ComponentOk t v) :
    PrefixOk types 0 (p ++ [v]) := by
  intro k w hk
  rcases Nat.lt_or_ge k p.length with hlt | hge
  · rw [getElem?_append_left hlt] at hk
    exact h k w hk
  · rw [getElem?_append_right hge] at hk
    obtain ⟨hzero, rfl⟩ : k - p.length = 0 ∧ v = w := by
      rw [getElem?_singleton] at hk
      split at hk
      · next h0 => exact ⟨h0, Option.some.inj hk⟩
      · cases hk
    obtain rfl : k = p.length := by omega
    exact ⟨t, by rw [Nat.zero_add]; exact ht, hv⟩

def boundOf (types : List TypeRoot) (values : List (Option Datum)) (after : Bool) : CompositeBound :=
  ⟨components ⟨types⟩ values, after⟩

def boundPlace (values : List (Option Datum)) (after : Bool) : TupleBounds.Place ComponentPlace :=
  (TupleBounds.Bound.mk (places values) after).place

def keyPlace (values : List (Option Datum)) : TupleBounds.Place ComponentPlace :=
  TupleBounds.ofTuple (places values)

theorem components_append (p : List (Option Datum)) (ht : types[p.length]? = some t) :
    components ⟨types⟩ (p ++ [v]) = components ⟨types⟩ p ++ [v.map (serializeComponent t)] := by
  induction p generalizing types with
  | nil =>
    cases types with
    | nil => cases ht
    | cons t' types =>
      obtain rfl := Option.some.inj ht
      unfold components
      dsimp only
      rw [nil_append, zipWith_cons_cons, zipWith_nil_right, zipWith_nil_right, nil_append]
  | cons w p ih =>
    cases types with
    | nil => cases ht
    | cons t' types => exact congrArg (List.cons (w.map (serializeComponent t'))) (ih ht)

theorem ite_then {α : Type} (o o' : Ordering) (f : Ordering → α) :
    (if o ≠ .eq then f o else f o') = f (o.then o') := by
  split
  · next h => rw [then_of_ne h]
  · next h =>
    rw [not_not.mp h]
    rfl

variable {values values' : List (Option Datum)}

theorem compareValues_eq (htypes : IndexTypes types)
    (h : PrefixOk types i values) (h' : PrefixOk types i values') (after after' : Bool) :
    CompositeKeyCodec.compareValues ⟨types⟩ i (components ⟨types.drop i⟩ values) after
      (components ⟨types.drop i⟩ values') after'
      = .ok (compare (boundPlace values after) (boundPlace values' after')) := by
  induction values generalizing i values' with
  | nil =>
    cases values' with
    | nil =>
      unfold components
      rw [zipWith_nil_right, CompositeKeyCodec.compareValues]
      exact congrArg Except.ok (TupleBounds.bounds_nil_nil after after').symm
    | cons w values' =>
      obtain ⟨⟨t, ht, -⟩, -⟩ := h'.head
      unfold components
      rw [zipWith_nil_right, drop_eq_getElem?_toList_append, ht]
      exact congrArg Except.ok (TupleBounds.bounds_nil_cons (componentPlace w) (places values') after
        after').symm
  | cons v values ih =>
    obtain ⟨⟨t, ht, hv⟩, hrest⟩ := h.head
    have hdrop : types.drop i = t :: types.drop (i + 1) := by
      rw [drop_eq_getElem?_toList_append, ht]
      rfl
    cases values' with
    | nil =>
      unfold components
      rw [zipWith_nil_right, hdrop]
      exact congrArg Except.ok (TupleBounds.bounds_cons_nil (componentPlace v) (places values) after
        after').symm
    | cons w values' =>
      obtain ⟨⟨t', ht', hw⟩, hrest'⟩ := h'.head
      obtain rfl : t = t' := Option.some.inj (ht.symm.trans ht')
      have hnext := ih hrest hrest'
      unfold components at hnext ⊢
      rw [hdrop, zipWith_cons_cons, zipWith_cons_cons, CompositeKeyCodec.compareValues,
        compareComponent_eq htypes ht hv hw]
      show (if _ ≠ Ordering.eq then Except.ok _ else _) = _
      rw [hnext, ite_then _ _ (Except.ok : Ordering → Result Ordering)]
      exact congrArg Except.ok (TupleBounds.bounds_cons (componentPlace v) (componentPlace w)
        (places values) (places values') after after').symm

/-- **Two bounds compare as their places do.** -/
theorem compare_boundOf (htypes : IndexTypes types)
    (h : PrefixOk types 0 values) (h' : PrefixOk types 0 values') (after after' : Bool) :
    (boundOf types values after).compare (boundOf types values' after') ⟨types⟩
      = .ok (compare (boundPlace values after) (boundPlace values' after')) :=
  compareValues_eq htypes h h' after after'

theorem compareKeyFrom_step {value component : Component} {values : List Component}
    {c c' : Cursor} {order : Ordering}
    (hnext : CompositeKeyCodec.nextComponent ⟨types⟩ c = .ok (component, c'))
    (horder : CompositeKeyCodec.compareComponent ⟨types⟩ i component value = .ok order) :
    CompositeKeyCodec.compareKeyFrom ⟨types⟩ (value :: values) i c = if order ≠ .eq then .ok (order, c')
        else CompositeKeyCodec.compareKeyFrom ⟨types⟩ values (i + 1) c' := by
  rw [CompositeKeyCodec.compareKeyFrom]
  simp only [hnext, horder, bind, Except.bind]
  rfl

variable {tuple : List (Option Datum)} {key : Bytes}

theorem compareKeyFrom_eq (htypes : IndexTypes types)
    (hkey : IsKey types tuple key)
    (h : PrefixOk types i values) (after : Bool) {c : Cursor} (hc : Reads types tuple key c i)
    (hi : i ≤ types.length) :
    ∃ order c' j, j ≤ types.length ∧ Reads types tuple key c' j ∧
      CompositeKeyCodec.compareKeyFrom ⟨types⟩ (components ⟨types.drop i⟩ values) i c = .ok (order, c') ∧
      order.then (if after then .lt else .gt)
        = compare (keyPlace (tuple.drop i)) (boundPlace values after) := by
  induction values generalizing i c with
  | nil =>
    refine ⟨.eq, c, i, hi, hc, ?_, (TupleBounds.tuple_bound_nil _ after).symm⟩
    unfold components
    rw [zipWith_nil_right, CompositeKeyCodec.compareKeyFrom]
  | cons w values ih =>
    obtain ⟨⟨t, ht, hw⟩, hrest⟩ := h.head
    have hlt : i < types.length := (List.getElem?_eq_some_iff.mp ht).1
    obtain ⟨t', v, ht', hv, hzip⟩ := zip_getElem? hkey.tuple hlt
    obtain rfl : t = t' := Option.some.inj (ht.symm.trans ht')
    obtain ⟨c', hnext, hc'⟩ := hc.next hkey htypes hzip
    have horder := compareComponent_eq htypes ht (hkey.tuple.component hzip) hw
    have hdrop : types.drop i = t :: types.drop (i + 1) := by
      rw [drop_eq_getElem?_toList_append, ht]
      rfl
    have hplace : compare (keyPlace (tuple.drop i)) (boundPlace (w :: values) after)
        = (compare (componentPlace v) (componentPlace w)).then
            (compare (keyPlace (tuple.drop (i + 1))) (boundPlace values after)) := by
      unfold keyPlace
      rw [places_drop hv]
      exact TupleBounds.tuple_bound_cons _ _ _ _ after
    have hstep : CompositeKeyCodec.compareKeyFrom ⟨types⟩
        (w.map (serializeComponent t) :: components ⟨types.drop (i + 1)⟩ values) i c = _ :=
      compareKeyFrom_step hnext horder
    have hcomponents : components ⟨types.drop i⟩ (w :: values)
        = w.map (serializeComponent t) :: components ⟨types.drop (i + 1)⟩ values := by
      unfold components
      rw [hdrop]
      rfl
    rw [hplace, hcomponents, hstep]
    by_cases heq : compare (componentPlace v) (componentPlace w) = .eq
    · obtain ⟨order, c'', j, hj, hread, hfrom, hthen⟩ := ih hrest hc' hlt
      refine ⟨order, c'', j, hj, hread, ?_, ?_⟩
      · rw [if_neg (not_not.mpr heq)]
        exact hfrom
      · rw [heq]
        exact hthen
    · refine ⟨_, c', i + 1, hlt, hc', if_pos heq, ?_⟩
      rw [then_of_ne heq, then_of_ne heq]

/-- **A key compares with a bound as their places do.** -/
theorem compareKey_boundOf (htypes : IndexTypes types)
    (hkey : IsKey types tuple key) (h : PrefixOk types 0 values)
    (after : Bool) :
    (boundOf types values after).compareKey key ⟨types⟩
      = .ok (compare (keyPlace tuple) (boundPlace values after)) := by
  obtain ⟨c, hcursor, hc⟩ := hkey.cursor
  obtain ⟨order, c', j, hj, hread, hfrom, hthen⟩ :=
    compareKeyFrom_eq htypes hkey h after hc (Nat.zero_le _)
  have hfinish := hread.finish hkey htypes hj
  have hvalues : (boundOf types values after).values = components ⟨types.drop 0⟩ values := rfl
  unfold CompositeBound.compareKey
  simp only [hcursor, bind, Except.bind, hvalues, hfrom, hfinish]
  show (if order ≠ .eq then (.ok order : Result Ordering) else .ok (if after then .lt else .gt)) = _
  rw [ite_then _ _ (Except.ok : Ordering → Result Ordering), hthen]
  rfl

end

/-! ## what a conjunct says about a place -/

/-- the supported operators on the place of a component and the places of the literals -/
def opHolds (op : PredicateOperator) (c : ComponentPlace) (literals : List ComponentPlace) : Prop :=
  match op, literals with
  | .isNull, _ => c = ⊥
  | .isNotNull, _ => c ≠ ⊥
  | .eq, l :: _ => c = l
  | .isIn, literals => c ∈ literals
  | .gt, l :: _ => l < c
  | .gtEq, l :: _ => l ≤ c
  | .lt, l :: _ => c ≠ ⊥ ∧ c < l
  | .ltEq, l :: _ => c ≠ ⊥ ∧ c ≤ l
  | .between, low :: high :: _ => low ≤ c ∧ c ≤ high
  | _, _ => False

/-- the place of a literal, never that of NULL -/
def literalPlace (l : Datum) : ComponentPlace := componentPlace (some l)

theorem bot_lt_literalPlace (l : Datum) : ⊥ < literalPlace l := WithBot.bot_lt_coe _

section
variable {t : TypeRoot} {d : Datum}

theorem literalKind_of_matches (ht : supportedType t = true)
    (h : datumMatchesType d t = true) : t.literalKind = some d.kind := by
  unfold datumMatchesType at h
  split at h
  · cases ht
  · exact beq_iff_eq.mp h

theorem KeyOk.matches (h : KeyOk t d) : datumMatchesType d t = true := by
  cases h <;> rfl

theorem kind_ordered {k : DatumKind} (ht : t.isFloat = false) (h : t.literalKind = some k) :
    k.ordered = true := by
  cases t <;> cases h <;> first | rfl | cases ht

theorem isNan_of_ordered (h : d.kind.ordered = true) : d.isNan = false := by
  cases d <;> first | rfl | cases h

variable {a b : Datum}

theorem comparable_of_matches (ht : supportedType t = true) (hfloat : t.isFloat = false)
    (ha : datumMatchesType a t = true) (hb : datumMatchesType b t = true) :
    Comparable a b ∧ a.place = a.rank ∧ b.place = b.rank := by
  have hka := literalKind_of_matches ht ha
  have hkb := literalKind_of_matches ht hb
  have hoa := kind_ordered hfloat hka
  have hob := kind_ordered hfloat hkb
  refine ⟨⟨Option.some.inj (hka.symm.trans hkb), isNan_of_ordered hoa, isNan_of_ordered hob, ?_⟩,
    place_of_ordered hoa, place_of_ordered hob⟩
  intro hvariant
  rw [hvariant] at hoa
  cases hoa

theorem coe_lt_literalPlace : literalPlace a < literalPlace b ↔ a.rank < b.rank :=
  WithBot.coe_lt_coe

theorem coe_le_literalPlace : literalPlace a ≤ literalPlace b ↔ a.rank ≤ b.rank :=
  WithBot.coe_le_coe

theorem literalPlace_inj : literalPlace a = literalPlace b ↔ a.rank = b.rank :=
  WithBot.coe_inj

structure Compared (d l : Datum) : Prop where
  lt : cmpLt d l = true ↔ literalPlace d < literalPlace l
  le : cmpLe d l = true ↔ literalPlace d ≤ literalPlace l
  gt : cmpGt d l = true ↔ literalPlace l < literalPlace d
  ge : cmpGe d l = true ↔ literalPlace l ≤ literalPlace d
  eq : datumEq d l = true ↔ literalPlace d = literalPlace l

theorem compared_of_matches (ht : supportedType t = true) (hfloat : t.isFloat = false) {d l : Datum}
    (hd : datumMatchesType d t = true) (hl : datumMatchesType l t = true) : Compared d l := by
  obtain ⟨h, hpd, hpl⟩ := comparable_of_matches ht hfloat hd hl
  constructor
  · rw [h.lt_iff, coe_lt_literalPlace, hpd, hpl]
  · rw [h.le_iff, coe_le_literalPlace, hpd, hpl]
  · rw [h.gt_iff, coe_lt_literalPlace, hpd, hpl]
  · rw [h.ge_iff, coe_le_literalPlace, hpd, hpl]
  · rw [h.eq_iff, literalPlace_inj, hpd, hpl]

variable {literals : List Datum}

/-- **Of a supported conjunct only places matter.** -/
theorem evalLeaf_iff (ht : supportedType t = true) (hfloat : t.isFloat = false)
    {op : PredicateOperator} (hop : supported op = true)
    (hcount : literalCountOk op literals.length = true)
    (hliterals : ∀ l ∈ literals, datumMatchesType l t = true)
    (hv : ∀ d, v = some d → datumMatchesType d t = true) :
    ∃ b, evalLeaf op v literals = .ok b ∧
      (b = true ↔ opHolds op (componentPlace v) (literals.map literalPlace)) := by
  have hone : ∀ {n : Nat}, (n == 1) = true → literals.length = n → ∃ l, literals = [l] := by
    intro n hn hlen
    exact length_eq_one_iff.mp (hlen.trans (beq_iff_eq.mp hn))
  cases v with
  | none =>
    -- NULL satisfies nothing but IS NULL
    have hbot : ∀ l : Datum, ¬ literalPlace l ≤ ⊥ := fun l => not_le.mpr (bot_lt_literalPlace l)
    cases op <;> first | exact absurd hop Bool.false_ne_true | skip
    case isNull => exact ⟨true, rfl, ⟨fun _ => rfl, fun _ => rfl⟩⟩
    case isNotNull => exact ⟨false, rfl, ⟨nofun, fun h => absurd rfl h⟩⟩
    case eq =>
      obtain ⟨l, rfl⟩ := hone hcount rfl
      exact ⟨false, rfl, ⟨nofun, fun h => absurd (le_of_eq h.symm) (hbot l)⟩⟩
    case isIn =>
      refine ⟨false, rfl, ⟨nofun, fun h => ?_⟩⟩
      obtain ⟨l, -, hl⟩ := mem_map.mp h
      exact absurd hl.le (hbot l)
    case gt =>
      obtain ⟨l, rfl⟩ := hone hcount rfl
      exact ⟨false, rfl, ⟨nofun, fun h => absurd (le_of_lt h) (hbot l)⟩⟩
    case gtEq =>
      obtain ⟨l, rfl⟩ := hone hcount rfl
      exact ⟨false, rfl, ⟨nofun, fun h => absurd h (hbot l)⟩⟩
    case lt | ltEq =>
      obtain ⟨l, rfl⟩ := hone hcount rfl
      exact ⟨false, rfl, ⟨nofun, fun h => absurd rfl h.1⟩⟩
    case between =>
      obtain ⟨low, high, rfl⟩ := length_eq_two.mp (beq_iff_eq.mp hcount)
      exact ⟨false, rfl, ⟨nofun, fun h => absurd h.1 (hbot low)⟩⟩
  | some d =>
    have hd := hv d rfl
    have hcmp : ∀ l ∈ literals, Compared d l := fun l hl =>
      compared_of_matches ht hfloat hd (hliterals l hl)
    have hne : literalPlace d ≠ ⊥ := (bot_lt_literalPlace d).ne'
    cases op <;> first | exact absurd hop Bool.false_ne_true | skip
    case isNull => exact ⟨false, rfl, ⟨nofun, fun h => absurd h hne⟩⟩
    case isNotNull => exact ⟨true, rfl, ⟨fun _ => hne, fun _ => rfl⟩⟩
    case eq =>
      obtain ⟨l, rfl⟩ := hone hcount rfl
      exact ⟨datumEq d l, rfl, (hcmp l mem_cons_self).eq⟩
    case isIn =>
      refine ⟨_, rfl, ?_⟩
      show (literals.any fun l => datumEq d l) = true ↔ literalPlace d ∈ literals.map literalPlace
      rw [any_eq_true, mem_map]
      refine exists_congr fun l => and_congr_right fun hl => ?_
      rw [(hcmp l hl).eq, eq_comm]
    case gt =>
      obtain ⟨l, rfl⟩ := hone hcount rfl
      exact ⟨cmpGt d l, rfl, (hcmp l mem_cons_self).gt⟩
    case gtEq =>
      obtain ⟨l, rfl⟩ := hone hcount rfl
      exact ⟨cmpGe d l, rfl, (hcmp l mem_cons_self).ge⟩
    case lt =>
      obtain ⟨l, rfl⟩ := hone hcount rfl
      refine ⟨cmpLt d l, rfl, (hcmp l mem_cons_self).lt.trans ?_⟩
      exact ⟨fun h => ⟨hne, h⟩, fun h => h.2⟩
    case ltEq =>
      obtain ⟨l, rfl⟩ := hone hcount rfl
      refine ⟨cmpLe d l, rfl, (hcmp l mem_cons_self).le.trans ?_⟩
      exact ⟨fun h => ⟨hne, h⟩, fun h => h.2⟩
    case between =>
      obtain ⟨low, high, rfl⟩ := length_eq_two.mp (beq_iff_eq.mp hcount)
      refine ⟨cmpGe d low && cmpLe d high, rfl, ?_⟩
      rw [Bool.and_eq_true, (hcmp low mem_cons_self).ge, (hcmp high (mem_cons_of_mem _ mem_cons_self)).le]
      exact Iff.rfl

theorem anyEqual_eq (hfloat : t.isFloat = false)
    (hliterals : ∀ l ∈ literals, KeyOk t l) (hd : KeyOk t d) :
    ∃ b, anyEqual t (some (serializeComponent t d)) literals = .ok b ∧
      (b = true ↔ literalPlace d ∈ literals.map literalPlace) := by
  induction literals with
  | nil => exact ⟨false, rfl, ⟨nofun, nofun⟩⟩
  | cons l literals ih =>
    obtain ⟨b, hb, hiff⟩ := ih (forall_mem_cons.mp hliterals).2
    have hcmp : compareComponents t (some (serializeComponent t d)) (some (serializeComponent t l))
        = .ok (compare (literalPlace d) (literalPlace l)) :=
      compareComponents_eq (a := some d) (b := some l) hfloat (fun _ h => Option.some.inj h ▸ hd)
        (fun _ h => Option.some.inj h ▸ hliterals l mem_cons_self)
    refine ⟨compare (literalPlace d) (literalPlace l) == .eq || b, ?_, ?_⟩
    · rw [anyEqual]
      simp only [hcmp, hb, bind, Except.bind]
      rfl
    · rw [Bool.or_eq_true, beq_iff_eq, compare_eq_iff_eq, hiff, map_cons, mem_cons]

/-- **`matches_leaf` decides a conjunct.** -/
theorem matchesLeaf_eq (ht : supportedType t = true) (hfloat : t.isFloat = false) {leaf : Leaf}
    (hop : supported leaf.op = true) (hcount : literalCountOk leaf.op leaf.literals.length = true)
    (hliterals : ∀ l ∈ leaf.literals, KeyOk t l) (hv : ComponentOk t v) :
    ∃ b, matchesLeaf t (v.map (serializeComponent t)) leaf = .ok b ∧
      (b = true ↔ opHolds leaf.op (componentPlace v) (leaf.literals.map literalPlace)) := by
  obtain ⟨column, index, dataType, op, literals⟩ := leaf
  dsimp only at hop hcount hliterals ⊢
  cases v with
  | none =>
    obtain ⟨b, hb, hiff⟩ := evalLeaf_iff ht hfloat hop hcount (fun l hl => (hliterals l hl).matches)
      (v := none) nofun
    refine ⟨b, ?_, hiff⟩
    cases op <;> exact hb
  | some d =>
    have hd := hv d rfl
    have hne : literalPlace d ≠ ⊥ := (bot_lt_literalPlace d).ne'
    have hone : (literals.length == 1) = true → ∃ l, literals = [l] := fun hlen =>
      length_eq_one_iff.mp (beq_iff_eq.mp hlen)
    have hcmp : ∀ l ∈ literals, compareComponents t (some (serializeComponent t d))
        (some (serializeComponent t l)) = .ok (compare (literalPlace d) (literalPlace l)) := by
      intro l hl
      exact compareComponents_eq (a := some d) (b := some l) hfloat hv
        (fun _ h => Option.some.inj h ▸ hliterals l hl)
    have hmap : ∀ l ∈ literals, ∀ f : Ordering → Bool, (compareComponents t
        (some (serializeComponent t d)) (some (serializeComponent t l))).map f
          = .ok (f (compare (literalPlace d) (literalPlace l))) := by
      intro l hl f
      rw [hcmp l hl]
      rfl
    rw [Option.map_some]
    unfold matchesLeaf
    cases op <;> first | exact absurd hop Bool.false_ne_true | skip
    case isNull => exact ⟨false, rfl, ⟨nofun, fun h => absurd h hne⟩⟩
    case isNotNull => exact ⟨true, rfl, ⟨fun _ => hne, fun _ => rfl⟩⟩
    case isIn =>
      obtain ⟨b, hb, hiff⟩ := anyEqual_eq hfloat hliterals hd
      exact ⟨b, hb, hiff⟩
    case between =>
      obtain ⟨low, high, rfl⟩ := length_eq_two.mp (beq_iff_eq.mp hcount)
      have hlow := hcmp low mem_cons_self
      have hhigh := hmap high (mem_cons_of_mem _ mem_cons_self) (· != .gt)
      refine ⟨compare (literalPlace d) (literalPlace low) != .lt &&
        compare (literalPlace d) (literalPlace high) != .gt, ?_, ?_⟩
      · show (compareComponents t _ _ >>= fun order => if order ≠ .lt then
          (compareComponents t _ _).map (· != .gt) else .ok false) = _
        rw [hlow, hhigh]
        cases compare (literalPlace d) (literalPlace low) <;> rfl
      · rw [Bool.and_eq_true, bne_iff_ne, bne_iff_ne, Ne, compare_lt_iff_lt, not_lt, Ne,
          compare_gt_iff_gt, not_lt]
        exact Iff.rfl
    -- the operators with one literal
    all_goals
      obtain ⟨l, rfl⟩ := hone hcount
      have hl := hmap l mem_cons_self
    case eq =>
      refine ⟨_, hl (· == .eq), ?_⟩
      rw [beq_iff_eq, compare_eq_iff_eq]
      exact Iff.rfl
    case gt =>
      refine ⟨_, hl (· == .gt), ?_⟩
      rw [beq_iff_eq, compare_gt_iff_gt]
      exact Iff.rfl
    case gtEq =>
      refine ⟨_, hl (· != .lt), ?_⟩
      rw [bne_iff_ne, Ne, compare_lt_iff_lt, not_lt]
      exact Iff.rfl
    case lt =>
      refine ⟨_, hl (· == .lt), ?_⟩
      rw [beq_iff_eq, compare_lt_iff_lt]
      exact ⟨fun h => ⟨hne, h⟩, fun h => h.2⟩
    case ltEq =>
      refine ⟨_, hl (· != .gt), ?_⟩
      rw [bne_iff_ne, Ne, compare_gt_iff_gt, not_lt]
      exact ⟨fun h => ⟨hne, h⟩, fun h => h.2⟩

end

end Paimon.BTree
