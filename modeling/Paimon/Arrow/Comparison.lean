import Paimon.Arrow.Residual
import Paimon.Lib.Traverse

/-!
# What a leaf compares

The evaluators of timestamps, decimals and Arrow scalars agree on one thing: the operators of a
leaf depend on the ordering of the value and each literal only.  `exactCmp` is that ordering.

* `comparison_leaf`, `membership_leaf`, `between_leaf`: the operators read off `exactCmp`;
* `exactCmp_rank`: on ordered kinds it is the order of ranks, for a literal of the column's kind;
* `exactCmp_float`: on floats it is equality of bit patterns;
* `null_leaf`: only IS NULL holds on NULL.
-/

namespace Paimon

open List

/-! ## the ordering of a value and a literal -/

def scalarCmp : Value → Datum → Option Ordering
  | .scalar d, l => arrowCmp d l
  | _, _ => none

def timestampCmp (t : TypeRoot) (v : Value) (l : Datum) : Option Ordering :=
  (literalNanos t l).bind fun expected => (valueNanos t v).map fun value => compare value expected

/-- one ordering decides all operators of a leaf -/
def exactCmp (t : TypeRoot) (v : Value) (l : Datum) : Option Ordering :=
  if isTimestampRoot t then timestampCmp t v l
  else if isDecimalRoot t then decimalCell v l
  else (literalScalar t l).bind (scalarCmp v)

def PredicateOperator.isComparison : PredicateOperator → Bool
  | .eq => true
  | .notEq => true
  | .lt => true
  | .ltEq => true
  | .gt => true
  | .gtEq => true
  | _ => false

variable {op : PredicateOperator}

theorem evaluateColumnPredicate_comparison (hop : op.isComparison = true) (v : Value) (l : Datum) :
    evaluateColumnPredicate op v l = (scalarCmp v l).bind (comparison op) := by
  have htext : ∀ s p, textMatch op s p = none := by
    intro s p
    cases op <;> first | rfl | cases hop
  cases v with
  | array | other => rfl
  | scalar d =>
    cases d <;> try rfl
    case string s =>
      cases l <;> try rfl
      case string p =>
        simp only [evaluateColumnPredicate, htext]
        rfl

theorem comparison_dispatch (hop : op.isComparison = true) (t : TypeRoot) (v : Option Value)
    (literals : List Datum) :
    evaluateExactLeaf t v op literals =
      if isTimestampRoot t then evaluateTimestampLeaf t v op literals
      else if isDecimalRoot t then evaluateDecimalLeaf v op literals
      else evaluateSingle t v op literals := by
  cases op <;> first | rfl | cases hop

variable {literals : List Datum} {t : TypeRoot} {v : Value} {b : Bool}

theorem timestamp_comparison (hop : op.isComparison = true)
    (h : evaluateTimestampLeaf t (some v) op literals = some b) :
    ∃ l o, literals.head? = some l ∧ timestampCmp t v l = some o ∧ comparison op o = some b := by
  obtain ⟨values, hvalues, h⟩ := Option.bind_eq_some_iff.mp h
  obtain ⟨value, hvalue, h⟩ := Option.bind_eq_some_iff.mp h
  have h : (values.head?.bind fun l => comparison op (compare value l)) = some b := by
    cases op <;> first | exact h | cases hop
  cases literals with
  | nil =>
    cases hvalues
    cases h
  | cons l ls =>
    rw [mapM_cons] at hvalues
    obtain ⟨expected, hexpected, hvalues⟩ := Option.bind_eq_some_iff.mp hvalues
    obtain ⟨rest, _, hrest⟩ := Option.bind_eq_some_iff.mp hvalues
    cases hrest
    refine ⟨l, compare value expected, rfl, ?_, h⟩
    rw [timestampCmp, hexpected, hvalue]
    rfl

theorem decimal_comparison (hop : op.isComparison = true)
    (h : evaluateDecimalLeaf (some v) op literals = some b) :
    ∃ l o, literals.head? = some l ∧ decimalCell v l = some o ∧ comparison op o = some b := by
  have h : (literals.head?.bind fun l => (decimalCell v l).bind (comparison op)) = some b := by
    cases op <;> first | exact h | cases hop
  obtain ⟨l, hl, h⟩ := Option.bind_eq_some_iff.mp h
  obtain ⟨o, ho, h⟩ := Option.bind_eq_some_iff.mp h
  exact ⟨l, o, hl, ho, h⟩

theorem single_comparison (hop : op.isComparison = true) (h : evaluateSingle t (some v) op literals = some b) :
    ∃ l o, literals.head? = some l ∧ (literalScalar t l).bind (scalarCmp v) = some o ∧
      comparison op o = some b := by
  obtain ⟨l, hl, h⟩ := Option.bind_eq_some_iff.mp h
  obtain ⟨s, hs, h⟩ := Option.bind_eq_some_iff.mp h
  have h : evaluateColumnPredicate op v s = some b := h
  rw [evaluateColumnPredicate_comparison hop] at h
  obtain ⟨o, ho, h⟩ := Option.bind_eq_some_iff.mp h
  exact ⟨l, o, hl, by rw [hs]; exact ho, h⟩

/-- **The six comparisons.** -/
theorem comparison_leaf (hop : op.isComparison = true) (h : evaluateExactLeaf t (some v) op literals = some b) :
    ∃ l o, literals.head? = some l ∧ exactCmp t v l = some o ∧ comparison op o = some b := by
  rw [comparison_dispatch hop] at h
  unfold exactCmp
  split at h
  · rename_i ht
    simp only [if_pos ht]
    exact timestamp_comparison hop h
  · rename_i ht
    simp only [if_neg ht]
    split at h
    · rename_i hd
      simp only [if_pos hd]
      exact decimal_comparison hop h
    · rename_i hd
      simp only [if_neg hd]
      exact single_comparison hop h

/-! ## set membership -/

def anyEqual (t : TypeRoot) (v : Value) (literals : List Datum) : Bool :=
  literals.any fun l => exactCmp t v l == some .eq

theorem timestamp_contains {value : Int} (hv : valueNanos t v = some value) {values : List Int}
    (h : literals.mapM (literalNanos t) = some values) :
    values.contains value = literals.any fun l => timestampCmp t v l == some .eq := by
  induction literals generalizing values with
  | nil =>
    cases h
    rfl
  | cons l ls ih =>
    rw [mapM_cons] at h
    obtain ⟨expected, hexpected, h⟩ := Option.bind_eq_some_iff.mp h
    obtain ⟨rest, hrest, h⟩ := Option.bind_eq_some_iff.mp h
    cases h
    have hcmp : timestampCmp t v l = some (compare value expected) := by
      rw [timestampCmp, hexpected, hv]
      rfl
    rw [contains_cons, any_cons, ih hrest, hcmp]
    congr 1
    rw [Bool.eq_iff_iff, beq_iff_eq, beq_iff_eq, Option.some_inj, compare_eq_iff_eq]

theorem decimal_any (h : anyDecimalEq v literals = some b) :
    b = literals.any fun l => decimalCell v l == some .eq := by
  induction literals with
  | nil =>
    cases h
    rfl
  | cons l ls ih =>
    rw [any_cons]
    unfold anyDecimalEq at h
    split at h
    · cases h
    · rename_i ho
      cases h
      rw [ho]
      rfl
    · rename_i o hne ho
      rw [ho, ih h]
      cases o with
      | eq => exact absurd rfl hne
      | lt | gt => rfl

theorem scalar_any {literals scalars : List Datum} {equal : List Bool}
    (hs : literals.mapM (literalScalar t) = some scalars)
    (he : scalars.mapM (evaluateColumnPredicate .eq v) = some equal) :
    equal.any id = literals.any fun l => (literalScalar t l).bind (scalarCmp v) == some .eq := by
  induction literals generalizing scalars equal with
  | nil =>
    cases hs
    cases he
    rfl
  | cons l ls ih =>
    rw [mapM_cons] at hs
    obtain ⟨s, hl, hs⟩ := Option.bind_eq_some_iff.mp hs
    obtain ⟨rest, hrest, hs⟩ := Option.bind_eq_some_iff.mp hs
    cases hs
    rw [mapM_cons] at he
    obtain ⟨b, hb, he⟩ := Option.bind_eq_some_iff.mp he
    obtain ⟨bs, hbs, he⟩ := Option.bind_eq_some_iff.mp he
    cases he
    rw [evaluateColumnPredicate_comparison rfl] at hb
    obtain ⟨o, ho, hb⟩ := Option.bind_eq_some_iff.mp hb
    cases hb
    rw [any_cons, any_cons, ih hrest hbs, hl]
    show _ = (scalarCmp v s == some .eq || _)
    rw [ho]
    rfl

theorem membership_dispatch (hop : op = .isIn ∨ op = .notIn) (t : TypeRoot) (v : Option Value)
    (literals : List Datum) :
    evaluateExactLeaf t v op literals =
      if isTimestampRoot t then evaluateTimestampLeaf t v op literals
      else if isDecimalRoot t then evaluateDecimalLeaf v op literals
      else evaluateSetMembership t v op literals := by
  rcases hop with rfl | rfl <;> rfl

/-- **IN and NOT IN.** -/
theorem membership_leaf (hop : op = .isIn ∨ op = .notIn)
    (h : evaluateExactLeaf t (some v) op literals = some b) :
    b = if op = .isIn then anyEqual t v literals else !anyEqual t v literals := by
  rw [membership_dispatch hop] at h
  unfold anyEqual exactCmp
  split at h
  · rename_i ht
    simp only [if_pos ht]
    obtain ⟨values, hvalues, h⟩ := Option.bind_eq_some_iff.mp h
    obtain ⟨value, hvalue, h⟩ := Option.bind_eq_some_iff.mp h
    rw [← timestamp_contains hvalue hvalues]
    rcases hop with rfl | rfl
    · exact (Option.some_inj.mp h).symm
    · exact (Option.some_inj.mp h).symm
  rename_i ht
  simp only [if_neg ht]
  split at h
  · rename_i hd
    simp only [if_pos hd]
    rcases hop with rfl | rfl
    · exact decimal_any h
    · obtain ⟨found, hfound, rfl⟩ := Option.map_eq_some_iff.mp h
      exact congrArg Bool.not (decimal_any hfound)
  · rename_i hd
    simp only [if_neg hd]
    obtain ⟨scalars, hs, h⟩ := Option.bind_eq_some_iff.mp h
    obtain ⟨equal, he, h⟩ := Option.bind_eq_some_iff.mp h
    rw [← scalar_any hs he]
    exact (Option.some_inj.mp h).symm

theorem decimal_compares (h : anyDecimalEq v literals = some b) :
    b = true ∨ ∀ l ∈ literals, ∃ o, decimalCell v l = some o := by
  induction literals with
  | nil => exact .inr fun l hl => absurd hl not_mem_nil
  | cons l ls ih =>
    unfold anyDecimalEq at h
    split at h
    · cases h
    · exact .inl (Option.some_inj.mp h).symm
    · rename_i o _ ho
      refine (ih h).imp id fun hrest l' hl' => ?_
      rcases mem_cons.mp hl' with rfl | hl'
      · exact ⟨o, ho⟩
      · exact hrest l' hl'

theorem membership_compares (hop : op = .isIn ∨ op = .notIn)
    (h : evaluateExactLeaf t (some v) op literals = some b) :
    anyEqual t v literals = true ∨ ∀ l ∈ literals, ∃ o, exactCmp t v l = some o := by
  rw [membership_dispatch hop] at h
  unfold anyEqual exactCmp
  split at h
  · rename_i ht
    simp only [if_pos ht]
    obtain ⟨values, hvalues, h⟩ := Option.bind_eq_some_iff.mp h
    obtain ⟨value, hvalue, h⟩ := Option.bind_eq_some_iff.mp h
    refine .inr fun l hl => ?_
    obtain ⟨n, -, hn⟩ := Traverse.mem_right (Traverse.option_mapM.mp hvalues) hl
    exact ⟨compare value n, by rw [timestampCmp, hn, hvalue]; rfl⟩
  rename_i ht
  simp only [if_neg ht]
  split at h
  · rename_i hd
    simp only [if_pos hd]
    obtain ⟨found, hfound⟩ : ∃ found, anyDecimalEq v literals = some found := by
      rcases hop with rfl | rfl
      · exact ⟨b, h⟩
      · obtain ⟨found, hfound, -⟩ := Option.map_eq_some_iff.mp h
        exact ⟨found, hfound⟩
    rw [← decimal_any hfound]
    exact decimal_compares hfound
  · rename_i hd
    simp only [if_neg hd]
    obtain ⟨scalars, hs, h⟩ := Option.bind_eq_some_iff.mp h
    obtain ⟨equal, he, h⟩ := Option.bind_eq_some_iff.mp h
    refine .inr fun l hl => ?_
    obtain ⟨s, hmem, hls⟩ := Traverse.mem_right (Traverse.option_mapM.mp hs) hl
    obtain ⟨_, -, hcmp⟩ := Traverse.mem_right (Traverse.option_mapM.mp he) hmem
    rw [evaluateColumnPredicate_comparison rfl] at hcmp
    obtain ⟨o, ho, -⟩ := Option.bind_eq_some_iff.mp hcmp
    exact ⟨o, by rw [hls]; exact ho⟩

/-! ## ranges -/

theorem timestamp_between (hop : op = .between ∨ op = .notBetween)
    (h : evaluateTimestampLeaf t (some v) op literals = some b) :
    ∃ low high rest ol oh, literals = low :: high :: rest ∧ timestampCmp t v low = some ol ∧
      timestampCmp t v high = some oh ∧ b = betweenOf op ol oh := by
  obtain ⟨values, hvalues, h⟩ := Option.bind_eq_some_iff.mp h
  obtain ⟨value, hvalue, h⟩ := Option.bind_eq_some_iff.mp h
  have hcmp : ∀ l n, literalNanos t l = some n → timestampCmp t v l = some (compare value n) := by
    intro l n hl
    rw [timestampCmp, hl, hvalue]
    rfl
  cases literals with
  | nil =>
    cases hvalues
    rcases hop with rfl | rfl <;> cases h
  | cons low literals =>
    rw [mapM_cons] at hvalues
    obtain ⟨nl, hl, hvalues⟩ := Option.bind_eq_some_iff.mp hvalues
    obtain ⟨ns, hns, hvalues⟩ := Option.bind_eq_some_iff.mp hvalues
    cases hvalues
    cases literals with
    | nil =>
      cases hns
      rcases hop with rfl | rfl <;> cases h
    | cons high rest =>
      rw [mapM_cons] at hns
      obtain ⟨nh, hh, hns⟩ := Option.bind_eq_some_iff.mp hns
      obtain ⟨_, _, hns⟩ := Option.bind_eq_some_iff.mp hns
      cases hns
      refine ⟨low, high, rest, _, _, rfl, hcmp low nl hl, hcmp high nh hh, ?_⟩
      rcases hop with rfl | rfl <;> exact (Option.some_inj.mp h).symm

theorem decimal_between (hop : op = .between ∨ op = .notBetween)
    (h : evaluateDecimalLeaf (some v) op literals = some b) :
    ∃ low high rest ol oh, literals = low :: high :: rest ∧ decimalCell v low = some ol ∧
      decimalCell v high = some oh ∧ b = betweenOf op ol oh := by
  match literals with
  | [] => rcases hop with rfl | rfl <;> cases h
  | [_] => rcases hop with rfl | rfl <;> cases h
  | low :: high :: rest =>
    have h : ((decimalCell v low).bind fun ol => (decimalCell v high).bind fun oh =>
        some (betweenOf op ol oh)) = some b := by
      rcases hop with rfl | rfl <;> exact h
    obtain ⟨ol, hl, h⟩ := Option.bind_eq_some_iff.mp h
    obtain ⟨oh, hh, h⟩ := Option.bind_eq_some_iff.mp h
    exact ⟨low, high, rest, ol, oh, rfl, hl, hh, (Option.some_inj.mp h).symm⟩

theorem scalar_between (hop : op = .between ∨ op = .notBetween)
    (h : evaluateBetween t (some v) op literals = some b) :
    ∃ low high rest ol oh, literals = low :: high :: rest ∧
      (literalScalar t low).bind (scalarCmp v) = some ol ∧
      (literalScalar t high).bind (scalarCmp v) = some oh ∧ b = betweenOf op ol oh := by
  match literals with
  | [] => cases h
  | [_] => cases h
  | low :: high :: rest =>
    obtain ⟨sl, hsl, h⟩ := Option.bind_eq_some_iff.mp h
    obtain ⟨sh, hsh, h⟩ := Option.bind_eq_some_iff.mp h
    obtain ⟨ge, hge, h⟩ := Option.bind_eq_some_iff.mp h
    obtain ⟨le, hle, h⟩ := Option.bind_eq_some_iff.mp h
    rw [evaluateColumnPredicate_comparison rfl] at hge hle
    obtain ⟨ol, hol, hge⟩ := Option.bind_eq_some_iff.mp hge
    obtain ⟨oh, hoh, hle⟩ := Option.bind_eq_some_iff.mp hle
    cases hge
    cases hle
    refine ⟨low, high, rest, ol, oh, rfl, by rw [hsl]; exact hol, by rw [hsh]; exact hoh, ?_⟩
    rcases hop with rfl | rfl <;> exact (Option.some_inj.mp h).symm

/-- **BETWEEN and NOT BETWEEN.** -/
theorem between_leaf (hop : op = .between ∨ op = .notBetween)
    (h : evaluateExactLeaf t (some v) op literals = some b) :
    ∃ low high rest ol oh, literals = low :: high :: rest ∧ exactCmp t v low = some ol ∧
      exactCmp t v high = some oh ∧ b = betweenOf op ol oh := by
  have h : (if isTimestampRoot t then evaluateTimestampLeaf t (some v) op literals
      else if isDecimalRoot t then evaluateDecimalLeaf (some v) op literals
      else evaluateBetween t (some v) op literals) = some b := by
    rcases hop with rfl | rfl <;> exact h
  unfold exactCmp
  split at h
  · rename_i ht
    simp only [if_pos ht]
    exact timestamp_between hop h
  rename_i ht
  simp only [if_neg ht]
  split at h
  · rename_i hd
    simp only [if_pos hd]
    exact decimal_between hop h
  · rename_i hd
    simp only [if_neg hd]
    exact scalar_between hop h

/-! ## literals of the column's kind -/

/-- a value as a decoded column of type `t` holds it -/
def Value.ofType (t : TypeRoot) : Value → Bool
  | .scalar d =>
    t.literalKind == some d.kind &&
      match d with
      | .timestamp _ nanos => 0 ≤ nanos && nanos < 1000000
      | .localZonedTimestamp _ nanos => 0 ≤ nanos && nanos < 1000000
      | _ => true
  | .array _ => t.literalKind.isNone
  | .other => t.literalKind.isNone

theorem literalKind_of_type {d : Datum} (h : Value.ofType t (.scalar d) = true) :
    t.literalKind = some d.kind := by
  unfold Value.ofType at h
  exact beq_iff_eq.mp (Bool.and_eq_true_iff.mp h).1

theorem fitsSigned_eq {bits : Nat} {v w : Int} (h : fitsSigned bits v = some w) : w = v := by
  unfold fitsSigned at h
  split at h
  · exact (Option.some_inj.mp h).symm
  · cases h

theorem literalScalar_kind {l s : Datum} (h : literalScalar t l = some s) (hk : t.literalKind = some l.kind) :
    s = l := by
  cases t <;> cases l <;> simp [TypeRoot.literalKind, Datum.kind] at hk <;>
    simp [literalScalar, integerLiteral, float32Literal, float64Literal] at h
  all_goals first
    | exact h.symm
    | (obtain ⟨w, hw, rfl⟩ := h
       rw [fitsSigned_eq hw])

theorem compare_nanos {m n m' n' : Int} (h : 0 ≤ n ∧ n < 1000000) (h' : 0 ≤ n' ∧ n' < 1000000) :
    compare (m * 1000000 + n) (m' * 1000000 + n') = pairCmp (m, n) (m', n') := by
  unfold pairCmp
  rcases lt_trichotomy m m' with hm | rfl | hm
  · rw [compare_lt_iff_lt.mpr hm, compare_lt_iff_lt.mpr (by omega)]
    rfl
  · rw [compare_eq_iff_eq.mpr (rfl : m = m)]
    exact Compare.map_eq (f := fun k => m * 1000000 + k) (fun _ _ hk => by show _ + _ < _ + _; omega) n n'
  · rw [compare_gt_iff_gt.mpr hm, compare_gt_iff_gt.mpr (by omega)]
    rfl

variable {d l : Datum}

theorem datumCmp_of_arrowCmp (hord : d.kind.ordered = true) {o : Ordering}
    (h : arrowCmp d l = some o) : datumCmp d l = some o := by
  cases d <;> cases l <;> first
    | exact h
    | exact absurd hord Bool.false_ne_true
    | cases h

/-- **Literals of an ordered column compare by rank.** -/
theorem exactCmp_rank (hd : Value.ofType t (.scalar d) = true) (hord : d.kind.ordered = true)
    {o : Ordering} (h : exactCmp t (.scalar d) l = some o) (hk : l.kind = d.kind) :
    o = compare d.rank l.rank := by
  have hdatum : datumCmp d l = some o → o = compare d.rank l.rank := fun h => by
    rw [datumCmp_eq hord, if_pos hk.symm] at h
    exact (Option.some_inj.mp h).symm
  apply hdatum
  unfold exactCmp at h
  split at h
  · -- timestamps
    rename_i ht
    obtain ⟨n, hn, h⟩ := Option.bind_eq_some_iff.mp h
    obtain ⟨w, hw, rfl⟩ := Option.map_eq_some_iff.mp h
    cases t <;> simp [isTimestampRoot] at ht
    all_goals
      cases d <;> simp [valueNanos] at hw
      cases l <;> simp [literalNanos] at hn
      simp [Value.ofType] at hd
      rw [← hw, ← hn.2, compare_nanos hd.2 hn.1]
      rfl
  rename_i ht
  split at h
  · cases d <;> simp only [decimalCell, reduceCtorEq] at h
    cases l <;> exact h
  · rename_i hdec
    obtain ⟨s, hs, h⟩ := Option.bind_eq_some_iff.mp h
    rw [literalScalar_kind hs (hk ▸ literalKind_of_type hd)] at h
    exact datumCmp_of_arrowCmp hord h

theorem eq_of_arrowCmp (hfloat : d.kind.isFloat = true) (h : arrowCmp d l = some .eq) : d = l := by
  cases d <;> first
    | exact absurd hfloat Bool.false_ne_true
    | (cases l <;> first
        | cases h
        | exact congrArg _ (Ieee.totalRank_inj (by decide) (compare_eq_iff_eq.mp (Option.some_inj.mp h))))

theorem root_of_float {k : DatumKind} (h : t.literalKind = some k) (hk : k.isFloat = true) :
    isTimestampRoot t = false ∧ isDecimalRoot t = false := by
  cases t <;> cases h <;> first | exact ⟨rfl, rfl⟩ | cases hk

/-- **A float equals a literal of its kind only if the bits are the same.** -/
theorem exactCmp_float (hd : Value.ofType t (.scalar d) = true) (hfloat : d.kind.isFloat = true)
    (h : exactCmp t (.scalar d) l = some .eq) (hk : l.kind = d.kind) : l = d := by
  have hkind := literalKind_of_type hd
  obtain ⟨hts, hdec⟩ := root_of_float hkind hfloat
  rw [exactCmp, if_neg (by rw [hts]; decide), if_neg (by rw [hdec]; decide)] at h
  obtain ⟨s, hs, heq⟩ := Option.bind_eq_some_iff.mp h
  rw [literalScalar_kind hs (hk ▸ hkind)] at heq
  exact (eq_of_arrowCmp hfloat heq).symm

/-! ## texts -/

/-- **The text operators** on a text column with a text literal. -/
theorem text_leaf (hop : op = .startsWith ∨ op = .like) {s p : Text}
    (hd : Value.ofType t (.scalar (.string s)) = true) (hl : literals.head? = some (.string p))
    (h : evaluateExactLeaf t (some (.scalar (.string s))) op literals = some b) :
    textMatch op s p = some b := by
  have hkind := literalKind_of_type hd
  have hroot : isTimestampRoot t = false ∧ isDecimalRoot t = false ∧
      literalScalar t (.string p) = some (.string p) := by
    cases t <;> first | exact ⟨rfl, rfl, rfl⟩ | cases hkind
  have h : (if isTimestampRoot t then evaluateTimestampLeaf t (some (.scalar (.string s))) op literals
      else if isDecimalRoot t then evaluateDecimalLeaf (some (.scalar (.string s))) op literals
      else evaluateSingle t (some (.scalar (.string s))) op literals) = some b := by
    rcases hop with rfl | rfl <;> exact h
  rw [hroot.1, hroot.2.1, if_neg Bool.false_ne_true, if_neg Bool.false_ne_true, evaluateSingle, hl] at h
  obtain ⟨literal, hliteral, h⟩ := Option.bind_eq_some_iff.mp h
  cases hliteral
  obtain ⟨scalar, hs, h⟩ := Option.bind_eq_some_iff.mp h
  rw [hroot.2.2] at hs
  cases hs
  rcases hop with rfl | rfl <;> exact h

/-! ## NULL -/

/-- **Only IS NULL holds on NULL.** -/
theorem null_leaf (h : evaluateExactLeaf t none op literals = some b) : b = (op == .isNull) := by
  have hts : evaluateTimestampLeaf t none op literals = some b → b = false := fun h => by
    obtain ⟨_, _, h⟩ := Option.bind_eq_some_iff.mp h
    exact (Option.some_inj.mp h).symm
  have hdec : evaluateDecimalLeaf none op literals = some b → b = false := fun h =>
    (Option.some_inj.mp h).symm
  have hset : evaluateSetMembership t none op literals = some b → b = false := fun h => by
    obtain ⟨_, _, h⟩ := Option.bind_eq_some_iff.mp h
    exact (Option.some_inj.mp h).symm
  have hbetween : evaluateBetween t none op literals = some b → b = false := fun h => by
    unfold evaluateBetween at h
    split at h
    · obtain ⟨_, _, h⟩ := Option.bind_eq_some_iff.mp h
      obtain ⟨_, _, h⟩ := Option.bind_eq_some_iff.mp h
      exact (Option.some_inj.mp h).symm
    · cases h
  have hsingle : evaluateSingle t none op literals = some b → b = false := fun h => by
    obtain ⟨_, _, h⟩ := Option.bind_eq_some_iff.mp h
    obtain ⟨_, _, h⟩ := Option.bind_eq_some_iff.mp h
    exact (Option.some_inj.mp h).symm
  have harray : evaluateArrayMembership t none op literals = some b → b = false := fun h => by
    unfold evaluateArrayMembership at h
    split at h
    · split at h
      · cases h
      · exact (Option.some_inj.mp h).symm
    · cases h
  cases op
  case isNull | isNotNull => exact (Option.some_inj.mp h).symm
  case arrayContains => exact harray h
  case arraysOverlap => exact harray h
  case arrayContainsAll => exact harray h
  all_goals
    unfold evaluateExactLeaf at h
    dsimp only at h
    split at h
    · exact hts h
    split at h
    · exact hdec h
  case isIn => exact hset h
  case notIn => exact hset h
  case between => exact hbetween h
  case notBetween => exact hbetween h
  all_goals exact hsingle h

end Paimon
