import Paimon.Predicate.Bounds
import Paimon.Spec.BinaryRowBuilder

/-!
# Predicates on rows in binary form

`extract_datum`, `eval_leaf` and `eval_row` of `spec/predicate.rs`: partitions are filtered on their
serialized rows, by the order of literals (`datumCmp`), for which a NaN compares with nothing.

* `Datum.place`: the order of literals, floats included;
* `evalRow`: a predicate tree on a row;
* `evalLeaf_mayMatch`: a leaf that holds on a value is not excluded by bounds around the value.
-/

set_option linter.unusedSectionVars false

namespace Paimon

open List

/-! ## the order of literals, floats included -/

/-- the place of a value that is no NaN among the values of its kind -/
def Datum.place : Datum → Compare.LexList ℚ
  | .float bits => Compare.toLexList [(Ieee.numberRank bits : ℚ)]
  | .double bits => Compare.toLexList [(Ieee.numberRank bits : ℚ)]
  | d => d.rank

variable {d : Datum}

theorem place_of_ordered (h : d.kind.ordered = true) : d.place = d.rank := by
  cases d <;> first | rfl | cases h

theorem partialCmp_place {w : Nat} (infinity : Nat) (a b : BitVec w) : Ieee.partialCmp infinity a b
      = if Ieee.isNan infinity a = false ∧ Ieee.isNan infinity b = false then
          some (compare (Compare.toLexList [(Ieee.numberRank a : ℚ)])
            (Compare.toLexList [(Ieee.numberRank b : ℚ)]))
        else none := by
  unfold Ieee.partialCmp
  rw [← compare_int]
  cases Ieee.isNan infinity a <;> cases Ieee.isNan infinity b <;> rfl

/-- **Literals compare by place**, unless they are of different kinds or one is a NaN. -/
theorem datumCmp_place {a : Datum} (ha : a.kind ≠ .variant) (b : Datum) :
    datumCmp a b = if a.kind = b.kind ∧ a.isNan = false ∧ b.isNan = false then
      some (compare a.place b.place) else none := by
  by_cases hord : a.kind.ordered = true
  · rw [datumCmp_eq hord]
    by_cases hk : a.kind = b.kind
    · have hb : b.kind.ordered = true := hk ▸ hord
      rw [if_pos hk, if_pos ⟨hk, notNan_of_ordered hord, notNan_of_ordered hb⟩,
        place_of_ordered hord, place_of_ordered hb]
    · rw [if_neg hk, if_neg fun h => hk h.1]
  · cases a <;> first | exact absurd rfl hord | exact absurd rfl ha | skip
    all_goals
      cases b <;> first | rfl | skip
      exact (partialCmp_place _ _ _).trans (by simp [Datum.kind, Datum.isNan, Datum.place])

theorem string_of_kind {s : Text} (h : d.kind = (Datum.string s).kind) : ∃ t, d = .string t := by
  cases d <;> first | exact ⟨_, rfl⟩ | exact nomatch h

structure Comparable (a b : Datum) : Prop where
  kind : a.kind = b.kind
  left : a.isNan = false
  right : b.isNan = false
  noVariant : a.kind ≠ .variant

variable {a b : Datum}

theorem Comparable.symm (h : Comparable a b) : Comparable b a :=
  ⟨h.kind.symm, h.right, h.left, h.kind ▸ h.noVariant⟩

theorem Comparable.trans {a b c : Datum} (h : Comparable a b) (h' : Comparable b c) :
    Comparable a c := ⟨h.kind.trans h'.kind, h.left, h'.right, h.noVariant⟩

theorem Comparable.cmp (h : Comparable a b) : datumCmp a b = some (compare a.place b.place) := by
  rw [datumCmp_place h.noVariant, if_pos ⟨h.kind, h.left, h.right⟩]

theorem comparable_of_cmp (ha : a.kind ≠ .variant) {o : Ordering}
    (h : datumCmp a b = some o) : Comparable a b := by
  rw [datumCmp_place ha] at h
  split at h
  · next hc => exact ⟨hc.1, hc.2.1, hc.2.2, ha⟩
  · exact nomatch h

section
variable {a b : Datum} (h : Comparable a b)
include h

theorem Comparable.lt_iff : cmpLt a b = true ↔ a.place < b.place := by
  rw [cmpLt, h.cmp, beq_iff_eq, Option.some_inj, compare_lt_iff_lt]

theorem Comparable.gt_iff : cmpGt a b = true ↔ b.place < a.place := by
  rw [cmpGt, h.cmp, beq_iff_eq, Option.some_inj, compare_gt_iff_gt]

theorem Comparable.eq_iff : datumEq a b = true ↔ a.place = b.place := by
  rw [datumEq, h.cmp, beq_iff_eq, Option.some_inj, compare_eq_iff_eq]

theorem Comparable.le_iff : cmpLe a b = true ↔ a.place ≤ b.place := by
  rw [le_iff_lt_or_eq, ← h.lt_iff, ← h.eq_iff, ← Bool.or_eq_true]
  rfl

theorem Comparable.ge_iff : cmpGe a b = true ↔ b.place ≤ a.place := by
  rw [le_iff_lt_or_eq, eq_comm (a := b.place), ← h.gt_iff, ← h.eq_iff, ← Bool.or_eq_true]
  rfl

end

theorem comparable_of_le (ha : a.kind ≠ .variant) (h : cmpLe a b = true) : Comparable a b := by
  unfold cmpLe at h
  rcases Bool.or_eq_true_iff.mp h with h | h
  · exact comparable_of_cmp ha (beq_iff_eq.mp h)
  · exact comparable_of_cmp ha (beq_iff_eq.mp h)

/-! ## evaluation -/

/-- `None`: NULL; an error: the row is malformed or the type has no literals -/
def extractDatum (row : BinaryRow) (pos : Nat) (t : TypeRoot) : Result (Option Datum) :=
  match row.getDatum (fun _ _ => false) pos t with
  | some v => .ok v
  | none => .error (.dataInvalid "extract_datum: malformed row or unsupported DataType")

/-- `unreachable!`: a leaf no `PredicateBuilder` builds -/
def unreachableLeaf : Result Bool := .error (.unexpectedError "unreachable")

def evalBetween (value : Datum) : List Datum → Result Bool
  | low :: high :: _ => .ok (cmpGe value low && cmpLe value high)
  | _ => unreachableLeaf

def evalText (op : Text → Text → Bool) (value : Datum) (literals : List Datum) : Result Bool :=
  match value, literals.head? with
  | .string s, some (.string p) => .ok (op s p)
  | _, _ => unreachableLeaf

def evalValue (op : PredicateOperator) (value : Datum) (literals : List Datum) : Result Bool :=
  match op with
  | .eq => .ok (literals.head?.any fun l => datumEq value l)
  | .notEq => .ok (literals.head?.any fun l => !datumEq value l)
  | .lt => .ok (literals.head?.any fun l => cmpLt value l)
  | .ltEq => .ok (literals.head?.any fun l => cmpLe value l)
  | .gt => .ok (literals.head?.any fun l => cmpGt value l)
  | .gtEq => .ok (literals.head?.any fun l => cmpGe value l)
  | .isIn => .ok (literals.any fun l => datumEq value l)
  | .notIn => .ok (!literals.any fun l => datumEq value l)
  | .startsWith => evalText (fun s p => p.isPrefixOf s) value literals
  | .endsWith => evalText (fun s p => p.isSuffixOf s) value literals
  | .contains => evalText (fun s p => decide (p <:+: s)) value literals
  | .like => evalText (fun s p => matchTokens (likeTokens p) s) value literals
  | .between => evalBetween value literals
  | .notBetween => (evalBetween value literals).map (!·)
  | _ => unreachableLeaf

/-- NULL satisfies nothing but IS NULL -/
def evalLeaf (op : PredicateOperator) (datum : Option Datum) (literals : List Datum) : Result Bool :=
  match op, datum with
  | .isNull, datum => .ok datum.isNone
  | .isNotNull, datum => .ok datum.isSome
  | _, none => .ok false
  | op, some value => evalValue op value literals

mutual

def evalRow (row : BinaryRow) : Predicate → Result Bool
  | .alwaysTrue => .ok true
  | .alwaysFalse => .ok false
  | .and children => evalAll row children
  | .or children => evalAny row children
  | .not inner => (evalRow row inner).map (!·)
  | .leaf _ index dataType op literals =>
    match extractDatum row index dataType.root with
    | .error e => .error e
    | .ok datum => evalLeaf op datum literals

def evalAll (row : BinaryRow) : List Predicate → Result Bool
  | [] => .ok true
  | child :: children =>
    match evalRow row child with
    | .error e => .error e
    | .ok false => .ok false
    | .ok true => evalAll row children

def evalAny (row : BinaryRow) : List Predicate → Result Bool
  | [] => .ok false
  | child :: children =>
    match evalRow row child with
    | .error e => .error e
    | .ok true => .ok true
    | .ok false => evalAny row children

end

variable {literals : List Datum}

theorem evalText_ok {op : Text → Text → Bool} {value : Datum} (h : evalText op value literals = .ok true) :
    ∃ s p, value = .string s ∧ literals.head? = some (.string p) ∧ op s p = true := by
  unfold evalText at h
  split at h
  · next s p hp => exact ⟨s, p, rfl, hp, Except.ok.inj h⟩
  · exact nomatch h

section children
variable {row : BinaryRow} {p : Predicate} {ps : List Predicate} {b : Bool}

theorem evalAll_cons : evalAll row (p :: ps) = .ok b ↔
    (evalRow row p = .ok false ∧ b = false) ∨ (evalRow row p = .ok true ∧ evalAll row ps = .ok b) := by
  rw [evalAll]
  cases evalRow row p with
  | error e => simp
  | ok v => cases v <;> simp [eq_comm]

theorem evalAny_cons : evalAny row (p :: ps) = .ok b ↔
    (evalRow row p = .ok true ∧ b = true) ∨ (evalRow row p = .ok false ∧ evalAny row ps = .ok b) := by
  rw [evalAny]
  cases evalRow row p with
  | error e => simp
  | ok v => cases v <;> simp [eq_comm]

/-- children in turn, until one decides: `u` is `true` under an AND and `false` under an OR -/
def evalChildrenRow (row : BinaryRow) (u : Bool) (ps : List Predicate) : Result Bool :=
  bif u then evalAll row ps else evalAny row ps

variable {u : Bool}

theorem evalChildrenRow_cons : evalChildrenRow row u (p :: ps) = .ok b ↔
    (evalRow row p = .ok (!u) ∧ b = !u) ∨ (evalRow row p = .ok u ∧ evalChildrenRow row u ps = .ok b) := by
  cases u
  · exact evalAny_cons
  · exact evalAll_cons

theorem evalChildrenRow_ok (u : Bool) (h : ∀ p ∈ ps, ∃ b, evalRow row p = .ok b) :
    ∃ b, evalChildrenRow row u ps = .ok b := by
  induction ps with
  | nil => exact ⟨u, by cases u <;> simp [evalChildrenRow, evalAll, evalAny]⟩
  | cons p ps ih =>
    obtain ⟨b, hb⟩ := h p mem_cons_self
    obtain ⟨c, hc⟩ := ih (forall_mem_cons.mp h).2
    by_cases hu : b = u
    · exact ⟨c, evalChildrenRow_cons.mpr (.inr ⟨hu ▸ hb, hc⟩)⟩
    · exact ⟨!u, evalChildrenRow_cons.mpr (.inl ⟨Bool.eq_not.mpr hu ▸ hb, rfl⟩)⟩

theorem evalAll_ok (h : ∀ p ∈ ps, ∃ b, evalRow row p = .ok b) : ∃ b, evalAll row ps = .ok b :=
  evalChildrenRow_ok true h

theorem evalAny_ok (h : ∀ p ∈ ps, ∃ b, evalRow row p = .ok b) : ∃ b, evalAny row ps = .ok b :=
  evalChildrenRow_ok false h

theorem evalAll_true_iff : evalAll row ps = .ok true ↔ ∀ p ∈ ps, evalRow row p = .ok true := by
  induction ps with
  | nil => simp [evalAll]
  | cons p ps ih => simp [evalAll_cons, ih]

theorem evalAny_false_iff : evalAny row ps = .ok false ↔ ∀ p ∈ ps, evalRow row p = .ok false := by
  induction ps with
  | nil => simp [evalAny]
  | cons p ps ih => simp [evalAny_cons, ih]

end children

/-! ## leaves and bounds -/

variable {op : PredicateOperator}

section
variable {d min max : Datum} (hv : d.kind ≠ .variant) (hb : InBounds min max d)
include hv hb

theorem InBounds.places : Comparable min d ∧ Comparable d max ∧ min.place ≤ d.place ∧
    d.place ≤ max.place := by
  have hmin : Comparable min d := by
    have hk : min.kind = d.kind := by
      have := hb.1
      unfold cmpLe at this
      rcases Bool.or_eq_true_iff.mp this with h | h
      · exact kind_eq_of_cmp (beq_iff_eq.mp h)
      · exact kind_eq_of_cmp (beq_iff_eq.mp h)
    exact comparable_of_le (hk ▸ hv) hb.1
  have hmax : Comparable d max := comparable_of_le hv hb.2
  exact ⟨hmin, hmax, hmin.le_iff.mp hb.1, hmax.le_iff.mp hb.2⟩

variable {l : Datum}

theorem InBounds.within (h : datumEq d l = true) : withinBounds min max l = true := by
  obtain ⟨hmin, hmax, hlow, hhigh⟩ := hb.places hv
  have hdl : Comparable d l := comparable_of_cmp hv (beq_iff_eq.mp h)
  have hplace := hdl.eq_iff.mp h
  unfold withinBounds
  rw [Bool.and_eq_true, Bool.not_eq_true', Bool.not_eq_true', ← Bool.not_eq_true, ← Bool.not_eq_true,
    (hmin.trans hdl).symm.lt_iff, (hdl.symm.trans hmax).gt_iff, ← hplace]
  exact ⟨not_lt.mpr hlow, not_lt.mpr hhigh⟩

theorem InBounds.equal (h₁ : datumEq min l = true) (h₂ : datumEq max l = true) :
    datumEq d l = true := by
  obtain ⟨hmin, hmax, hlow, hhigh⟩ := hb.places hv
  have hml : Comparable min l :=
    comparable_of_cmp (hmin.kind ▸ hv) (beq_iff_eq.mp h₁)
  have hxl : Comparable max l := comparable_of_cmp (hmax.kind ▸ hv) (beq_iff_eq.mp h₂)
  rw [(hmin.symm.trans hml).eq_iff]
  exact le_antisymm (hhigh.trans (hxl.eq_iff.mp h₂).le) ((hml.eq_iff.mp h₁).ge.trans hlow)

theorem InBounds.boundsMayMatch (heval : evalValue op d (l :: literals) = .ok true) :
    Paimon.boundsMayMatch op (l :: literals) l min max = true := by
  obtain ⟨hmin, hmax, hlow, hhigh⟩ := hb.places hv
  have hok : ∀ {b : Bool}, (Except.ok b : Result Bool) = .ok true → b = true := fun h =>
    Except.ok.inj h
  cases op <;> try rfl
  case eq => exact hb.within hv (hok heval)
  case notEq =>
    have hne : datumEq d l = false := Bool.not_eq_true' _ |>.mp (hok heval)
    show (!(_ && _ && _)) = true
    rw [Bool.not_eq_true', Bool.and_assoc, Bool.and_eq_false_iff]
    refine .inr ?_
    rw [← Bool.not_eq_true, Bool.and_eq_true]
    rintro ⟨h₁, h₂⟩
    rw [hb.equal hv h₁ h₂] at hne
    exact nomatch hne
  case lt =>
    have hlt : cmpLt d l = true := hok heval
    have hdl := comparable_of_cmp hv (beq_iff_eq.mp hlt)
    show (!cmpGe min l) = true
    rw [Bool.not_eq_true', ← Bool.not_eq_true, (hmin.trans hdl).ge_iff, not_le]
    exact hlow.trans_lt (hdl.lt_iff.mp hlt)
  case ltEq =>
    have hle : cmpLe d l = true := hok heval
    have hdl := comparable_of_le hv hle
    show (!cmpGt min l) = true
    rw [Bool.not_eq_true', ← Bool.not_eq_true, (hmin.trans hdl).gt_iff, not_lt]
    exact hlow.trans (hdl.le_iff.mp hle)
  case gt =>
    have hgt : cmpGt d l = true := hok heval
    have hdl := comparable_of_cmp hv (beq_iff_eq.mp hgt)
    show (!cmpLe max l) = true
    rw [Bool.not_eq_true', ← Bool.not_eq_true, (hmax.symm.trans hdl).le_iff, not_le]
    exact (hdl.gt_iff.mp hgt).trans_le hhigh
  case gtEq =>
    have hge : cmpGe d l = true := hok heval
    have hdl : Comparable d l := by
      unfold cmpGe at hge
      rcases Bool.or_eq_true_iff.mp hge with h | h <;> exact comparable_of_cmp hv (beq_iff_eq.mp h)
    show (!cmpLt max l) = true
    rw [Bool.not_eq_true', ← Bool.not_eq_true, (hmax.symm.trans hdl).lt_iff, not_lt]
    exact (hdl.ge_iff.mp hge).trans hhigh
  case isIn =>
    obtain ⟨l', hl', heq⟩ := any_eq_true.mp (hok heval)
    show (if _ then true else (l :: literals).any (withinBounds min max)) = true
    split
    · rfl
    · exact any_eq_true.mpr ⟨l', hl', hb.within hv heq⟩
  case notIn =>
    have hnone : (l :: literals).any (fun l => datumEq d l) = false :=
      Bool.not_eq_true' _ |>.mp (hok heval)
    show (!(_ && (l :: literals).any fun l => datumEq min l && datumEq max l)) = true
    rw [Bool.not_eq_true', Bool.and_eq_false_iff]
    refine .inr (any_eq_false.mpr fun l' hl' h => ?_)
    obtain ⟨h₁, h₂⟩ := Bool.and_eq_true_iff.mp h
    exact any_eq_false.mp hnone l' hl' (hb.equal hv h₁ h₂)
  case startsWith =>
    obtain ⟨s, pat, rfl, hhead, hop⟩ := evalText_ok heval
    obtain rfl := Option.some.inj hhead
    obtain ⟨low, rfl⟩ := string_of_kind hmin.kind
    obtain ⟨high, rfl⟩ := string_of_kind hmax.kind.symm
    exact beginningMayMatch_sound (List.isPrefixOf_iff_prefix.mp hop) hb
  case like =>
    obtain ⟨s, pattern, rfl, hhead, hop⟩ := evalText_ok heval
    obtain rfl := Option.some.inj hhead
    obtain ⟨low, rfl⟩ := string_of_kind hmin.kind
    obtain ⟨high, rfl⟩ := string_of_kind hmax.kind.symm
    show (if _ then true else beginningMayMatch (likePatternLiteralPrefix pattern) low high) = true
    split
    · rfl
    · exact beginningMayMatch_sound (like_beginning hop) hb

variable {low high : Datum}

theorem InBounds.between (hge : cmpGe d low = true) (hle : cmpLe d high = true) :
    (!cmpLt max low && !cmpGt min high) = true := by
  have h₁ : Paimon.boundsMayMatch .gtEq [low] low min max = true :=
    hb.boundsMayMatch hv (congrArg Except.ok hge)
  have h₂ : Paimon.boundsMayMatch .ltEq [high] high min max = true :=
    hb.boundsMayMatch hv (congrArg Except.ok hle)
  exact Bool.and_eq_true_iff.mpr ⟨h₁, h₂⟩

theorem InBounds.notBetween (hl : low.kind = d.kind) (hlnan : low.isNan = false)
    (hh : high.kind = d.kind) (hhnan : high.isNan = false)
    (h : (cmpGe d low && cmpLe d high) = false) : (!(!cmpLt min low && !cmpGt max high)) = true := by
  obtain ⟨hmin, hmax, hlow, hhigh⟩ := hb.places hv
  have hdl : Comparable d low := ⟨hl.symm, hmin.right, hlnan, hv⟩
  have hdh : Comparable d high := ⟨hh.symm, hmin.right, hhnan, hv⟩
  rw [Bool.not_eq_true', ← Bool.not_eq_true, Bool.and_eq_true, Bool.not_eq_true', Bool.not_eq_true',
    ← Bool.not_eq_true, ← Bool.not_eq_true, (hmin.trans hdl).lt_iff, (hmax.symm.trans hdh).gt_iff,
    not_lt, not_lt]
  rintro ⟨hle₁, hle₂⟩
  rw [← Bool.not_eq_true, Bool.and_eq_true, hdl.ge_iff, hdh.le_iff] at h
  exact h ⟨hle₁.trans hlow, hhigh.trans hle₂⟩

end

/-- what statistics of a column say of one of its values -/
structure ValueCovered (stats : StatsAccessor) (index : Nat) (t : DataType) (v : Option Datum) :
    Prop where
  rows : 0 < stats.rowCount
  null : v = none → ∀ c, stats.nullCount index = some c → 0 < c
  value : ∀ d, v = some d → stats.nullCount index ≠ some stats.rowCount
  low : ∀ d min, v = some d → stats.minValue index t = some min → cmpLe min d = true
  high : ∀ d max, v = some d → stats.maxValue index t = some max → cmpLe d max = true

/-- literals of a range leaf are of the column's kind, and none is a NaN -/
def rangeOk (t : TypeRoot) (op : PredicateOperator) (literals : List Datum) : Prop :=
  op = .notBetween → ∀ l ∈ literals, t.literalKind = some l.kind ∧ l.isNan = false

variable {t : TypeRoot}

theorem literalKind_of_rowKind {k : DatumKind} (h : t.rowKind = some k)
    (hv : k ≠ .variant) : t.literalKind = some k := by
  cases t <;> first | exact h | cases h
  exact absurd rfl hv

theorem coerce_self (h : t.rowKind = some d.kind) (hv : d.kind ≠ .variant) :
    coerceStatsDatumForPredicate d t = some d := by
  cases t <;> cases d <;> first | rfl | exact absurd rfl hv | cases h

section
variable {stats : StatsAccessor} {index : Nat} {t dataType : DataType} {d : Datum}
  (hroot : dataType.root = t.root) (hkind : t.root.rowKind = some d.kind) (hv : d.kind ≠ .variant)
  (hcov : ValueCovered stats index t (some d))
include hroot hkind hv hcov

theorem ValueCovered.inBounds {min max : Datum} (hmin : lowerBound index t dataType stats = some min)
    (hmax : upperBound index t dataType stats = some max) : InBounds min max d := by
  have hcoerce : ∀ m m' : Datum, m.kind = d.kind →
      coerceStatsDatumForPredicate m dataType.root = some m' → m' = m := fun m m' hm h => by
    rw [hroot, coerce_self (hm ▸ hkind) (hm ▸ hv)] at h
    exact (Option.some.inj h).symm
  have hcmp : ∀ a b : Datum, cmpLe a b = true → a.kind = b.kind := fun a b h => by
    unfold cmpLe at h
    rcases Bool.or_eq_true_iff.mp h with h | h
    · exact kind_eq_of_cmp (beq_iff_eq.mp h)
    · exact kind_eq_of_cmp (beq_iff_eq.mp h)
  obtain ⟨m, hm, hmc⟩ := Option.bind_eq_some_iff.mp hmin
  obtain ⟨x, hx, hxc⟩ := Option.bind_eq_some_iff.mp hmax
  have hlow := hcov.low d m rfl hm
  have hhigh := hcov.high d x rfl hx
  rw [hcoerce m min (hcmp m d hlow) hmc, hcoerce x max (hcmp d x hhigh).symm hxc]
  exact ⟨hlow, hhigh⟩

theorem ValueCovered.notAllNull : (allNull index stats == some true) = false := by
  rw [beq_eq_false_iff_ne]
  intro h
  obtain ⟨c, hc, heq⟩ := Option.map_eq_some_iff.mp h
  exact hcov.value d rfl (by rw [hc, beq_iff_eq.mp heq])

theorem ValueCovered.literalMayMatch (heval : evalValue op d literals = .ok true) :
    Paimon.literalMayMatch index t dataType op literals stats = true := by
  unfold Paimon.literalMayMatch
  rw [hcov.notAllNull hroot hkind hv, if_neg Bool.false_ne_true]
  cases literals with
  | nil => rfl
  | cons l literals =>
    rw [head?_cons]
    split
    · next l' min max heq hmin hmax =>
      obtain rfl := Option.some.inj heq
      exact (hcov.inBounds hroot hkind hv hmin hmax).boundsMayMatch hv heval
    · rfl

theorem ValueCovered.betweenMayMatch (hop : op = .between ∨ op = .notBetween)
    (hrange : rangeOk t.root op literals)
    (heval : evalValue op d literals = .ok true) :
    Paimon.betweenMayMatch index t dataType op literals stats = true := by
  unfold Paimon.betweenMayMatch
  rw [hcov.notAllNull hroot hkind hv, if_neg Bool.false_ne_true]
  split
  · next low high rest =>
    split
    · next min max hmin hmax =>
      have hb := hcov.inBounds hroot hkind hv hmin hmax
      rcases hop with rfl | rfl
      · rw [if_pos rfl]
        obtain ⟨hge, hle⟩ := Bool.and_eq_true_iff.mp (Except.ok.inj heval)
        exact hb.between hv hge hle
      · rw [if_neg (by decide)]
        have hliteral : ∀ l ∈ low :: high :: rest, l.kind = d.kind ∧ l.isNan = false := fun l hl => by
          obtain ⟨hk, hnan⟩ := hrange rfl l hl
          rw [literalKind_of_rowKind hkind hv] at hk
          exact ⟨(Option.some.inj hk).symm, hnan⟩
        obtain ⟨hlk, hln⟩ := hliteral low mem_cons_self
        obtain ⟨hhk, hhn⟩ := hliteral high (mem_cons_of_mem low mem_cons_self)
        have hout : (cmpGe d low && cmpLe d high) = false :=
          Bool.not_eq_true' _ |>.mp (Except.ok.inj heval)
        exact hb.notBetween hv hlk hln hhk hhn hout
    · rfl
  · rfl

end

/-- **A leaf that holds on a value is not excluded by statistics that cover the value.** -/
theorem evalLeaf_mayMatch {stats : StatsAccessor} {index : Nat} {t dataType : DataType} {v : Option Datum}
    (hroot : dataType.root = t.root)
    (hkind : ∀ d, v = some d → t.root.rowKind = some d.kind ∧ d.kind ≠ .variant)
    (hcov : ValueCovered stats index t v) (hrange : rangeOk t.root op literals)
    (heval : evalLeaf op v literals = .ok true) :
    dataLeafMayMatch index t dataType op literals stats = true := by
  have hsafe : statsEvolutionIsSafe t dataType = true := by
    unfold statsEvolutionIsSafe DataType.equalsIgnoreNullable
    rw [hroot, beq_self_eq_true, Bool.true_or]
  unfold dataLeafMayMatch
  rw [if_neg (not_le.mpr hcov.rows), hsafe, Bool.not_true, if_neg Bool.false_ne_true]
  cases v with
  | none =>
    -- only IS NULL holds of NULL
    cases op
    case isNull =>
      cases hc : stats.nullCount index with
      | none => rfl
      | some c => exact decide_eq_true (hcov.null rfl c hc)
    all_goals cases heval
  | some d =>
    obtain ⟨hk, hv⟩ := hkind d rfl
    have hnull : (allNull index stats != some true) = true := by
      rw [bne, hcov.notAllNull hroot hk hv, Bool.not_false]
    cases op
    case isNull => exact nomatch Except.ok.inj heval
    case isNotNull => exact hnull
    case arrayContains => exact hnull
    case arrayContainsAll => exact hnull
    case arraysOverlap => exact nomatch heval
    case endsWith => rfl
    case contains => rfl
    case between => exact hcov.betweenMayMatch hroot hk hv (.inl rfl) hrange heval
    case notBetween => exact hcov.betweenMayMatch hroot hk hv (.inr rfl) hrange heval
    case isIn =>
      dsimp only
      split
      · exact hcov.literalMayMatch hroot hk hv heval
      · rfl
    all_goals exact hcov.literalMayMatch hroot hk hv heval

end Paimon
