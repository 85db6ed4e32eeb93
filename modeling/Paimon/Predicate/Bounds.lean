import Paimon.Predicate.Stats
import Paimon.Arrow.Comparison

/-!
# What bounds say about a value between them

One leaf, one value `d` of the column at the type of the predicate, and bounds that hold `d`
between them (`InBounds`); only the bounds of NaN rows say nothing.

* `boundsMayMatch_sound`: a leaf that holds on the value is not excluded;
* `boundsMustMatch_sound`: a leaf that the bounds force holds on the value.

Both need what `leafCovered` says of the leaf: no order comparison of floats, and range literals of
the column's kind.
-/

set_option linter.unusedSectionVars false

namespace Paimon

open List

/-! ## comparisons by rank -/

section
variable {a b : Datum} (ha : a.kind.ordered = true)
include ha

theorem cmpLt_iff : cmpLt a b = true ↔ a.kind = b.kind ∧ a.rank < b.rank := by
  rw [cmpLt, datumCmp_eq ha, beq_iff_eq]
  split <;> simp [*, compare_lt_iff_lt]

theorem cmpGt_iff : cmpGt a b = true ↔ a.kind = b.kind ∧ b.rank < a.rank := by
  rw [cmpGt, datumCmp_eq ha, beq_iff_eq]
  split <;> simp [*, compare_gt_iff_gt]

theorem datumEq_iff : datumEq a b = true ↔ a.kind = b.kind ∧ a.rank = b.rank := by
  rw [datumEq, datumCmp_eq ha, beq_iff_eq]
  split <;> simp [*]

theorem cmpLe_iff : cmpLe a b = true ↔ a.kind = b.kind ∧ a.rank ≤ b.rank := by
  rw [le_iff_lt_or_eq, and_or_left, ← cmpLt_iff ha, ← datumEq_iff ha, ← Bool.or_eq_true]
  rfl

theorem cmpGe_iff : cmpGe a b = true ↔ a.kind = b.kind ∧ b.rank ≤ a.rank := by
  rw [le_iff_lt_or_eq, and_or_left, eq_comm (a := b.rank), ← cmpGt_iff ha, ← datumEq_iff ha,
    ← Bool.or_eq_true]
  rfl

end

def InBounds (min max d : Datum) : Prop := cmpLe min d = true ∧ cmpLe d max = true

instance instDecidableInBounds (min max d : Datum) : Decidable (InBounds min max d) :=
  inferInstanceAs (Decidable (_ ∧ _))

theorem InBounds.ranks {min max d : Datum} (hd : d.kind.ordered = true) (h : InBounds min max d) :
    min.kind = d.kind ∧ max.kind = d.kind ∧ min.rank ≤ d.rank ∧ d.rank ≤ max.rank := by
  obtain ⟨hk, hmax⟩ := (cmpLe_iff hd).mp h.2
  have hmk : min.kind = d.kind := by
    have := h.1
    unfold cmpLe at this
    rcases Bool.or_eq_true_iff.mp this with h | h
    · exact kind_eq_of_cmp (beq_iff_eq.mp h)
    · exact kind_eq_of_cmp (beq_iff_eq.mp h)
  exact ⟨hmk, hk.symm, ((cmpLe_iff (hmk ▸ hd)).mp h.1).2, hmax⟩

/-! ## beginnings of texts -/

theorem textCmp_eq (a b : Text) :
    textCmp a b = compare (Datum.string a).rank (Datum.string b).rank := lexNat_eq _ _

theorem rank_string (v : Text) : (Datum.string v).rank = Compare.toLexList (v.map fun c => (c.toNat : ℚ)) :=
  congrArg Compare.toLexList (map_map ..)

theorem charFromU32_toNat {code : Nat} {c : Char} (h : charFromU32 code = some c) : c.toNat = code := by
  unfold charFromU32 at h
  split at h
  · rename_i hv
    cases h
    rw [Char.toNat_ofNat, if_pos hv]
  · cases h

theorem rank_le_of_beginning {pat s : Text} (h : pat <+: s) :
    (Datum.string pat).rank ≤ (Datum.string s).rank := by
  obtain ⟨rest, rfl⟩ := h
  rw [rank_string, rank_string, map_append]
  exact Compare.toLexList_le_append _ _

theorem rank_lt_next {pat s next : Text} (h : pat <+: s) (hn : nextStringForPrefix pat = some next) :
    (Datum.string s).rank < (Datum.string next).rank := by
  obtain ⟨rest, rfl⟩ := h
  unfold nextStringForPrefix at hn
  split at hn
  · cases hn
  rename_i last hlast
  obtain ⟨c, hc, rfl⟩ := Option.map_eq_some_iff.mp hn
  have hlt : last.toNat < c.toNat := by
    rw [charFromU32_toNat hc]
    split <;> omega
  have hpat : pat = pat.dropLast ++ [last] := by
    rw [← dropLast_append_getLast? last hlast]
    simp
  rw [hpat, dropLast_concat]
  rw [rank_string, rank_string]
  simp only [map_append, map_cons, map_nil, append_assoc, cons_append]
  exact Compare.toLexList_append_lt (Nat.cast_lt.mpr hlt) _ _ _

theorem beginningMayMatch_sound {pat s low high : Text} (h : pat <+: s)
    (hb : InBounds (.string low) (.string high) (.string s)) :
    beginningMayMatch pat low high = true := by
  obtain ⟨-, -, hlow, hhigh⟩ := hb.ranks rfl
  have hpat := rank_le_of_beginning h
  unfold beginningMayMatch
  rw [if_neg]
  · split
    · rename_i next hnext
      rw [textCmp_eq, beq_iff_eq, compare_lt_iff_lt]
      exact lt_of_le_of_lt hlow (rank_lt_next h hnext)
    · rfl
  · rw [textCmp_eq, beq_iff_eq, compare_lt_iff_lt]
    exact not_lt_of_ge (hpat.trans hhigh)

theorem matchTokens_char {c : Char} {ts : List LikeToken} {s : Text}
    (h : matchTokens (.char c :: ts) s = true) : ∃ xs, s = c :: xs ∧ matchTokens ts xs = true := by
  unfold matchTokens at h
  split at h
  · cases h
  · rename_i x xs
    obtain ⟨hx, h⟩ := Bool.and_eq_true_iff.mp h
    exact ⟨xs, by rw [beq_iff_eq.mp hx], h⟩

theorem like_beginning {pattern s : Text} (h : matchTokens (likeTokens pattern) s = true) :
    likePatternLiteralPrefix pattern <+: s := by
  fun_induction likePatternLiteralPrefix pattern generalizing s with
  | case1 | case2 | case3 => exact nil_prefix
  | case4 =>
    obtain ⟨xs, rfl, -⟩ := matchTokens_char h
    exact prefix_append ['\\'] xs
  | case5 c rest ih =>
    obtain ⟨xs, rfl, hrest⟩ := matchTokens_char h
    exact cons_prefix_cons.mpr ⟨rfl, ih hrest⟩
  | case6 c rest h1 h2 h3 h4 ih =>
    have htokens : likeTokens (c :: rest) = .char c :: likeTokens rest := by
      rw [likeTokens] <;> assumption
    rw [htokens] at h
    obtain ⟨xs, rfl, hrest⟩ := matchTokens_char h
    exact cons_prefix_cons.mpr ⟨rfl, ih hrest⟩

/-! ## literals equal to the value -/

variable {t : TypeRoot} {k : DatumKind}

theorem literalKind_ordered_or_float (h : t.literalKind = some k) :
    k.ordered = true ∨ k.isFloat = true := by
  cases t <;> cases h <;> first | exact .inl rfl | exact .inr rfl

theorem datumCmp_congr {d l : Datum} (hd : Value.ofType t (.scalar d) = true)
    (h : exactCmp t (.scalar d) l = some .eq) (hk : l.kind = d.kind) (m : Datum) :
    datumCmp l m = datumCmp d m := by
  rcases literalKind_ordered_or_float (literalKind_of_type hd) with hord | hfloat
  · have heq := compare_eq_iff_eq.mp (exactCmp_rank hd hord h hk).symm
    rw [datumCmp_eq (hk ▸ hord), datumCmp_eq hord, hk, heq]
  · rw [exactCmp_float hd hfloat h hk]

variable {a b : Datum}

theorem cmpLe_swap (h : cmpLe a b = true) : cmpLt b a = false := by
  unfold cmpLe at h
  rw [cmpLt, datumCmp_swap a b]
  rcases Bool.or_eq_true_iff.mp h with h | h <;> rw [beq_iff_eq.mp h] <;> rfl

theorem cmpLe_not_gt (h : cmpLe a b = true) : cmpGt a b = false := by
  unfold cmpLe at h
  rw [cmpGt]
  rcases Bool.or_eq_true_iff.mp h with h | h <;> rw [beq_iff_eq.mp h] <;> rfl

variable {d : Datum}

theorem datumCmp_nan (h : d.isNan = true) (m : Datum) : datumCmp d m = none := by
  cases d <;> first | cases h | skip
  all_goals
    cases m <;> try rfl
    show (if _ then none else _) = none
    rw [if_pos]
    rw [Bool.or_eq_true]
    exact .inl h

section
variable {α : Type*} [LinearOrder α] {x y : α}

theorem comparison_lt : comparison .lt (compare x y) = some true ↔ x < y := by
  rw [← compare_lt_iff_lt, comparison, Option.some_inj, beq_iff_eq]

theorem comparison_gt : comparison .gt (compare x y) = some true ↔ y < x := by
  rw [← compare_gt_iff_gt, comparison, Option.some_inj, beq_iff_eq]

theorem comparison_ltEq : comparison .ltEq (compare x y) = some true ↔ x ≤ y := by
  rw [← compare_le_iff_le, comparison, Option.some_inj, bne_iff_ne]

theorem comparison_gtEq : comparison .gtEq (compare x y) = some true ↔ y ≤ x := by
  rw [← compare_ge_iff_ge, comparison, Option.some_inj, bne_iff_ne]

end

/-! ## what the leaf must be like -/

def PredicateOperator.isRange : PredicateOperator → Bool
  | .between => true
  | .notBetween => true
  | _ => false

def PredicateOperator.isOrdering : PredicateOperator → Bool
  | .lt => true
  | .ltEq => true
  | .gt => true
  | .gtEq => true
  | .between => true
  | .notBetween => true
  | _ => false

/-- floats are not compared by order, and range literals are of the column's kind -/
def leafCovered (t : TypeRoot) (op : PredicateOperator) (literals : List Datum) : Bool :=
  !(op.isOrdering && t.isFloat) &&
    (!op.isRange || literals.all fun l => t.literalKind == some l.kind)

variable {op : PredicateOperator} {literals : List Datum}

theorem ordered_of_covered
    (hk : t.literalKind = some k) (h : leafCovered t op literals = true)
    (hop : op.isOrdering = true) : k.ordered = true := by
  have hfloat : t.isFloat = false := by
    have := (Bool.and_eq_true_iff.mp h).1
    rw [hop, Bool.true_and, Bool.not_eq_true'] at this
    exact this
  cases t <;> cases hk <;> first | rfl | cases hfloat

variable {l : Datum}

theorem kind_of_covered
    (hk : t.literalKind = some k) (h : leafCovered t op literals = true)
    (hop : op.isRange = true) (hl : l ∈ literals) : l.kind = k := by
  have := (Bool.and_eq_true_iff.mp h).2
  rw [hop, Bool.not_true, Bool.false_or] at this
  have := beq_iff_eq.mp (all_eq_true.mp this l hl)
  rw [hk] at this
  exact (Option.some_inj.mp this).symm

/-! ## bounds and the value between them -/

section
variable {t : TypeRoot} {d min max : Datum} (hd : Value.ofType t (.scalar d) = true)
  (hmin : min.kind = d.kind) (hmax : max.kind = d.kind)
  (hbounds : d.isNan = false → InBounds min max d)

theorem notNan_of_ordered (h : d.kind.ordered = true) : d.isNan = false := by
  cases d <;> first | rfl | cases h

include hd hmin hmax hbounds

/-- **A literal equal to a value is not outside the bounds.** -/
theorem withinBounds_of_equal (h : exactCmp t (.scalar d) l = some .eq) : withinBounds min max l = true := by
  -- a literal of another kind compares with neither bound
  have key : ∀ m o, m.kind = d.kind → datumCmp l m = some o → datumCmp d m = some o := by
    intro m o hm ho
    rw [← datumCmp_congr hd h ((kind_eq_of_cmp ho).trans hm) m]
    exact ho
  have hnan : ∀ m o, datumCmp d m = some o → d.isNan = false := by
    intro m o ho
    by_contra hnan
    rw [datumCmp_nan (Bool.eq_true_of_not_eq_false hnan)] at ho
    cases ho
  unfold withinBounds
  rw [Bool.and_eq_true_iff, Bool.not_eq_true', Bool.not_eq_true']
  constructor
  · by_contra hlt
    have hcmp := key min .lt hmin (beq_iff_eq.mp (Bool.eq_true_of_not_eq_false hlt))
    have hle := cmpLe_swap (hbounds (hnan _ _ hcmp)).1
    rw [cmpLt, hcmp] at hle
    cases hle
  · by_contra hgt
    have hcmp := key max .gt hmax (beq_iff_eq.mp (Bool.eq_true_of_not_eq_false hgt))
    have hle := cmpLe_not_gt (hbounds (hnan _ _ hcmp)).2
    rw [cmpGt, hcmp] at hle
    cases hle

omit hmin hmax in
theorem ranks_of_bounds (hord : d.kind.ordered = true) : min.rank ≤ d.rank ∧ d.rank ≤ max.rank :=
  ((hbounds (notNan_of_ordered hord)).ranks hord).2.2

omit hmax hbounds in
theorem ordered_of_exclusion (hsound : equalityExclusionIsSound min = true) : d.kind.ordered = true := by
  refine (literalKind_ordered_or_float (literalKind_of_type hd)).resolve_right fun hf => ?_
  rw [equalityExclusionIsSound, hmin, hf] at hsound
  cases hsound

variable {o : Ordering}

theorem equal_of_both (hsound : equalityExclusionIsSound min = true)
    (h1 : datumEq min l = true) (h2 : datumEq max l = true)
    (ho : exactCmp t (.scalar d) l = some o) : o = .eq := by
  have hord := ordered_of_exclusion hd hmin hsound
  obtain ⟨hlow, hhigh⟩ := ranks_of_bounds hd hbounds hord
  obtain ⟨hk, h1⟩ := (datumEq_iff (hmin ▸ hord)).mp h1
  obtain ⟨-, h2⟩ := (datumEq_iff (hmax ▸ hord)).mp h2
  rw [exactCmp_rank hd hord ho (hk.symm.trans hmin), compare_eq_iff_eq]
  exact le_antisymm (h2 ▸ hhigh) (h1 ▸ hlow)

variable {op : PredicateOperator} {literals : List Datum}

theorem ordering_ranks (hcov : leafCovered t op literals = true) (hop : op.isOrdering = true)
    (ho : exactCmp t (.scalar d) l = some o) : d.kind.ordered = true ∧ min.rank ≤ d.rank ∧ d.rank ≤ max.rank ∧
      ∀ m : Datum, m.kind = d.kind → m.kind = l.kind → o = compare d.rank l.rank := by
  have hord := ordered_of_covered (literalKind_of_type hd) hcov hop
  obtain ⟨hlow, hhigh⟩ := ranks_of_bounds hd hbounds hord
  exact ⟨hord, hlow, hhigh, fun m hm hk => exactCmp_rank hd hord ho (hk.symm.trans hm)⟩

theorem ordering_may (hcov : leafCovered t op literals = true) (hop : op.isOrdering = true)
    (ho : exactCmp t (.scalar d) l = some o) (hb : comparison op o = some true) :
    boundsMayMatch op literals l min max = true := by
  obtain ⟨hord, hlow, hhigh, hrank⟩ := ordering_ranks hd hmin hmax hbounds hcov hop ho
  cases op <;> first | rfl | exact absurd hop Bool.false_ne_true | skip
  all_goals refine (Bool.not_eq_true' _).mpr (Bool.eq_false_of_not_eq_true fun hc => ?_)
  case lt =>
    obtain ⟨hk, hr⟩ := (cmpGe_iff (hmin ▸ hord)).mp hc
    rw [hrank min hmin hk, comparison_lt] at hb
    exact absurd hb (not_lt_of_ge (hr.trans hlow))
  case ltEq =>
    obtain ⟨hk, hr⟩ := (cmpGt_iff (hmin ▸ hord)).mp hc
    rw [hrank min hmin hk, comparison_ltEq] at hb
    exact absurd hb (not_le_of_gt (lt_of_lt_of_le hr hlow))
  case gt =>
    obtain ⟨hk, hr⟩ := (cmpLe_iff (hmax ▸ hord)).mp hc
    rw [hrank max hmax hk, comparison_gt] at hb
    exact absurd hb (not_lt_of_ge (hhigh.trans hr))
  case gtEq =>
    obtain ⟨hk, hr⟩ := (cmpLt_iff (hmax ▸ hord)).mp hc
    rw [hrank max hmax hk, comparison_gtEq] at hb
    exact absurd hb (not_le_of_gt (lt_of_le_of_lt hhigh hr))

variable {literal : Datum}

theorem text_may (hop : op = .startsWith ∨ op = .like)
    (h : evaluateExactLeaf t (some (.scalar d)) op literals = some true)
    (hl : literals.head? = some literal) :
    boundsMayMatch op literals literal min max = true := by
  -- only texts are excluded
  cases literal <;> try (rcases hop with rfl | rfl <;> rfl)
  case string p =>
    cases min <;> try (rcases hop with rfl | rfl <;> rfl)
    case string low =>
      cases max <;> try (rcases hop with rfl | rfl <;> rfl)
      case string high =>
        cases d <;> cases hmin
        case string.refl s =>
          have hmatch := text_leaf hop hd hl h
          have hin := hbounds rfl
          rcases hop with rfl | rfl
          · have hp : p <+: s := isPrefixOf_iff_prefix.mp (Option.some_inj.mp hmatch)
            exact beginningMayMatch_sound hp hin
          · have hp := like_beginning (Option.some_inj.mp hmatch)
            show (if _ then true else _) = true
            split
            · rfl
            · exact beginningMayMatch_sound hp hin

/-- **A leaf that holds on a value is not excluded by its bounds.** -/
theorem boundsMayMatch_sound (hcov : leafCovered t op literals = true)
    (h : evaluateExactLeaf t (some (.scalar d)) op literals = some true)
    (hl : literals.head? = some literal) :
    boundsMayMatch op literals literal min max = true := by
  -- the ordering of the value and the first literal, for the comparisons
  have hfirst : op.isComparison = true → ∃ o, exactCmp t (.scalar d) literal = some o ∧
      comparison op o = some true := by
    intro hop
    obtain ⟨l, o, hl', ho, hb⟩ := comparison_leaf hop h
    cases hl.symm.trans hl'
    exact ⟨o, ho, hb⟩
  cases op <;> try rfl
  case eq =>
    obtain ⟨o, ho, hb⟩ := hfirst rfl
    have hoeq : o = .eq := beq_iff_eq.mp (Option.some_inj.mp hb)
    exact withinBounds_of_equal hd hmin hmax hbounds (hoeq ▸ ho)
  case notEq =>
    obtain ⟨o, ho, hb⟩ := hfirst rfl
    refine Bool.not_eq_true' _ ▸ Bool.eq_false_of_not_eq_true fun hc => ?_
    obtain ⟨hc, h2⟩ := Bool.and_eq_true_iff.mp hc
    obtain ⟨hsound, h1⟩ := Bool.and_eq_true_iff.mp hc
    rw [equal_of_both hd hmin hmax hbounds hsound h1 h2 ho] at hb
    cases hb
  case isIn =>
    have hany : true = anyEqual t (.scalar d) literals := membership_leaf (.inl rfl) h
    obtain ⟨l, hmem, heq⟩ := any_eq_true.mp hany.symm
    show (if _ then true else literals.any (withinBounds min max)) = true
    split
    · rfl
    · exact any_eq_true.mpr ⟨l, hmem, withinBounds_of_equal hd hmin hmax hbounds (beq_iff_eq.mp heq)⟩
  case notIn =>
    have hany : true = !anyEqual t (.scalar d) literals := membership_leaf (.inr rfl) h
    refine Bool.not_eq_true' _ ▸ Bool.eq_false_of_not_eq_true fun hc => ?_
    obtain ⟨hsound, hc⟩ := Bool.and_eq_true_iff.mp hc
    obtain ⟨l, hmem, hc⟩ := any_eq_true.mp hc
    obtain ⟨h1, h2⟩ := Bool.and_eq_true_iff.mp hc
    have hnone : anyEqual t (.scalar d) literals = false := Bool.not_eq_true' _ ▸ hany.symm
    rcases membership_compares (.inr rfl) h with hfound | hcmp
    · rw [hnone] at hfound
      cases hfound
    · obtain ⟨o, ho⟩ := hcmp l hmem
      have heq := equal_of_both hd hmin hmax hbounds hsound h1 h2 ho
      exact absurd (beq_iff_eq.mpr (heq ▸ ho)) (any_eq_false.mp hnone l hmem)
  case startsWith => exact text_may hd hmin hmax hbounds (.inl rfl) h hl
  case like => exact text_may hd hmin hmax hbounds (.inr rfl) h hl
  all_goals
    obtain ⟨o, ho, hb⟩ := hfirst rfl
    exact ordering_may hd hmin hmax hbounds hcov rfl ho hb

variable {b : Bool}

theorem range_leaf (hop : op = .between ∨ op = .notBetween) (hcov : leafCovered t op literals = true)
    (h : evaluateExactLeaf t (some (.scalar d)) op literals = some b) :
    ∃ low high rest, literals = low :: high :: rest ∧ low.kind = d.kind ∧ high.kind = d.kind ∧
      d.kind.ordered = true ∧
      (b = true ↔ if op = .between then low.rank ≤ d.rank ∧ d.rank ≤ high.rank
        else ¬(low.rank ≤ d.rank ∧ d.rank ≤ high.rank)) := by
  have hkind := literalKind_of_type hd
  have hord : d.kind.ordered = true := by
    rcases hop with rfl | rfl
    · exact ordered_of_covered hkind hcov rfl
    · exact ordered_of_covered hkind hcov rfl
  obtain ⟨low, high, rest, ol, oh, rfl, hol, hoh, rfl⟩ := between_leaf hop h
  have hk : ∀ l ∈ low :: high :: rest, l.kind = d.kind := fun l hl => by
    rcases hop with rfl | rfl
    · exact kind_of_covered hkind hcov rfl hl
    · exact kind_of_covered hkind hcov rfl hl
  have hlow := hk low mem_cons_self
  have hhigh := hk high (mem_cons_of_mem _ mem_cons_self)
  refine ⟨low, high, rest, rfl, hlow, hhigh, hord, ?_⟩
  rw [exactCmp_rank hd hord hol hlow, exactCmp_rank hd hord hoh hhigh]
  have hwithin : (compare d.rank low.rank != .lt && compare d.rank high.rank != .gt) = true ↔
      low.rank ≤ d.rank ∧ d.rank ≤ high.rank := by
    rw [Bool.and_eq_true_iff, bne_iff_ne, bne_iff_ne, compare_ge_iff_ge, compare_le_iff_le]
  rcases hop with rfl | rfl
  · exact hwithin
  · show (!_) = true ↔ ¬_
    rw [← hwithin, Bool.not_eq_true', Bool.not_eq_true]

theorem range_may (hop : op = .between ∨ op = .notBetween) {low high : Datum} {rest : List Datum}
    (hcov : leafCovered t op (low :: high :: rest) = true)
    (h : evaluateExactLeaf t (some (.scalar d)) op (low :: high :: rest) = some true) :
    (if op = .between then !cmpLt max low && !cmpGt min high
      else !(!cmpLt min low && !cmpGt max high)) = true := by
  obtain ⟨_, _, _, heq, hlow, hhigh, hord, hb⟩ := range_leaf hd hmin hmax hbounds hop hcov h
  cases heq
  obtain ⟨hmind, hdmax⟩ := ranks_of_bounds hd hbounds hord
  have hb := hb.mp rfl
  rcases hop with rfl | rfl
  · obtain ⟨h1, h2⟩ := hb
    simp only [if_true, Bool.and_eq_true_iff, Bool.not_eq_true', ← Bool.not_eq_true,
      cmpLt_iff (hmax ▸ hord : max.kind.ordered = true),
      cmpGt_iff (hmin ▸ hord : min.kind.ordered = true), not_and, not_lt]
    exact ⟨fun _ => h1.trans hdmax, fun _ => hmind.trans h2⟩
  · have hb : ¬(low.rank ≤ d.rank ∧ d.rank ≤ high.rank) := hb
    simp only [reduceCtorEq, if_false, Bool.not_eq_true', Bool.and_eq_false_iff,
      Bool.not_eq_false', cmpLt_iff (hmin ▸ hord : min.kind.ordered = true),
      cmpGt_iff (hmax ▸ hord : max.kind.ordered = true)]
    by_contra hc
    push Not at hc
    refine hb ⟨?_, ?_⟩
    · exact (hc.1 (hmin.trans hlow.symm)).trans hmind
    · exact hdmax.trans (hc.2 (hmax.trans hhigh.symm))

theorem ordering_must (hcov : leafCovered t op literals = true) (hop : op.isOrdering = true)
    (hcmp : op.isComparison = true) (hl : literals.head? = some l)
    (ho : exactCmp t (.scalar d) l = some o) (hmust : boundsMustMatch op literals min max = true) :
    comparison op o = some true := by
  obtain ⟨hord, hlow, hhigh, hrank⟩ := ordering_ranks hd hmin hmax hbounds hcov hop ho
  cases op <;> simp only [boundsMustMatch, hl, Option.any_some] at hmust
  case lt =>
    obtain ⟨hk, hr⟩ := (cmpLt_iff (hmax ▸ hord)).mp hmust
    rw [hrank max hmax hk, comparison_lt]
    exact lt_of_le_of_lt hhigh hr
  case ltEq =>
    obtain ⟨hk, hr⟩ := (cmpLe_iff (hmax ▸ hord)).mp hmust
    rw [hrank max hmax hk, comparison_ltEq]
    exact hhigh.trans hr
  case gt =>
    obtain ⟨hk, hr⟩ := (cmpGt_iff (hmin ▸ hord)).mp hmust
    rw [hrank min hmin hk, comparison_gt]
    exact lt_of_lt_of_le hr hlow
  case gtEq =>
    obtain ⟨hk, hr⟩ := (cmpGe_iff (hmin ▸ hord)).mp hmust
    rw [hrank min hmin hk, comparison_gtEq]
    exact hr.trans hlow
  all_goals first | exact absurd hop Bool.false_ne_true | cases hcmp

theorem range_must (hop : op = .between ∨ op = .notBetween) (hcov : leafCovered t op literals = true)
    (h : evaluateExactLeaf t (some (.scalar d)) op literals = some b)
    (hmust : boundsMustMatch op literals min max = true) : b = true := by
  obtain ⟨low, high, rest, rfl, hlow, hhigh, hord, hb⟩ :=
    range_leaf hd hmin hmax hbounds hop hcov h
  obtain ⟨hmind, hdmax⟩ := ranks_of_bounds hd hbounds hord
  rw [hb]
  rcases hop with rfl | rfl
  · simp only [boundsMustMatch, Bool.and_eq_true_iff, Bool.not_eq_true', ← Bool.not_eq_true,
      cmpLt_iff (hmin ▸ hord : min.kind.ordered = true),
      cmpGt_iff (hmax ▸ hord : max.kind.ordered = true), not_and, not_lt] at hmust
    exact ⟨(hmust.1 (hmin.trans hlow.symm)).trans hmind, hdmax.trans (hmust.2 (hmax.trans hhigh.symm))⟩
  · simp only [boundsMustMatch, Bool.or_eq_true_iff, cmpLt_iff (hmax ▸ hord : max.kind.ordered = true),
      cmpGt_iff (hmin ▸ hord : min.kind.ordered = true)] at hmust
    show ¬_
    rintro ⟨h1, h2⟩
    rcases hmust with ⟨-, hr⟩ | ⟨-, hr⟩
    · exact absurd (h1.trans hdmax) (not_le_of_gt hr)
    · exact absurd (hmind.trans h2) (not_le_of_gt hr)

/-- **A leaf that the bounds force holds on the value.** -/
theorem boundsMustMatch_sound (hcov : leafCovered t op literals = true)
    (h : evaluateExactLeaf t (some (.scalar d)) op literals = some b)
    (hmust : boundsMustMatch op literals min max = true) : b = true := by
  have hordering : op.isOrdering = true → op.isComparison = true → b = true := by
    intro hop hcmp
    obtain ⟨l, o, hl, ho, hb⟩ := comparison_leaf hcmp h
    rw [ordering_must hd hmin hmax hbounds hcov hop hcmp hl ho hmust] at hb
    exact (Option.some_inj.mp hb).symm
  cases op
  case eq =>
    obtain ⟨l, o, hl, ho, hb⟩ := comparison_leaf rfl h
    simp only [boundsMustMatch, hl, Option.any_some, Bool.and_eq_true_iff] at hmust
    rw [equal_of_both hd hmin hmax hbounds hmust.1 hmust.2.1 hmust.2.2 ho] at hb
    exact (Option.some_inj.mp hb).symm
  case notEq =>
    obtain ⟨l, o, hl, ho, hb⟩ := comparison_leaf rfl h
    simp only [boundsMustMatch, hl, Option.any_some, Bool.or_eq_true_iff] at hmust
    rw [← Option.some_inj.mp hb, bne_iff_ne]
    rintro rfl
    have hwithin := withinBounds_of_equal hd hmin hmax hbounds ho
    unfold withinBounds at hwithin
    rcases hmust with hc | hc <;> rw [hc] at hwithin <;> simp at hwithin
  case isIn =>
    have hb : b = anyEqual t (.scalar d) literals := membership_leaf (.inl rfl) h
    rcases membership_compares (.inl rfl) h with hfound | hcmp
    · rw [hb, hfound]
    obtain ⟨hmust, hany⟩ := Bool.and_eq_true_iff.mp hmust
    obtain ⟨hsound, hboth⟩ := Bool.and_eq_true_iff.mp hmust
    obtain ⟨l, hmem, heq⟩ := any_eq_true.mp hany
    obtain ⟨o, ho⟩ := hcmp l hmem
    have hord := ordered_of_exclusion hd hmin hsound
    obtain ⟨hmm, hmmr⟩ := (datumEq_iff (hmin ▸ hord)).mp hboth
    have hlk : l.kind = min.kind := kind_eq_of_cmp (beq_iff_eq.mp heq)
    have hlr := ((datumEq_iff (hlk ▸ hmin ▸ hord)).mp heq).2
    have h1 : datumEq min l = true := (datumEq_iff (hmin ▸ hord)).mpr ⟨hlk.symm, hlr.symm⟩
    have h2 : datumEq max l = true :=
      (datumEq_iff (hmax ▸ hord)).mpr ⟨hmm.symm.trans hlk.symm, (hlr.trans hmmr).symm⟩
    rw [equal_of_both hd hmin hmax hbounds hsound h1 h2 ho] at ho
    rw [hb]
    exact any_eq_true.mpr ⟨l, hmem, beq_iff_eq.mpr ho⟩
  case between => exact range_must hd hmin hmax hbounds (.inl rfl) hcov h hmust
  case notBetween => exact range_must hd hmin hmax hbounds (.inr rfl) hcov h hmust
  case lt => exact hordering rfl rfl
  case ltEq => exact hordering rfl rfl
  case gt => exact hordering rfl rfl
  case gtEq => exact hordering rfl rfl
  all_goals cases hmust

end

end Paimon
