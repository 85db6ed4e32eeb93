import Paimon.BTree.CompositePredicate
import Paimon.Lib.Traverse

/-!
# What a composite plan covers

A row is a value, possibly NULL, for every column name; its tuple has the values of the index
fields.  Step by step through `plan`:

* `asLeaf_spec`: a conjunct and the leaf made of it have one value;
* `Accepts column c`: all conjuncts on a column, as a condition on the place of its component;
* `domain_iff`: the values enumerated for a column are those all its conjuncts accept;
* `scanFields_spec`: the beginnings enumerated are those all conjuncts on the leading columns accept;
* `interval_iff`: a key lies in the interval of a beginning iff it begins with it and the range conjuncts
  accept its next component.

`composite_plan_exact` puts them together.
-/

set_option linter.unusedSectionVars false

namespace Paimon.BTree

open List

/-! ## rows and conjuncts -/

abbrev Row := String → Option Datum

/-- an evaluation of leaves that is `evalLeaf` on the operators a plan uses, whatever it is on the
others -/
def Agrees (leaf : LeafEval) (row : Row) : Prop :=
  ∀ (column : String) (index : Nat) (t : DataType) (op : PredicateOperator) (literals : List Datum),
    supported op = true → leaf column index t op literals = (evalLeaf op (row column) literals).toOption

structure LeafFit (q : Leaf) : Prop where
  op : supported q.op = true
  count : literalCountOk q.op q.literals.length = true
  literals : ∀ l ∈ q.literals, datumMatchesType l q.dataType.root = true

def oneOf (v : Option Datum) (literals : List Datum) : Bool :=
  v.any fun d => literals.any fun l => datumEq d l

theorem evalLeaf_oneOf {op : PredicateOperator} (hop : op = .eq ∨ op = .isIn) {literals : List Datum}
    (hcount : literalCountOk op literals.length = true) (v : Option Datum) :
    evalLeaf op v literals = .ok (oneOf v literals) := by
  rcases hop with rfl | rfl
  · obtain ⟨l, rfl⟩ := length_eq_one_iff.mp (beq_iff_eq.mp hcount)
    cases v with
    | none => rfl
    | some d => exact congrArg Except.ok (Bool.or_false _).symm
  · cases v <;> rfl

theorem oneOf_append (v : Option Datum) (l l' : List Datum) :
    oneOf v (l ++ l') = (oneOf v l || oneOf v l') := by
  cases v with
  | none => rfl
  | some d => exact any_append

variable {q : Leaf}

section
variable {leaf : LeafEval} {row : Row}

/-- the literals of a leaf are literals of the conjunct, and both have one value -/
structure LeafOf (leaf : LeafEval) (row : Row) (p : Predicate) (q : Leaf) : Prop where
  fit : LeafFit q
  from_conjunct : ∀ P : Datum → Prop, p.Leaves (fun _ _ _ _ literals => ∀ l ∈ literals, P l) → ∀ l ∈ q.literals, P l
  eval : p.eval leaf = (evalLeaf q.op (row q.column) q.literals).toOption

theorem asLeafOr_spec {children : List Predicate}
    (ih : ∀ c ∈ children, ∀ q, asLeaf c = some q → LeafOf leaf row c q)
    {first : Option Leaf} {values : List Datum}
    (h : asLeafOr children first values = some q) :
    q.op = .isIn ∧ (∀ f, first = some f → q.column = f.column ∧ q.dataType = f.dataType) ∧
      ∃ rest, q.literals = values ++ rest ∧ (∀ l ∈ rest, datumMatchesType l q.dataType.root = true) ∧
        (∀ P : Datum → Prop, (∀ c ∈ children, c.Leaves fun _ _ _ _ literals => ∀ l ∈ literals, P l) →
          ∀ l ∈ rest, P l) ∧
        Predicate.disj leaf children = some (oneOf (row q.column) rest) := by
  induction children generalizing first values with
  | nil =>
    obtain ⟨f, rfl, rfl⟩ := Option.map_eq_some_iff.mp h
    refine ⟨rfl, fun f' hf => ?_, [], (append_nil _).symm, nofun, fun _ _ => nofun, ?_⟩
    · obtain rfl := Option.some.inj hf
      exact ⟨rfl, rfl⟩
    · cases row f.column <;> rfl
  | cons child children ihc =>
    rw [asLeafOr] at h
    obtain ⟨p, hp, h⟩ := Option.bind_eq_some_iff.mp h
    split at h
    · cases h
    next hop =>
    split at h
    · cases h
    next hsame =>
    obtain ⟨hfit, hfrom, heval⟩ := ih child mem_cons_self p hp
    obtain ⟨hin, hcolumn, rest, hliterals, hmatch, hrest, hdisj⟩ := ihc (forall_mem_cons.mp ih).2 h
    -- the leaf of this child is on the column and of the type of the result
    have hp' : q.column = p.column ∧ q.dataType = p.dataType := by
      cases first with
      | none => exact hcolumn p rfl
      | some f =>
        obtain ⟨hc, ht⟩ := hcolumn f rfl
        have hboth : f.column = p.column ∧ f.dataType = p.dataType := by
          simpa [not_or] using hsame
        exact ⟨hc.trans hboth.1, ht.trans hboth.2⟩
    have hkind : p.op = .eq ∨ p.op = .isIn := by
      by_contra hno
      exact hop (not_or.mp hno)
    refine ⟨hin, ?_, p.literals ++ rest, ?_, ?_, fun P hP => ?_, ?_⟩
    · rintro f rfl
      exact hcolumn f rfl
    · rw [hliterals, append_assoc]
    · exact forall_mem_append.mpr ⟨hp'.2 ▸ hfit.literals, hmatch⟩
    · obtain ⟨hchild, hP⟩ := forall_mem_cons.mp hP
      exact forall_mem_append.mpr ⟨hfrom P hchild, hrest P hP⟩
    · rw [evalLeaf_oneOf hkind hfit.count, ← hp'.1] at heval
      rw [Predicate.disj_cons]
      exact ⟨_, _, heval, hdisj, oneOf_append _ _ _⟩

/-- **A conjunct and the leaf made of it have one value.** -/
theorem asLeaf_spec (hleaf : Agrees leaf row) (p : Predicate) : ∀ q, asLeaf p = some q → LeafOf leaf row p q := by
  induction p with
  | leaf column index dataType op literals =>
    intro q h
    rw [asLeaf] at h
    split at h
    · next hok =>
      obtain rfl := Option.some.inj h
      simp only [Bool.and_eq_true, all_eq_true] at hok
      refine ⟨⟨hok.1.1, hok.1.2, hok.2⟩, fun P hP => ?_, hleaf column index dataType op literals hok.1.1⟩
      cases hP with
      | leaf hP => exact hP
    · cases h
  | or children ih =>
    intro q h
    rw [asLeaf] at h
    obtain ⟨hop, -, rest, hliterals, hmatch, hrest, hdisj⟩ := asLeafOr_spec ih h
    rw [nil_append] at hliterals
    subst hliterals
    have hcount : literalCountOk q.op q.literals.length = true := by
      rw [hop]
      rfl
    refine ⟨⟨by rw [hop]; rfl, hcount, hmatch⟩, fun P hP => ?_, ?_⟩
    · cases hP with
      | or hP => exact hrest P hP
    · rw [Predicate.eval_or, hdisj, evalLeaf_oneOf (.inr hop) hcount]
      rfl
  | and | not | alwaysTrue | alwaysFalse =>
    intro q h
    cases h

end

theorem splitAnd_leaves {P : String → Nat → DataType → PredicateOperator → List Datum → Prop}
    (p : Predicate) (hp : Predicate.Leaves P p) :
    ∀ q ∈ Predicate.splitAnd p, Predicate.Leaves P q := by
  induction p with
  | and children ih =>
    intro q hq
    cases hp with
    | and hp =>
      rw [Predicate.splitAnd] at hq
      obtain ⟨c, hc, hq⟩ := Predicate.mem_splitAndAll.mp hq
      exact ih c hc (hp c hc) q hq
  | _ =>
    intro q hq
    rw [Predicate.splitAnd] at hq
    · obtain rfl := mem_singleton.mp hq
      exact hp
    all_goals
      intro children h
      cases h

/-! ## conjuncts on one column -/

structure ColumnLeaf (t : TypeRoot) (q : Leaf) : Prop where
  op : supported q.op = true
  count : literalCountOk q.op q.literals.length = true
  literals : ∀ l ∈ q.literals, KeyOk t l

def Accepts (column : List Leaf) (c : ComponentPlace) : Prop :=
  ∀ q ∈ column, opHolds q.op c (q.literals.map literalPlace)

/-- a conjunct that fits and whose literals are in the range of their types -/
structure LeafSized (q : Leaf) : Prop extends LeafFit q where
  sized : ∀ l ∈ q.literals, Sized l

variable {column : List Leaf} {domain : List (Option Datum)}

section
variable {t : TypeRoot} (ht : supportedType t = true) (hfloat : t.isFloat = false)
include ht hfloat

theorem normalizeLeaf_spec {q q' : Leaf} (hq : LeafSized q) (htype : q.dataType.root = t)
    (h : normalizeLeaf t q = some q') :
    q'.op = q.op ∧ ColumnLeaf t q' ∧ q'.literals.map literalPlace = q.literals.map literalPlace := by
  obtain ⟨literals, hmap, rfl⟩ := Option.map_eq_some_iff.mp h
  have hall := Traverse.option_mapM.mp hmap
  have heach : List.Forall₂ (fun l l' => KeyOk t l' ∧ literalPlace l' = literalPlace l) q.literals
      literals := by
    have hmem : ∀ l ∈ q.literals, ∀ l', normalizeKeyLiteral l t = some l' →
        KeyOk t l' ∧ literalPlace l' = literalPlace l := by
      intro l hl l' hn
      obtain ⟨hok, hrank, -⟩ := normalizeKeyLiteral_eq ht (htype ▸ hq.literals l hl) (hq.sized l hl) hn
      exact ⟨hok, literalPlace_inj.mpr hrank⟩
    clear hmap h
    generalize q.literals = ls at hall hmem ⊢
    induction hall with
    | nil => exact .nil
    | cons hab _ ih =>
      exact .cons (hmem _ mem_cons_self _ hab) (ih (forall_mem_cons.mp hmem).2)
  refine ⟨rfl, ⟨hq.op, ?_, fun l hl => ?_⟩, ?_⟩
  · show literalCountOk q.op literals.length = true
    rw [← hall.length_eq]
    exact hq.count
  · obtain ⟨_, -, hok, -⟩ := Traverse.mem_left heach hl
    exact hok
  · show literals.map literalPlace = q.literals.map literalPlace
    have hsame : List.Forall₂ (fun a b => a = b) (literals.map literalPlace)
        (q.literals.map literalPlace) := by
      rw [forall₂_map_left_iff, forall₂_map_right_iff]
      exact (heach.imp fun _ _ h => h.2).flip
    rwa [forall₂_eq_eq_eq] at hsame

/-- **The normalized conjuncts on a column accept what the conjuncts accept.** -/
theorem normalizeColumn_spec {leaves column : List Leaf}
    (hleaves : ∀ q ∈ leaves, LeafSized q ∧ q.dataType.root = t)
    (h : leaves.mapM (normalizeLeaf t) = some column) :
    (∀ q ∈ column, ColumnLeaf t q) ∧
      ∀ v, ComponentOk t v → ((∀ q ∈ leaves, evalLeaf q.op v q.literals = .ok true) ↔
        Accepts column (componentPlace v)) := by
  have hall := Traverse.option_mapM.mp h
  constructor
  · intro q' hq'
    obtain ⟨q, hq, hn⟩ := Traverse.mem_left hall hq'
    exact (normalizeLeaf_spec ht hfloat (hleaves q hq).1 (hleaves q hq).2 hn).2.1
  · intro v hv
    -- one conjunct before and after normalization
    have hone : ∀ q ∈ leaves, ∀ q', normalizeLeaf t q = some q' → (evalLeaf q.op v q.literals = .ok true ↔
          opHolds q'.op (componentPlace v) (q'.literals.map literalPlace)) := by
      intro q hq q' hn
      obtain ⟨hsized, htype⟩ := hleaves q hq
      obtain ⟨hop, -, hplaces⟩ := normalizeLeaf_spec ht hfloat hsized htype hn
      obtain ⟨b, hb, hiff⟩ := evalLeaf_iff ht hfloat hsized.op hsized.count
        (fun l hl => htype ▸ hsized.literals l hl) (fun d hd => (hv d hd).matches)
      rw [hop, hplaces, ← hiff, hb]
      exact ⟨fun h => Except.ok.inj h, fun h => congrArg Except.ok h⟩
    constructor
    · intro hacc q' hq'
      obtain ⟨q, hq, hn⟩ := Traverse.mem_left hall hq'
      exact (hone q hq q' hn).mp (hacc q hq)
    · intro hacc q hq
      obtain ⟨q', hq', hn⟩ := Traverse.mem_right hall hq
      exact (hone q hq q' hn).mpr (hacc q' hq')

variable {v : Option Datum}

theorem matchesAll_spec (hcolumn : ∀ q ∈ column, ColumnLeaf t q) (hv : ComponentOk t v) :
    ∃ b, matchesAll t (v.map (serializeComponent t)) column = .ok b ∧
      (b = true ↔ Accepts column (componentPlace v)) := by
  induction column with
  | nil => exact ⟨true, rfl, ⟨fun _ => nofun, fun _ => rfl⟩⟩
  | cons q column ih =>
    have hq := hcolumn q mem_cons_self
    obtain ⟨b, hb, hiff⟩ := matchesLeaf_eq ht hfloat hq.op hq.count hq.literals hv
    obtain ⟨b', hb', hiff'⟩ := ih (forall_mem_cons.mp hcolumn).2
    have hcons : Accepts (q :: column) (componentPlace v) ↔ b = true ∧ b' = true := by
      rw [hiff, hiff']
      unfold Accepts
      rw [forall_mem_cons]
    rw [matchesAll, hb]
    cases b with
    | true => exact ⟨b', hb', by rw [hcons]; simp⟩
    | false => exact ⟨false, rfl, by rw [hcons]; simp⟩

theorem isDuplicate_spec (hdomain : ∀ v ∈ domain, ComponentOk t v) (hv : ComponentOk t v) :
    ∃ b, isDuplicate t (v.map (serializeComponent t)) domain = .ok b ∧
      (b = true ↔ ∃ u ∈ domain, componentPlace v = componentPlace u) := by
  induction domain with
  | nil => exact ⟨false, rfl, ⟨nofun, fun ⟨_, h, _⟩ => absurd h not_mem_nil⟩⟩
  | cons u domain ih =>
    obtain ⟨b, hb, hiff⟩ := ih (forall_mem_cons.mp hdomain).2
    have hcmp := compareComponents_eq hfloat hv (hdomain u mem_cons_self)
    rw [isDuplicate]
    simp only [hcmp, bind, Except.bind]
    split
    · next heq =>
      exact ⟨true, rfl, ⟨fun _ => ⟨u, mem_cons_self, compare_eq_iff_eq.mp heq⟩, fun _ => rfl⟩⟩
    · next hne =>
      refine ⟨b, hb, hiff.trans ?_⟩
      constructor
      · rintro ⟨w, hw, h⟩
        exact ⟨w, mem_cons_of_mem u hw, h⟩
      · rintro ⟨w, hw, h⟩
        rcases mem_cons.mp hw with rfl | hw
        · exact absurd (compare_eq_iff_eq.mpr h) hne
        · exact ⟨w, hw, h⟩

/-- values all conjuncts accept, no two at one place -/
structure DomainOk (t : TypeRoot) (column : List Leaf) (domain : List (Option Datum)) : Prop where
  values : ∀ v ∈ domain, ComponentOk t v
  accepted : ∀ v ∈ domain, Accepts column (componentPlace v)
  distinct : domain.Pairwise fun v w => componentPlace v ≠ componentPlace w

theorem domainFrom_spec (hcolumn : ∀ q ∈ column, ColumnLeaf t q)
    {cands domain out : List (Option Datum)} (hcands : ∀ v ∈ cands, ComponentOk t v)
    (hdomain : DomainOk t column domain) (h : domainFrom t column cands domain = .ok out) :
    DomainOk t column out ∧ (∀ v ∈ domain, v ∈ out) ∧
      (out.length ≤ maxIntervals → ∀ v ∈ cands, Accepts column (componentPlace v) →
        ∃ u ∈ out, componentPlace v = componentPlace u) := by
  induction cands generalizing domain with
  | nil =>
    obtain rfl := Except.ok.inj h
    exact ⟨hdomain, fun v hv => hv, fun _ v hv => absurd hv not_mem_nil⟩
  | cons v cands ih =>
    have hv := hcands v mem_cons_self
    have hrest := (forall_mem_cons.mp hcands).2
    obtain ⟨b, hb, haccepts⟩ := matchesAll_spec ht hfloat hcolumn hv
    obtain ⟨dup, hdup, hduplicate⟩ := isDuplicate_spec ht hfloat hdomain.values hv
    rw [domainFrom] at h
    simp only [hb, bind, Except.bind] at h
    cases b with
    | false =>
      obtain ⟨hok, hsub, hcover⟩ := ih hrest hdomain h
      refine ⟨hok, hsub, fun hlen w hw hacc => ?_⟩
      rcases mem_cons.mp hw with rfl | hw
      · exact nomatch haccepts.mpr hacc
      · exact hcover hlen w hw hacc
    | true =>
      simp only [hdup, if_true] at h
      have hacc := haccepts.mp rfl
      -- the domain after this candidate
      obtain ⟨domain', hnext, hdomain', hsub, u, hu, hplace⟩ : ∃ domain',
          (if dup = true then domain else domain ++ [v]) = domain' ∧ DomainOk t column domain' ∧
          (∀ w ∈ domain, w ∈ domain') ∧ ∃ u ∈ domain', componentPlace v = componentPlace u := by
        cases dup with
        | true =>
          obtain ⟨u, hu, hplace⟩ := hduplicate.mp rfl
          exact ⟨domain, rfl, hdomain, fun w hw => hw, u, hu, hplace⟩
        | false =>
          have hfresh : ∀ w ∈ domain, componentPlace w ≠ componentPlace v := by
            intro w hw heq
            exact nomatch hduplicate.mpr ⟨w, hw, heq.symm⟩
          refine ⟨domain ++ [v], rfl, ⟨?_, ?_, ?_⟩, fun w hw => mem_append_left _ hw, v,
            mem_append_right _ mem_cons_self, rfl⟩
          · exact forall_mem_append.mpr ⟨hdomain.values, forall_mem_singleton.mpr hv⟩
          · exact forall_mem_append.mpr ⟨hdomain.accepted, forall_mem_singleton.mpr hacc⟩
          · refine pairwise_append.mpr ⟨hdomain.distinct, pairwise_singleton _ _, ?_⟩
            intro w hw w' hw'
            obtain rfl := mem_singleton.mp hw'
            exact hfresh w hw
      rw [hnext] at h
      split at h
      · next hmany =>
        obtain rfl := Except.ok.inj h
        exact ⟨hdomain', hsub, fun hlen => absurd hlen (Nat.not_le.mpr hmany)⟩
      · obtain ⟨hok, hsub', hcover⟩ := ih hrest hdomain' h
        refine ⟨hok, fun w hw => hsub' w (hsub w hw), fun hlen w hw hw' => ?_⟩
        rcases mem_cons.mp hw with rfl | hw
        · exact ⟨u, hsub' u hu, hplace⟩
        · exact hcover hlen w hw hw'

end

variable {field : DataField}

/-- **The values enumerated for a column are those all its conjuncts accept.** -/
theorem domain_iff (ht : supportedType field.dataType.root = true)
    (hfloat : field.dataType.root.isFloat = false)
    (hcolumn : ∀ q ∈ column, ColumnLeaf field.dataType.root q) {selected : Leaf}
    (hselected : selected ∈ column) (hpoint : point selected.op = true)
    (h : domainFrom field.dataType.root column (candidates field selected) [] = .ok domain) :
    DomainOk field.dataType.root column domain ∧
      (domain.length ≤ maxIntervals → ∀ v, ComponentOk field.dataType.root v →
        (v = none → field.dataType.nullable = true) →
        ((∃ u ∈ domain, componentPlace v = componentPlace u) ↔ Accepts column (componentPlace v))) := by
  have hleaf := hcolumn selected hselected
  have hcands : ∀ v ∈ candidates field selected, ComponentOk field.dataType.root v := by
    intro v hv
    unfold candidates at hv
    split at hv
    · split at hv
      · obtain rfl := mem_singleton.mp hv
        exact nofun
      · cases hv
    · obtain ⟨l, hl, rfl⟩ := mem_map.mp hv
      intro d hd
      exact Option.some.inj hd ▸ hleaf.literals l hl
  have hempty : DomainOk field.dataType.root column [] := ⟨nofun, nofun, .nil⟩
  obtain ⟨hok, -, hcover⟩ := domainFrom_spec ht hfloat hcolumn hcands hempty h
  refine ⟨hok, fun hlen v hv hnull => ⟨?_, fun hacc => ?_⟩⟩
  · rintro ⟨u, hu, hplace⟩
    rw [hplace]
    exact hok.accepted u hu
  -- the selected conjunct puts the value among the candidates
  obtain ⟨w, hw, hplace⟩ : ∃ w ∈ candidates field selected, componentPlace v = componentPlace w := by
    have hsel := hacc selected hselected
    have hliteral : ∀ c ∈ selected.literals.map literalPlace, componentPlace v = c → selected.op ≠ .isNull →
        ∃ w ∈ candidates field selected, componentPlace v = componentPlace w := by
      intro c hc hvc hop
      obtain ⟨l, hl, rfl⟩ := mem_map.mp hc
      refine ⟨some l, ?_, hvc⟩
      unfold candidates
      rw [if_neg hop]
      exact mem_map_of_mem hl
    unfold point at hpoint
    rw [Bool.or_eq_true, Bool.or_eq_true, beq_iff_eq, beq_iff_eq, beq_iff_eq] at hpoint
    rcases hpoint with (hop | hop) | hop
    · rw [hop] at hsel
      have hcount := hleaf.count
      rw [hop] at hcount
      obtain ⟨l, hl⟩ := length_eq_one_iff.mp (beq_iff_eq.mp hcount)
      rw [hl] at hsel
      refine hliteral (literalPlace l) ?_ hsel (by rw [hop]; exact nofun)
      rw [hl]
      exact mem_cons_self
    · rw [hop] at hsel
      exact hliteral _ hsel rfl (by rw [hop]; exact nofun)
    · rw [hop] at hsel
      have hnone : v = none := by
        cases v with
        | none => rfl
        | some d => exact absurd hsel (bot_lt_literalPlace d).ne'
      refine ⟨none, ?_, by rw [hnone]⟩
      unfold candidates
      rw [if_pos hop, if_pos (hnull hnone)]
      exact mem_cons_self
  obtain ⟨u, hu, huw⟩ := hcover hlen w hw (hplace ▸ hacc)
  exact ⟨u, hu, hplace.trans huw⟩

/-! ## the leading columns -/

def ColumnHolds (leaves : List Leaf) (row : Row) (field : DataField) : Prop :=
  ∀ q ∈ columnLeaves field leaves, evalLeaf q.op (row field.name) q.literals = .ok true

def tupleOf (fields : List DataField) (row : Row) : List (Option Datum) :=
  fields.map fun f => row f.name

/-- values of the types of the columns, NULL only where the column is nullable -/
structure RowOk (fields : List DataField) (row : Row) : Prop where
  values : ∀ f ∈ fields, ComponentOk f.dataType.root (row f.name)
  notNull : ∀ f ∈ fields, row f.name = none → f.dataType.nullable = true

def typesOf (fields : List DataField) : List TypeRoot := fields.map fun f => f.dataType.root

/-- `prefixes` are the beginnings that the conjuncts on the first `k` fields accept -/
structure Enumerates (fields : List DataField) (leaves : List Leaf) (k : Nat)
    (prefixes : List (List (Option Datum))) : Prop where
  nonempty : 0 < prefixes.length
  length : ∀ p ∈ prefixes, p.length = k
  values : ∀ p ∈ prefixes, PrefixOk (typesOf fields) 0 p
  distinct : prefixes.Pairwise fun p p' => places p ≠ places p'
  covers : ∀ row, RowOk fields row →
    ((∃ p ∈ prefixes, places p = places (tupleOf (fields.take k) row)) ↔
      ∀ f ∈ fields.take k, ColumnHolds leaves row f)

/-- the conjuncts on the first field that is not enumerated -/
structure RangeOk (fields : List DataField) (leaves : List Leaf) (k : Nat) (range : List Leaf) :
    Prop where
  conjuncts : ∀ t, (typesOf fields)[k]? = some t → ∀ q ∈ range, ColumnLeaf t q ∧ point q.op = false
  present : range ≠ [] → k < fields.length
  covers : ∀ f, fields[k]? = some f → ∀ row, RowOk fields row →
    (ColumnHolds leaves row f ↔ Accepts range (componentPlace (row f.name)))

def ScanSpec (fields : List DataField) (leaves : List Leaf) : Scanned → Prop
  | .declined => True
  | .nothing k => ∀ row, RowOk fields row → ¬ ∀ f ∈ fields.take k, ColumnHolds leaves row f
  | .found prefixes k range => Enumerates fields leaves k prefixes ∧ RangeOk fields leaves k range

variable {leaves : List Leaf}

theorem mem_columnLeaves : q ∈ columnLeaves field leaves ↔ q ∈ leaves ∧ q.column = field.name ∧
      q.dataType.root = field.dataType.root ∧ supported q.op = true := by
  unfold columnLeaves DataType.equalsIgnoreNullable
  rw [mem_filter, Bool.and_eq_true, Bool.and_eq_true, beq_iff_eq, beq_iff_eq, and_assoc]

theorem places_append (p : List (Option Datum)) (v : Option Datum) :
    places (p ++ [v]) = places p ++ [componentPlace v] := map_append

variable {prefixes : List (List (Option Datum))}

section
variable {fields : List DataField} {leaves : List Leaf} {done rest : List DataField}

theorem Enumerates.expand (hsplit : fields = done ++ field :: rest)
    (h : Enumerates fields leaves done.length prefixes)
    (hdomain : DomainOk field.dataType.root column domain)
    (hne : 0 < domain.length) (hiff : ∀ row, RowOk fields row →
      ((∃ u ∈ domain, componentPlace (row field.name) = componentPlace u) ↔ ColumnHolds leaves row field)) :
    Enumerates fields leaves (done.length + 1) (BTree.expand prefixes domain) := by
  have htype : (typesOf fields)[done.length]? = some field.dataType.root := by
    unfold typesOf
    rw [hsplit, map_append, getElem?_append_right (by rw [length_map]), length_map, Nat.sub_self]
    rfl
  have hmem : ∀ p', p' ∈ BTree.expand prefixes domain ↔ ∃ p ∈ prefixes, ∃ v ∈ domain, p' = p ++ [v] := by
    intro p'
    unfold BTree.expand
    simp only [mem_flatMap, mem_map, eq_comm]
  refine ⟨?_, ?_, ?_, ?_, ?_⟩
  · obtain ⟨p, hp⟩ := exists_mem_of_length_pos h.nonempty
    obtain ⟨v, hv⟩ := exists_mem_of_length_pos hne
    exact length_pos_of_mem ((hmem _).mpr ⟨p, hp, v, hv, rfl⟩)
  · intro p' hp'
    obtain ⟨p, hp, v, -, rfl⟩ := (hmem p').mp hp'
    rw [length_append, h.length p hp]
    rfl
  · intro p' hp'
    obtain ⟨p, hp, v, hv, rfl⟩ := (hmem p').mp hp'
    refine (h.values p hp).append ?_ (hdomain.values v hv)
    rw [h.length p hp]
    exact htype
  · unfold BTree.expand
    rw [pairwise_flatMap]
    constructor
    · intro p _
      rw [pairwise_map]
      refine hdomain.distinct.imp fun hne heq => hne ?_
      rw [places_append, places_append] at heq
      exact singleton_inj.mp (append_cancel_left heq)
    · refine h.distinct.imp_of_mem fun hp hp' hne => ?_
      intro x hx y hy heq
      obtain ⟨v, -, rfl⟩ := mem_map.mp hx
      obtain ⟨w, -, rfl⟩ := mem_map.mp hy
      rw [places_append, places_append] at heq
      refine hne (append_inj_left heq ?_)
      unfold places
      rw [length_map, length_map, h.length _ hp, h.length _ hp']
  · intro row hrow
    have htake : fields.take (done.length + 1) = done ++ [field] := by
      rw [hsplit, take_length_add_append]
      rfl
    have hdone : fields.take done.length = done := by
      rw [hsplit]
      exact take_left
    have hcovers := h.covers row hrow
    rw [hdone] at hcovers
    have htuple : places (tupleOf (done ++ [field]) row)
        = places (tupleOf done row) ++ [componentPlace (row field.name)] := by
      unfold tupleOf
      rw [map_append]
      exact places_append _ _
    rw [htake, forall_mem_append, forall_mem_singleton, ← hcovers, ← hiff row hrow, htuple]
    constructor
    · rintro ⟨p', hp', heq⟩
      obtain ⟨p, hp, v, hv, rfl⟩ := (hmem p').mp hp'
      rw [places_append] at heq
      have hlen : (places p).length = (places (tupleOf done row)).length := by
        unfold places tupleOf
        rw [length_map, length_map, length_map, h.length p hp]
      obtain ⟨hleft, hright⟩ := append_inj heq hlen
      exact ⟨⟨p, hp, hleft⟩, v, hv, (singleton_inj.mp hright).symm⟩
    · rintro ⟨⟨p, hp, hleft⟩, v, hv, hright⟩
      refine ⟨p ++ [v], (hmem _).mpr ⟨p, hp, v, hv, rfl⟩, ?_⟩
      rw [places_append, hleft, hright]

/-- **The loop over the fields enumerates the beginnings that the conjuncts accept.** -/
theorem scanFields_spec (htypes : IndexTypes (typesOf fields))
    (hleaves : ∀ q ∈ leaves, LeafSized q)
    (hsplit : fields = done ++ rest)
    (henum : Enumerates fields leaves done.length prefixes) {out : Scanned}
    (h : scanFields leaves done.length prefixes rest = .ok out) : ScanSpec fields leaves out := by
  induction rest generalizing done prefixes with
  | nil =>
    obtain rfl := Except.ok.inj h
    rw [append_nil] at hsplit
    refine ⟨henum, nofun, fun hne => absurd rfl hne, fun f hf => ?_⟩
    rw [hsplit, getElem?_eq_none (le_refl _)] at hf
    cases hf
  | cons field rest ih =>
    have hmem : field ∈ fields := by
      rw [hsplit]
      exact mem_append_right _ mem_cons_self
    have hget : fields[done.length]? = some field := by
      rw [hsplit, getElem?_append_right (le_refl _), Nat.sub_self]
      rfl
    obtain ⟨ht, hfloat⟩ := htypes field.dataType.root (mem_map_of_mem hmem)
    have hcolumnLeaves : ∀ q ∈ columnLeaves field leaves,
        LeafSized q ∧ q.dataType.root = field.dataType.root := by
      intro q hq
      obtain ⟨hq, -, htype, -⟩ := mem_columnLeaves.mp hq
      exact ⟨hleaves q hq, htype⟩
    rw [scanFields] at h
    split at h
    · obtain rfl := Except.ok.inj h
      trivial
    next column hnormalize =>
    obtain ⟨hcolumn, haccepts⟩ := normalizeColumn_spec ht hfloat hcolumnLeaves hnormalize
    have hholds : ∀ row, RowOk fields row →
        (ColumnHolds leaves row field ↔ Accepts column (componentPlace (row field.name))) :=
      fun row hrow => haccepts _ (hrow.values field hmem)
    split at h
    · next hnone =>
      -- no point conjunct: this is the range column
      obtain rfl := Except.ok.inj h
      have hfilter := filter_eq_nil_iff.mp (argmin_eq_none.mp hnone)
      refine ⟨henum, fun t htype q hq => ?_, fun _ => ?_, fun f hf row hrow => ?_⟩
      · have htype' : (typesOf fields)[done.length]? = some field.dataType.root := by
          unfold typesOf
          rw [getElem?_map, hget]
          rfl
        obtain rfl := Option.some.inj (htype'.symm.trans htype)
        exact ⟨hcolumn q hq, by simpa using hfilter q hq⟩
      · exact (List.getElem?_eq_some_iff.mp hget).1
      · obtain rfl := Option.some.inj (hget.symm.trans hf)
        exact hholds row hrow
    next selected hselected =>
    obtain ⟨hsel, hpoint⟩ := mem_filter.mp (argmin_mem hselected)
    obtain ⟨domain, hdomain, h⟩ := bind_ok h
    obtain ⟨hok, hiff⟩ := domain_iff ht hfloat hcolumn hsel hpoint hdomain
    have hcovers : domain.length ≤ maxIntervals → ∀ row, RowOk fields row →
        ((∃ u ∈ domain, componentPlace (row field.name) = componentPlace u) ↔
          ColumnHolds leaves row field) := fun hlen row hrow =>
      (hiff hlen _ (hrow.values field hmem) (hrow.notNull field hmem)).trans (hholds row hrow).symm
    split at h
    · next hempty =>
      obtain rfl := Except.ok.inj h
      obtain rfl := List.isEmpty_iff.mp hempty
      intro row hrow hall
      have hin : field ∈ fields.take (done.length + 1) :=
        mem_of_getElem? (by rw [getElem?_take_of_lt (Nat.lt_succ_self _)]; exact hget)
      obtain ⟨u, hu, -⟩ := (hcovers (Nat.zero_le _) row hrow).mpr (hall field hin)
      cases hu
    · next hne =>
      split at h
      · obtain rfl := Except.ok.inj h
        trivial
      · next hfew =>
        -- there is a beginning, so the domain was not cut off
        have hlen : domain.length ≤ maxIntervals :=
          (Nat.le_mul_of_pos_left _ henum.nonempty).trans (Nat.le_of_not_lt hfew)
        have hpos : 0 < domain.length :=
          length_pos_of_ne_nil fun hnil => hne (List.isEmpty_iff.mpr hnil)
        have hlength : (done ++ [field]).length = done.length + 1 := by
          rw [length_append]
          rfl
        rw [← hlength] at h
        refine ih (by rw [hsplit, append_assoc]; rfl) ?_ h
        rw [hlength]
        exact henum.expand hsplit hok hpos (hcovers hlen)

end

/-! ## intervals -/

def boundHolds (b : RangeBound) (c : ComponentPlace) : Prop :=
  if b.isLower then if b.after then literalPlace b.value < c else literalPlace b.value ≤ c
  else if b.after then c ≤ literalPlace b.value else c < literalPlace b.value

variable {t : TypeRoot}

theorem rangeBounds_spec (hq : ColumnLeaf t q) (hpoint : point q.op = false) :
    ∃ bs, rangeBounds q = .ok bs ∧ (∀ b ∈ bs, KeyOk t b.value) ∧
      ∀ c, opHolds q.op c (q.literals.map literalPlace) ↔ c ≠ ⊥ ∧ ∀ b ∈ bs, boundHolds b c := by
  obtain ⟨column, index, dataType, op, literals⟩ := q
  obtain ⟨hop, hcount, hliterals⟩ := hq
  dsimp only at hop hcount hliterals hpoint ⊢
  have hone : (literals.length == 1) = true → ∃ l, literals = [l] := fun hlen =>
    length_eq_one_iff.mp (beq_iff_eq.mp hlen)
  have habove : ∀ {l : Datum} {c : ComponentPlace}, literalPlace l ≤ c → c ≠ ⊥ :=
    fun h => ((bot_lt_literalPlace _).trans_le h).ne'
  unfold rangeBounds
  cases op <;> first
    | exact absurd hop Bool.false_ne_true
    | exact absurd hpoint.symm Bool.false_ne_true
    | skip
  case isNotNull => exact ⟨[], rfl, nofun, fun c => ⟨fun h => ⟨h, nofun⟩, fun h => h.1⟩⟩
  case between =>
    obtain ⟨low, high, rfl⟩ := length_eq_two.mp (beq_iff_eq.mp hcount)
    refine ⟨[⟨low, false, true⟩, ⟨high, true, false⟩], rfl, ?_, fun c => ?_⟩
    · rw [forall_mem_cons, forall_mem_singleton]
      exact ⟨hliterals low mem_cons_self, hliterals high (mem_cons_of_mem _ mem_cons_self)⟩
    · rw [forall_mem_cons, forall_mem_singleton]
      exact ⟨fun h => ⟨habove h.1, h⟩, fun h => h.2⟩
  all_goals
    obtain ⟨l, rfl⟩ := hone hcount
    have hl := hliterals l mem_cons_self
    refine ⟨[_], rfl, forall_mem_singleton.mpr hl, fun c => ?_⟩
    rw [forall_mem_singleton]
  case lt => exact Iff.rfl
  case ltEq => exact Iff.rfl
  case gt => exact ⟨fun h => ⟨habove (le_of_lt h), h⟩, fun h => h.2⟩
  case gtEq => exact ⟨fun h => ⟨habove h, h⟩, fun h => h.2⟩

variable {range : List Leaf}

theorem rangeBounds_all {bounds : List (List RangeBound)}
    (hall : List.Forall₂ (fun q bs => rangeBounds q = .ok bs) range bounds)
    (hleaf : ∀ q ∈ range, ColumnLeaf t q ∧ point q.op = false) :
    (∀ b ∈ bounds.flatten, KeyOk t b.value) ∧
      ∀ c, Accepts range c ↔ (range = [] ∨ c ≠ ⊥) ∧ ∀ b ∈ bounds.flatten, boundHolds b c := by
  induction hall with
  | nil => exact ⟨nofun, fun c => ⟨fun _ => ⟨.inl rfl, nofun⟩, fun _ => nofun⟩⟩
  | @cons q bs range bounds hq _ ih =>
    obtain ⟨hkeys, hiff⟩ := ih (forall_mem_cons.mp hleaf).2
    obtain ⟨hcolumn, hpoint⟩ := hleaf q mem_cons_self
    obtain ⟨bs', hbs', hkeys', hiff'⟩ := rangeBounds_spec hcolumn hpoint
    obtain rfl := Except.ok.inj (hq.symm.trans hbs')
    rw [flatten_cons]
    refine ⟨forall_mem_append.mpr ⟨hkeys', hkeys⟩, fun c => ?_⟩
    rw [forall_mem_append]
    have hcons : Accepts (q :: range) c ↔ opHolds q.op c (q.literals.map literalPlace) ∧
        Accepts range c := forall_mem_cons
    rw [hcons, hiff c, hiff' c]
    constructor
    · rintro ⟨⟨hc, hfirst⟩, -, hrest⟩
      exact ⟨.inr hc, hfirst, hrest⟩
    · rintro ⟨hc, hfirst, hrest⟩
      have hc : c ≠ ⊥ := hc.resolve_left (cons_ne_nil _ _)
      exact ⟨⟨hc, hfirst⟩, .inr hc, hrest⟩

variable {p : List (Option Datum)} {low high : TupleBounds.Place ComponentPlace}

section
variable {types : List TypeRoot}

/-- two ends, the lower one the greatest of `low` and the lower bounds, the upper one the least of
`high` and the upper bounds -/
def EndsAt (types : List TypeRoot) (p : List (Option Datum))
    (low high : TupleBounds.Place ComponentPlace) (bs : List RangeBound)
    (ends : CompositeBound × CompositeBound) : Prop :=
  ∃ (dl : List (Option Datum)) (al : Bool) (du : List (Option Datum)) (au : Bool),
    ends = (boundOf types dl al, boundOf types du au) ∧ PrefixOk types 0 dl ∧ PrefixOk types 0 du ∧
    (∀ q, boundPlace dl al < q ↔ low < q ∧
      ∀ b ∈ bs, b.isLower = true → boundPlace (p ++ [some b.value]) b.after < q) ∧
    ∀ q, q < boundPlace du au ↔ q < high ∧
      ∀ b ∈ bs, b.isLower = false → q < boundPlace (p ++ [some b.value]) b.after

variable {ends : CompositeBound × CompositeBound}

theorem EndsAt.tighten (htypes : IndexTypes types) {bs : List RangeBound}
    (h : EndsAt types p low high bs ends)
    (hp : PrefixOk types 0 p) (ht : types[p.length]? = some t) {b : RangeBound}
    (hb : KeyOk t b.value) {ends' : CompositeBound × CompositeBound}
    (hstep : BTree.tighten ⟨types⟩ (components ⟨types⟩ p) p.length ends b = .ok ends') :
    EndsAt types p low high (bs ++ [b]) ends' := by
  obtain ⟨dl, al, du, au, rfl, hdl, hdu, hlow, hhigh⟩ := h
  have hnext : PrefixOk types 0 (p ++ [some b.value]) :=
    hp.append ht fun d hd => Option.some.inj hd ▸ hb
  have hbound : (⟨components ⟨types⟩ p ++ [some (serializeComponent t b.value)], b.after⟩ :
      CompositeBound) = boundOf types (p ++ [some b.value]) b.after := by
    unfold boundOf
    rw [components_append p ht]
    rfl
  have hserialize : CompositeKeyCodec.serializeAt ⟨types⟩ p.length b.value
      = .ok (serializeComponent t b.value) := by
    unfold CompositeKeyCodec.serializeAt
    dsimp only
    rw [ht]
  unfold BTree.tighten at hstep
  simp only [hserialize, bind, Except.bind, hbound, compare_boundOf htypes hnext hdl,
    compare_boundOf htypes hnext hdu] at hstep
  set place := boundPlace (p ++ [some b.value]) b.after with hplace
  have hsplit : ∀ (P : RangeBound → Prop), (∀ b' ∈ bs ++ [b], P b') ↔ (∀ b' ∈ bs, P b') ∧ P b := by
    intro P
    rw [forall_mem_append, forall_mem_singleton]
  -- a new end is kept where it is the narrower one; the other end stays
  cases hside : b.isLower with
  | true =>
    simp only [hside, if_true] at hstep
    obtain rfl := Except.ok.inj hstep
    have hupper : ∀ q, q < boundPlace du au ↔ q < high ∧ ∀ b' ∈ bs ++ [b], b'.isLower = false →
        q < boundPlace (p ++ [some b'.value]) b'.after := by
      intro q
      rw [hhigh q, hsplit, hside]
      simp
    have hlower : ∀ q, boundPlace dl al < q ∧ place < q ↔ low < q ∧ ∀ b' ∈ bs ++ [b], b'.isLower = true →
        boundPlace (p ++ [some b'.value]) b'.after < q := by
      intro q
      rw [hlow q, hsplit, ← hplace, hside]
      simp [and_assoc]
    split
    · next hgt =>
      refine ⟨_, _, _, _, rfl, hnext, hdu, fun q => ?_, hupper⟩
      rw [← hlower]
      exact ⟨fun hq => ⟨(compare_gt_iff_gt.mp hgt).trans hq, hq⟩, And.right⟩
    · next hle =>
      refine ⟨_, _, _, _, rfl, hdl, hdu, fun q => ?_, hupper⟩
      rw [← hlower]
      exact ⟨fun hq => ⟨hq, (not_lt.mp (hle ∘ compare_gt_iff_gt.mpr)).trans_lt hq⟩, And.left⟩
  | false =>
    simp only [hside, Bool.false_eq_true, if_false] at hstep
    obtain rfl := Except.ok.inj hstep
    have hlower : ∀ q, boundPlace dl al < q ↔ low < q ∧ ∀ b' ∈ bs ++ [b], b'.isLower = true →
        boundPlace (p ++ [some b'.value]) b'.after < q := by
      intro q
      rw [hlow q, hsplit, hside]
      simp
    have hupper : ∀ q, q < boundPlace du au ∧ q < place ↔ q < high ∧ ∀ b' ∈ bs ++ [b], b'.isLower = false →
        q < boundPlace (p ++ [some b'.value]) b'.after := by
      intro q
      rw [hhigh q, hsplit, ← hplace, hside]
      simp [and_assoc]
    split
    · next hlt =>
      refine ⟨_, _, _, _, rfl, hdl, hnext, hlower, fun q => ?_⟩
      rw [← hupper]
      exact ⟨fun hq => ⟨hq.trans (compare_lt_iff_lt.mp hlt), hq⟩, And.right⟩
    · next hge =>
      refine ⟨_, _, _, _, rfl, hdl, hdu, hlower, fun q => ?_⟩
      rw [← hupper]
      exact ⟨fun hq => ⟨hq, hq.trans_le (not_lt.mp (hge ∘ compare_lt_iff_lt.mpr))⟩, And.left⟩

theorem EndsAt.foldlM (htypes : IndexTypes types) (hp : PrefixOk types 0 p)
    (ht : types[p.length]? = some t) {bs bs' : List RangeBound}
    {ends ends' : CompositeBound × CompositeBound} (h : EndsAt types p low high bs ends)
    (hbs : ∀ b ∈ bs', KeyOk t b.value)
    (hfold : bs'.foldlM (BTree.tighten ⟨types⟩ (components ⟨types⟩ p) p.length) ends = .ok ends') :
    EndsAt types p low high (bs ++ bs') ends' := by
  induction bs' generalizing bs ends with
  | nil =>
    obtain rfl := Except.ok.inj hfold
    rwa [append_nil]
  | cons b bs' ih =>
    rw [foldlM_cons] at hfold
    obtain ⟨mid, hmid, hfold⟩ := bind_ok hfold
    have hnext := h.tighten htypes hp ht (hbs b mem_cons_self) hmid
    have hrest := ih hnext (forall_mem_cons.mp hbs).2 hfold
    rwa [append_assoc] at hrest

theorem prefix_iff_take {p tuple : List (Option Datum)} (hlen : p.length ≤ tuple.length) :
    boundPlace p false < keyPlace tuple ∧ keyPlace tuple < boundPlace p true ↔
      places p = (places tuple).take p.length := by
  unfold boundPlace keyPlace
  rw [TupleBounds.between_iff (by unfold places; rw [length_map, length_map]; exact hlen), prefix_iff_eq_take]
  unfold places
  rw [length_map]

theorem boundHolds_iff {rest : List ComponentPlace}
    {c : ComponentPlace} {tuple : List (Option Datum)} (htuple : places tuple = places p ++ c :: rest)
    (b : RangeBound) :
    boundHolds b c ↔ (b.isLower = true → boundPlace (p ++ [some b.value]) b.after < keyPlace tuple) ∧
      (b.isLower = false → keyPlace tuple < boundPlace (p ++ [some b.value]) b.after) := by
  have habove := TupleBounds.above_iff (places p) rest c (literalPlace b.value) b.after
  have hbelow := TupleBounds.below_iff (places p) rest c (literalPlace b.value) b.after
  unfold boundHolds boundPlace keyPlace
  rw [places_append, htuple]
  cases b.isLower with
  | true =>
    rw [if_pos rfl]
    exact habove.symm.trans ⟨fun h => ⟨fun _ => h, nofun⟩, fun h => h.1 rfl⟩
  | false =>
    rw [if_neg Bool.false_ne_true]
    exact hbelow.symm.trans ⟨fun h => ⟨nofun, fun _ => h⟩, fun h => h.2 rfl⟩

/-- **A key lies between the ends of a beginning iff it begins with it and the range conjuncts accept
its next component.** -/
theorem intervalEnds_spec (htypes : IndexTypes types) (hp : PrefixOk types 0 p)
    (hrange : ∀ t, types[p.length]? = some t → ∀ q ∈ range, ColumnLeaf t q ∧ point q.op = false)
    (hpresent : range ≠ [] → p.length < types.length)
    (h : intervalEnds ⟨types⟩ p.length range (components ⟨types⟩ p) = .ok ends) :
    ∃ (dl : List (Option Datum)) (al : Bool) (du : List (Option Datum)) (au : Bool),
      ends = (boundOf types dl al, boundOf types du au) ∧ PrefixOk types 0 dl ∧ PrefixOk types 0 du ∧
      ∀ tuple : List (Option Datum), tuple.length = types.length →
        (boundPlace dl al < keyPlace tuple ∧ keyPlace tuple < boundPlace du au ↔
          places p = (places tuple).take p.length ∧
            ∀ v, tuple[p.length]? = some v → Accepts range (componentPlace v)) := by
  unfold intervalEnds at h
  split at h
  · next hempty =>
    obtain rfl := Except.ok.inj h
    refine ⟨p, false, p, true, rfl, hp, hp, fun tuple hlen => ?_⟩
    rw [prefix_iff_take (hlen ▸ hp.length_le), List.isEmpty_iff.mp hempty]
    exact ⟨fun h => ⟨h, fun _ _ => nofun⟩, fun h => h.1⟩
  · next hne =>
    have hlt := hpresent fun hnil => hne (List.isEmpty_iff.mpr hnil)
    obtain ⟨t, ht⟩ : ∃ t, types[p.length]? = some t := ⟨_, getElem?_eq_getElem hlt⟩
    obtain ⟨bounds, hbounds, hfold⟩ := bind_ok h
    have hall := Traverse.except_mapM.mp hbounds
    have hspec := rangeBounds_all hall (hrange t ht)
    have hstart : EndsAt types p (boundPlace (p ++ [none]) true) (boundPlace p true) []
        (⟨components ⟨types⟩ p ++ [none], true⟩, ⟨components ⟨types⟩ p, true⟩) := by
      refine ⟨p ++ [none], true, p, true, ?_, hp.append ht nofun, hp, fun q => ?_, fun q => ?_⟩
      · unfold boundOf
        rw [components_append p ht]
        rfl
      · exact ⟨fun h => ⟨h, nofun⟩, fun h => h.1⟩
      · exact ⟨fun h => ⟨h, nofun⟩, fun h => h.1⟩
    obtain ⟨dl, al, du, au, rfl, hdl, hdu, hlow, hhigh⟩ :=
      hstart.foldlM htypes hp ht hspec.1 hfold
    refine ⟨dl, al, du, au, rfl, hdl, hdu, fun tuple hlen => ?_⟩
    rw [nil_append] at hlow hhigh
    have htlt : p.length < tuple.length := hlen ▸ hlt
    have hv : tuple[p.length]? = some tuple[p.length] := getElem?_eq_getElem htlt
    -- a tuple with the beginning, cut at the next component
    have hcut : places p = (places tuple).take p.length → places tuple = places p ++
        componentPlace tuple[p.length] :: places (tuple.drop (p.length + 1)) := by
      intro hpre
      have hdrop : (places tuple).drop p.length
          = componentPlace tuple[p.length] :: places (tuple.drop (p.length + 1)) := by
        rw [← places_drop hv]
        exact map_drop.symm
      rw [hpre, ← hdrop, take_append_drop]
    have hnull : ∀ c rest, places tuple = places p ++ c :: rest →
        (boundPlace (p ++ [none]) true < keyPlace tuple ↔ ⊥ < c) := by
      intro c rest htuple
      unfold boundPlace keyPlace
      rw [places_append, htuple]
      exact TupleBounds.above_iff (places p) rest c ⊥ true
    have hinside : boundPlace p false < boundPlace (p ++ [none]) true := by
      unfold boundPlace
      rw [places_append]
      exact TupleBounds.place_lt_append _ _ _
    rw [hlow, hhigh]
    constructor
    · rintro ⟨⟨h0, hlower⟩, h1, hupper⟩
      have hpre := (prefix_iff_take htlt.le).mp ⟨hinside.trans h0, h1⟩
      have htuple := hcut hpre
      refine ⟨hpre, fun v hv' => ?_⟩
      obtain rfl := Option.some.inj (hv.symm.trans hv')
      refine (hspec.2 _).mpr ⟨.inr ((hnull _ _ htuple).mp h0).ne', fun b hb => ?_⟩
      exact (boundHolds_iff htuple b).mpr ⟨hlower b hb, hupper b hb⟩
    · rintro ⟨hpre, hacc⟩
      have htuple := hcut hpre
      obtain ⟨hc, hholds⟩ := (hspec.2 _).mp (hacc _ hv)
      have hc : componentPlace tuple[p.length] ≠ ⊥ :=
        hc.resolve_left fun hnil => hne (List.isEmpty_iff.mpr hnil)
      have hbounds := fun b hb => (boundHolds_iff htuple b).mp (hholds b hb)
      refine ⟨⟨(hnull _ _ htuple).mpr (bot_lt_iff_ne_bot.mpr hc), fun b hb => (hbounds b hb).1⟩, ?_,
        fun b hb => (hbounds b hb).2⟩
      exact ((prefix_iff_take htlt.le).mpr hpre).2

end

/-! ## the plan -/

def Contains (codec : CompositeKeyCodec) (interval : CompositeInterval) (key : Bytes) : Prop :=
  interval.lower.compareKey key codec = .ok .gt ∧ interval.upper.compareKey key codec = .ok .lt

/-- the ends of an interval as places, and what lies between them -/
structure IntervalAt (types : List TypeRoot) (interval : CompositeInterval)
    (low high : TupleBounds.Place ComponentPlace) : Prop where
  lower : ∀ tuple key, IsKey types tuple key →
    interval.lower.compareKey key ⟨types⟩ = .ok (compare (keyPlace tuple) low)
  upper : ∀ tuple key, IsKey types tuple key →
    interval.upper.compareKey key ⟨types⟩ = .ok (compare (keyPlace tuple) high)

variable {types : List TypeRoot} {key : Bytes}

theorem IntervalAt.contains_iff {interval : CompositeInterval} (h : IntervalAt types interval low high)
    {tuple : List (Option Datum)} (hkey : IsKey types tuple key) :
    Contains ⟨types⟩ interval key ↔ low < keyPlace tuple ∧ keyPlace tuple < high := by
  unfold Contains
  rw [h.lower tuple key hkey, h.upper tuple key hkey, Except.ok.injEq, Except.ok.injEq,
    compare_gt_iff_gt, compare_lt_iff_lt]

theorem intervalOf_spec (htypes : IndexTypes types) (hp : PrefixOk types 0 p)
    (hrange : ∀ t, types[p.length]? = some t → ∀ q ∈ range, ColumnLeaf t q ∧ point q.op = false)
    (hpresent : range ≠ [] → p.length < types.length) {out : Option CompositeInterval}
    (h : intervalOf ⟨types⟩ p.length range p = .ok out) :
    ∃ low high, (∀ interval, out = some interval → IntervalAt types interval low high) ∧
      (out = none → high ≤ low) ∧
      ∀ tuple : List (Option Datum), tuple.length = types.length →
        (low < keyPlace tuple ∧ keyPlace tuple < high ↔ places p = (places tuple).take p.length ∧
            ∀ v, tuple[p.length]? = some v → Accepts range (componentPlace v)) := by
  unfold intervalOf at h
  obtain ⟨ends, hends, h⟩ := bind_ok h
  obtain ⟨dl, al, du, au, rfl, hdl, hdu, hiff⟩ := intervalEnds_spec htypes hp hrange hpresent hends
  have hat : ∀ pointKey, IntervalAt types
      ⟨boundOf types dl al, boundOf types du au, pointKey⟩ (boundPlace dl al) (boundPlace du au) :=
    fun pointKey => ⟨fun tuple key hkey => compareKey_boundOf htypes hkey hdl al,
      fun tuple key hkey => compareKey_boundOf htypes hkey hdu au⟩
  rw [compare_boundOf htypes hdl hdu] at h
  refine ⟨boundPlace dl al, boundPlace du au, ?_, ?_, hiff⟩
  · rintro interval rfl
    obtain ⟨order, -, h⟩ := bind_ok h
    split at h
    · split at h
      · obtain ⟨key, -, h⟩ := bind_ok h
        obtain rfl := Option.some.inj (Except.ok.inj h)
        exact hat (some key)
      · obtain rfl := Option.some.inj (Except.ok.inj h)
        exact hat none
    · cases h
  · rintro rfl
    obtain ⟨order, horder, h⟩ := bind_ok h
    obtain rfl := Except.ok.inj horder
    split at h
    · split at h
      · obtain ⟨key, -, h⟩ := bind_ok h
        cases h
      · cases h
    · next hnot => exact not_lt.mp fun hlt => hnot (compare_lt_iff_lt.mpr hlt)

section
variable {fields : List DataField} {predicate : Predicate}

def planLeaves (predicate : Predicate) : List Leaf := (Predicate.splitAnd predicate).filterMap asLeaf

theorem planLeaves_sized
    (hsized : Predicate.Leaves (fun _ _ _ _ literals => ∀ l ∈ literals, Sized l) predicate) :
    ∀ q ∈ planLeaves predicate, LeafSized q := by
  intro q hq
  obtain ⟨c, hc, hleaf⟩ := mem_filterMap.mp hq
  have hagrees : Agrees (fun _ _ _ op literals => (evalLeaf op none literals).toOption)
      (fun _ => none) := fun _ _ _ _ _ _ => rfl
  have hq := asLeaf_spec hagrees c q hleaf
  exact ⟨hq.fit, hq.from_conjunct _ (splitAnd_leaves predicate hsized c hc)⟩

def ConjunctOn (columns : List DataField) (c : Predicate) : Prop :=
  ∃ q, asLeaf c = some q ∧ ∃ f ∈ columns, q.column = f.name ∧ q.dataType.root = f.dataType.root

variable {row : Row}

theorem columnHolds_iff {leaf : LeafEval} (hleaf : Agrees leaf row) (columns : List DataField) :
    (∀ f ∈ columns, ColumnHolds (planLeaves predicate) row f) ↔
      ∀ c ∈ Predicate.splitAnd predicate, ConjunctOn columns c → Predicate.eval leaf c = some true := by
  have hvalue : ∀ {r : Result Bool}, r.toOption = some true ↔ r = .ok true := by
    intro r
    cases r with
    | error e => exact ⟨nofun, nofun⟩
    | ok b => exact ⟨fun h => congrArg Except.ok (Option.some.inj h), fun h => by rw [h]; rfl⟩
  constructor
  · rintro h c hc ⟨q, hq, f, hf, hcolumn, htype⟩
    obtain ⟨hfit, -, heval⟩ := asLeaf_spec hleaf c q hq
    rw [heval, hvalue, hcolumn]
    exact h f hf q (mem_columnLeaves.mpr ⟨mem_filterMap.mpr ⟨c, hc, hq⟩, hcolumn, htype, hfit.op⟩)
  · intro h f hf q hq
    obtain ⟨hmem, hcolumn, htype, -⟩ := mem_columnLeaves.mp hq
    obtain ⟨c, hc, hasLeaf⟩ := mem_filterMap.mp hmem
    have hc := h c hc ⟨q, hasLeaf, f, hf, hcolumn, htype⟩
    rw [(asLeaf_spec hleaf c q hasLeaf).eval, hvalue, hcolumn] at hc
    exact hc

structure PlanSpec (fields : List DataField) (predicate : Predicate) (plan : CompositePlan) : Prop where
  same : plan.fields = fields
  located : ∀ interval ∈ plan.intervals, ∃ low high, IntervalAt (typesOf fields) interval low high
  disjoint : plan.intervals.Pairwise fun a b => ∀ tuple key, IsKey (typesOf fields) tuple key →
    ¬ (Contains (codecOf fields) a key ∧ Contains (codecOf fields) b key)
  covers : ∀ row, RowOk fields row → ∀ key, IsKey (typesOf fields) (tupleOf fields row) key →
    ((∃ interval ∈ plan.intervals, Contains (codecOf fields) interval key) ↔
      ∀ f ∈ fields.take plan.boundColumns, ColumnHolds (planLeaves predicate) row f)

theorem enumerates_start (leaves : List Leaf) : Enumerates fields leaves 0 [[]] := by
  refine ⟨Nat.one_pos, ?_, ?_, pairwise_singleton _ _, fun row _ => ?_⟩
  · intro p hp
    rw [mem_singleton.mp hp]
    rfl
  · intro p hp k v hk
    rw [mem_singleton.mp hp] at hk
    cases hk
  · rw [take_zero]
    exact ⟨fun _ => nofun, fun _ => ⟨[], mem_cons_self, rfl⟩⟩

theorem found_spec (htypes : IndexTypes (typesOf fields)) {k : Nat}
    (henum : Enumerates fields leaves k prefixes) (hrange : RangeOk fields leaves k range)
    {opts : List (Option CompositeInterval)}
    (hall : List.Forall₂ (fun p o => intervalOf (codecOf fields) k range p = .ok o) prefixes opts) :
    (∀ interval ∈ opts.reduceOption, ∃ low high, IntervalAt (typesOf fields) interval low high) ∧
      (opts.reduceOption.Pairwise fun a b => ∀ tuple key, IsKey (typesOf fields) tuple key →
        ¬ (Contains (codecOf fields) a key ∧ Contains (codecOf fields) b key)) ∧
      ∀ tuple key, IsKey (typesOf fields) tuple key →
        ((∃ interval ∈ opts.reduceOption, Contains (codecOf fields) interval key) ↔
          ∃ p ∈ prefixes, places p = (places tuple).take k ∧
            ∀ v, tuple[k]? = some v → Accepts range (componentPlace v)) := by
  -- one beginning
  have hone : ∀ p ∈ prefixes, ∀ o, intervalOf (codecOf fields) k range p = .ok o →
      (∀ interval, o = some interval → ∃ low high, IntervalAt (typesOf fields) interval low high) ∧
      ∀ tuple key, IsKey (typesOf fields) tuple key →
        ((∃ interval, o = some interval ∧ Contains (codecOf fields) interval key) ↔
          places p = (places tuple).take k ∧ ∀ v, tuple[k]? = some v → Accepts range (componentPlace v)) := by
    intro p hp o ho
    obtain rfl := henum.length p hp
    have hpresent : range ≠ [] → p.length < (typesOf fields).length := by
      intro hne
      unfold typesOf
      rw [length_map]
      exact hrange.present hne
    obtain ⟨low, high, hat, hnone, hiff⟩ :=
      intervalOf_spec htypes (henum.values p hp) hrange.conjuncts hpresent ho
    refine ⟨fun interval hi => ⟨low, high, hat interval hi⟩, fun tuple key hkey => ?_⟩
    rw [← hiff tuple hkey.tuple.length_eq.symm]
    constructor
    · rintro ⟨interval, hi, hcontains⟩
      exact ((hat interval hi).contains_iff hkey).mp hcontains
    · intro hbetween
      cases o with
      | none => exact absurd (hbetween.1.trans hbetween.2) (not_lt.mpr (hnone rfl))
      | some interval => exact ⟨interval, rfl, ((hat interval rfl).contains_iff hkey).mpr hbetween⟩
  have hmem : ∀ interval, interval ∈ opts.reduceOption → ∃ p ∈ prefixes,
      intervalOf (codecOf fields) k range p = .ok (some interval) := by
    intro interval hi
    exact Traverse.mem_left hall (reduceOption_mem_iff.mp hi)
  refine ⟨?_, ?_, ?_⟩
  · intro interval hi
    obtain ⟨p, hp, ho⟩ := hmem interval hi
    exact (hone p hp _ ho).1 interval rfl
  · -- keys of different beginnings are different
    have hdistinct := henum.distinct
    clear hmem henum hrange
    induction hall with
    | nil => exact .nil
    | @cons p o prefixes opts ho hall ih =>
      obtain ⟨hfirst, hrest⟩ := pairwise_cons.mp hdistinct
      have hrest := ih (forall_mem_cons.mp hone).2 hrest
      cases o with
      | none => exact hrest
      | some interval =>
        rw [reduceOption_cons_of_some]
        refine pairwise_cons.mpr ⟨fun other hother tuple key hkey hboth => ?_, hrest⟩
        obtain ⟨p', hp', ho'⟩ := Traverse.mem_left hall (reduceOption_mem_iff.mp hother)
        have hp := ((hone p mem_cons_self _ ho).2 tuple key hkey).mp ⟨_, rfl, hboth.1⟩
        have hp'' := ((hone p' (mem_cons_of_mem p hp') _ ho').2 tuple key hkey).mp ⟨_, rfl, hboth.2⟩
        exact hfirst p' hp' (hp.1.trans hp''.1.symm)
  · intro tuple key hkey
    constructor
    · rintro ⟨interval, hi, hcontains⟩
      obtain ⟨p, hp, ho⟩ := hmem interval hi
      exact ⟨p, hp, ((hone p hp _ ho).2 tuple key hkey).mp ⟨_, rfl, hcontains⟩⟩
    · rintro ⟨p, hp, hin⟩
      obtain ⟨o, hmem', ho⟩ := Traverse.mem_right hall hp
      obtain ⟨interval, rfl, hcontains⟩ := ((hone p hp _ ho).2 tuple key hkey).mpr hin
      exact ⟨interval, reduceOption_mem_iff.mpr hmem', hcontains⟩

theorem bound_columns_iff {k : Nat} (henum : Enumerates fields leaves k prefixes)
    (hrange : RangeOk fields leaves k range) (hrow : RowOk fields row) :
    (∃ p ∈ prefixes, places p = (places (tupleOf fields row)).take k ∧
        ∀ v, (tupleOf fields row)[k]? = some v → Accepts range (componentPlace v)) ↔
      ∀ f ∈ fields.take (k + if range.isEmpty then 0 else 1), ColumnHolds leaves row f := by
  have htake : (places (tupleOf fields row)).take k = places (tupleOf (fields.take k) row) := by
    unfold places tupleOf
    rw [map_take, map_take]
  have hcovers := henum.covers row hrow
  rw [htake, show (∃ p ∈ prefixes, places p = places (tupleOf (fields.take k) row) ∧
      ∀ v, (tupleOf fields row)[k]? = some v → Accepts range (componentPlace v)) ↔
    (∃ p ∈ prefixes, places p = places (tupleOf (fields.take k) row)) ∧
      ∀ v, (tupleOf fields row)[k]? = some v → Accepts range (componentPlace v) by
    constructor
    · rintro ⟨p, hp, h, hacc⟩
      exact ⟨⟨p, hp, h⟩, hacc⟩
    · rintro ⟨⟨p, hp, h⟩, hacc⟩
      exact ⟨p, hp, h, hacc⟩, hcovers]
  cases hempty : range.isEmpty with
  | true =>
    rw [List.isEmpty_iff.mp hempty, if_pos rfl, Nat.add_zero]
    exact ⟨fun h => h.1, fun h => ⟨h, fun _ _ => nofun⟩⟩
  | false =>
    have hne : range ≠ [] := by
      rintro rfl
      cases hempty
    have hlt := hrange.present hne
    have hget : fields[k]? = some fields[k] := getElem?_eq_getElem hlt
    have hvalue : (tupleOf fields row)[k]? = some (row fields[k].name) := by
      unfold tupleOf
      rw [getElem?_map, hget]
      rfl
    rw [if_neg Bool.false_ne_true, take_add_one, hget]
    show _ ↔ ∀ f ∈ fields.take k ++ [fields[k]], ColumnHolds leaves row f
    rw [forall_mem_append, forall_mem_singleton, hrange.covers _ hget row hrow, hvalue]
    refine and_congr_right fun _ => ⟨fun h => h _ rfl, fun h v hv => ?_⟩
    exact Option.some.inj hv ▸ h

/-- **What a plan is.** -/
theorem plan_spec (htypes : IndexTypes (typesOf fields))
    (hsized : Predicate.Leaves (fun _ _ _ _ literals => ∀ l ∈ literals, Sized l) predicate)
    {plan : CompositePlan} (h : CompositePlan.plan fields predicate = .ok (some plan)) :
    PlanSpec fields predicate plan := by
  unfold CompositePlan.plan at h
  obtain ⟨out, hscan, h⟩ := bind_ok h
  have hsplit : fields = [] ++ fields := rfl
  have hspec : ScanSpec fields (planLeaves predicate) out :=
    scanFields_spec htypes (planLeaves_sized hsized) hsplit (enumerates_start _) hscan
  cases out with
  | declined => cases h
  | nothing k =>
    obtain rfl := Option.some.inj (Except.ok.inj h)
    refine ⟨rfl, nofun, .nil, fun row hrow key _ => ⟨?_, fun hall => ?_⟩⟩
    · rintro ⟨_, hi, -⟩
      cases hi
    · exact absurd hall (hspec row hrow)
  | found prefixes k range =>
    obtain ⟨henum, hrange⟩ := hspec
    dsimp only at h
    by_cases hzero : (k + if range.isEmpty then 0 else 1) = 0
    · rw [if_pos hzero] at h
      cases h
    · rw [if_neg hzero] at h
      obtain ⟨opts, hopts, h⟩ := bind_ok h
      obtain rfl := Option.some.inj (Except.ok.inj h)
      obtain ⟨hplaces, hdisjoint, hcovers⟩ :=
        found_spec htypes henum hrange (Traverse.except_mapM.mp hopts)
      refine ⟨rfl, hplaces, hdisjoint, fun row hrow key hkey => ?_⟩
      rw [hcovers _ key hkey, bound_columns_iff henum hrange hrow]

variable {a b : List (Option Datum)}

theorem anyMeets_false {intervals : List CompositeInterval}
    (hplaces : ∀ interval ∈ intervals, ∃ low high, IntervalAt types interval low high)
    {first last : Bytes} (ha : IsKey types a first)
    (hb : IsKey types b last) (h : anyMeets ⟨types⟩ first last intervals = .ok false)
    {tuple : List (Option Datum)} (hkey : IsKey types tuple key)
    (hfirst : keyPlace a ≤ keyPlace tuple) (hlast : keyPlace tuple ≤ keyPlace b) :
    ∀ interval ∈ intervals, ¬ Contains ⟨types⟩ interval key := by
  induction intervals with
  | nil => exact nofun
  | cons interval intervals ih =>
    obtain ⟨low, high, hat⟩ := hplaces interval mem_cons_self
    have hrest := ih (forall_mem_cons.mp hplaces).2
    rw [anyMeets] at h
    simp only [hat.lower b last hb, hat.upper a first ha, bind, Except.bind] at h
    have hcontains := hat.contains_iff hkey
    refine forall_mem_cons.mpr ?_
    split at h
    · split at h
      · cases h
      · next hhigh =>
        refine ⟨fun hin => hhigh (compare_lt_iff_lt.mpr ?_), hrest h⟩
        exact hfirst.trans_lt (hcontains.mp hin).2
    · next hlow =>
      refine ⟨fun hin => hlow (compare_gt_iff_gt.mpr ?_), hrest h⟩
      exact (hcontains.mp hin).1.trans_le hlast

def IsIndexKey (fields : List DataField) (tuple : List (Option Datum)) (key : Bytes) : Prop :=
  TupleOk (typesOf fields) tuple ∧ (codecOf fields).serialize tuple = .ok key

theorem IsIndexKey.isKey {tuple : List (Option Datum)}
    (h : IsIndexKey fields tuple key) : IsKey (typesOf fields) tuple key :=
  CompositeKeyCodec.serialize_isKey h.1 h.2

def keyLe (fields : List DataField) (a b : Bytes) : Prop :=
  ∃ order, (codecOf fields).compareKeys a b = .ok order ∧ order ≠ .gt

theorem keyLe_iff (htypes : IndexTypes (typesOf fields)) {ka kb : Bytes}
    (ha : IsKey (typesOf fields) a ka) (hb : IsKey (typesOf fields) b kb) :
    keyLe fields ka kb ↔ keyPlace a ≤ keyPlace b := by
  unfold keyLe
  rw [show codecOf fields = ⟨typesOf fields⟩ from rfl, compareKeys_eq htypes ha hb]
  constructor
  · rintro ⟨order, horder, hne⟩
    obtain rfl := Except.ok.inj horder
    exact not_lt.mp fun hlt => hne (compare_gt_iff_gt.mpr hlt)
  · exact fun hle => ⟨_, rfl, fun hgt => absurd (compare_gt_iff_gt.mp hgt) (not_lt.mpr hle)⟩

theorem RowOk.tuple (h : RowOk fields row) : TupleOk (typesOf fields) (tupleOf fields row) := by
  unfold TupleOk typesOf tupleOf
  rw [forall₂_map_left_iff, forall₂_map_right_iff]
  exact forall₂_same.mpr h.values

/-- **A composite plan covers exactly the constrained tuples.**  A row the predicate holds of has its
key in an interval, the intervals are disjoint, a key lies in one iff the supported conjuncts on the
bound columns hold, and a range of keys that may not match holds no key of any interval. -/
theorem composite_plan_exact (htypes : IndexTypes (typesOf fields))
    (hsized : Predicate.Leaves (fun _ _ _ _ literals => ∀ l ∈ literals, Sized l) predicate)
    {plan : CompositePlan} (hplan : CompositePlan.plan fields predicate = .ok (some plan)) :
    (∀ leaf row key, RowOk fields row → Agrees leaf row →
      (codecOf fields).serialize (tupleOf fields row) = .ok key →
      Predicate.eval leaf predicate = some true →
      ∃ interval ∈ plan.intervals, Contains (codecOf fields) interval key) ∧
    (plan.intervals.Pairwise fun a b => ∀ tuple key, IsIndexKey fields tuple key →
      ¬ (Contains (codecOf fields) a key ∧ Contains (codecOf fields) b key)) ∧
    (∀ leaf row key, RowOk fields row → Agrees leaf row →
      (codecOf fields).serialize (tupleOf fields row) = .ok key →
      ((∃ interval ∈ plan.intervals, Contains (codecOf fields) interval key) ↔
        ∀ c ∈ Predicate.splitAnd predicate, ConjunctOn (fields.take plan.boundColumns) c →
          Predicate.eval leaf c = some true)) ∧
    ∀ first last : Option Bytes, (∀ f, first = some f → ∃ tuple, IsIndexKey fields tuple f) →
      (∀ l, last = some l → ∃ tuple, IsIndexKey fields tuple l) →
      plan.mayMatch first last = .ok false → ∀ tuple key, IsIndexKey fields tuple key →
      (∀ f, first = some f → keyLe fields f key) → (∀ l, last = some l → keyLe fields key l) →
      ∀ interval ∈ plan.intervals, ¬ Contains (codecOf fields) interval key := by
  have hspec := plan_spec htypes hsized hplan
  have hcovers : ∀ leaf row key, RowOk fields row → Agrees leaf row →
      (codecOf fields).serialize (tupleOf fields row) = .ok key →
      ((∃ interval ∈ plan.intervals, Contains (codecOf fields) interval key) ↔
        ∀ c ∈ Predicate.splitAnd predicate, ConjunctOn (fields.take plan.boundColumns) c →
          Predicate.eval leaf c = some true) := by
    intro leaf row key hrow hleaf hserialize
    have hkey : IsKey (typesOf fields) (tupleOf fields row) key :=
      IsIndexKey.isKey ⟨hrow.tuple, hserialize⟩
    rw [hspec.covers row hrow key hkey, columnHolds_iff hleaf]
  refine ⟨fun leaf row key hrow hleaf hserialize hholds => ?_, ?_, hcovers, ?_⟩
  · refine (hcovers leaf row key hrow hleaf hserialize).mpr fun c hc _ => ?_
    exact (Predicate.eval_splitAnd predicate).mp hholds c hc
  · exact hspec.disjoint.imp fun h tuple key hkey => h tuple key hkey.isKey
  · intro first last hfirst hlast hmay tuple key hkey hlow hhigh
    unfold CompositePlan.mayMatch at hmay
    split at hmay
    · next hempty =>
      rw [List.isEmpty_iff.mp hempty]
      exact nofun
    cases first with
    | none => cases hmay
    | some first =>
      cases last with
      | none => cases hmay
      | some last =>
        obtain ⟨a, ha⟩ := hfirst first rfl
        obtain ⟨b, hb⟩ := hlast last rfl
        rw [hspec.same] at hmay
        exact anyMeets_false hspec.located ha.isKey hb.isKey hmay hkey.isKey
          ((keyLe_iff htypes ha.isKey hkey.isKey).mp (hlow first rfl))
          ((keyLe_iff htypes hkey.isKey hb.isKey).mp (hhigh last rfl))

end

/-! ## on a small index -/

/-- an index on an INT and a VARCHAR column -/
def pairFields : List DataField := [⟨"a", ⟨.int, true⟩⟩, ⟨"b", ⟨.varChar 10, true⟩⟩]

/-- `a IN (2, 1) AND b > 'k' AND b <= 'p'` -/
def pairPredicate : Predicate := .and [.leaf "a" 0 ⟨.int, true⟩ .isIn [.int 2, .int 1],
  .leaf "b" 1 ⟨.varChar 10, true⟩ .gt [.string ['k']],
  .leaf "b" 1 ⟨.varChar 10, true⟩ .ltEq [.string ['p']]]

def pairRow : Row := fun column => if column = "a" then some (.int 1) else some (.string ['m'])

def rowLeaf (row : Row) : LeafEval := fun column _ _ op literals =>
  (evalLeaf op (row column) literals).toOption

/-- the key of `(1, 'm')` lies in the second of the two intervals -/
theorem composite_plan_pair : ∃ plan key, CompositePlan.plan pairFields pairPredicate = .ok (some plan) ∧
    (codecOf pairFields).serialize (tupleOf pairFields pairRow) = .ok key ∧
    Predicate.eval (rowLeaf pairRow) pairPredicate = some true ∧ plan.intervals.length = 2 ∧
    ∃ interval ∈ plan.intervals, Contains (codecOf pairFields) interval key := by
  have hplan : CompositePlan.plan pairFields pairPredicate = .ok (some ⟨pairFields,
      [⟨⟨[some [2, 0, 0, 0], some [107]], true⟩, ⟨[some [2, 0, 0, 0], some [112]], true⟩, none⟩,
        ⟨⟨[some [1, 0, 0, 0], some [107]], true⟩, ⟨[some [1, 0, 0, 0], some [112]], true⟩, none⟩],
      2, 1⟩) := by decide +kernel
  have hkey : (codecOf pairFields).serialize (tupleOf pairFields pairRow)
      = .ok [0, 0, 1, 0, 0, 0, 1, 109] := by decide +kernel
  have heval : Predicate.eval (rowLeaf pairRow) pairPredicate = some true := by decide +kernel
  have htypes : IndexTypes (typesOf pairFields) := by
    unfold IndexTypes
    decide
  have hsized : Predicate.Leaves (fun _ _ _ _ literals => ∀ l ∈ literals, Sized l)
      pairPredicate := by
    refine .and ?_
    simp only [forall_mem_cons]
    exact ⟨.leaf (by decide), .leaf (by decide), .leaf (by decide), nofun⟩
  have hrow : RowOk pairFields pairRow := by
    refine ⟨?_, fun f _ hnone => ?_⟩
    · simp only [pairFields, forall_mem_cons]
      refine ⟨fun d hd => ?_, fun d hd => ?_, nofun⟩
      · obtain rfl := Option.some.inj hd
        exact .int (by decide)
      · obtain rfl := Option.some.inj hd
        exact .varChar
    · unfold pairRow at hnone
      split at hnone <;> cases hnone
  exact ⟨_, _, hplan, hkey, heval, rfl,
    (composite_plan_exact htypes hsized hplan).1 _ pairRow _ hrow (fun _ _ _ _ _ _ => rfl) hkey heval⟩

/-- `a IS NULL` on a column that is NOT NULL plans no interval, although a tuple with NULL satisfies
it -/
theorem null_component_uncovered : ∃ plan key,
    CompositePlan.plan [⟨"a", ⟨.int, false⟩⟩] (.leaf "a" 0 ⟨.int, false⟩ .isNull []) = .ok (some plan) ∧
    (codecOf [⟨"a", ⟨.int, false⟩⟩]).serialize [none] = .ok key ∧
    Predicate.eval (rowLeaf fun _ => none) (.leaf "a" 0 ⟨.int, false⟩ .isNull []) = some true ∧
    ¬ ∃ interval ∈ plan.intervals, Contains (codecOf [⟨"a", ⟨.int, false⟩⟩]) interval key := by
  refine ⟨⟨[⟨"a", ⟨.int, false⟩⟩], [], 1, 1⟩, [0, 1], by decide +kernel, by decide +kernel, rfl, ?_⟩
  rintro ⟨_, hi, -⟩
  cases hi

end Paimon.BTree
