import Paimon.Spec.Predicate

/-!
# Predicate trees over any evaluation of leaves

The constructors of `spec/predicate.rs` that simplify while they build, and what they keep.

* `Predicate.eval leaf`: a tree under an evaluation of its leaves, `none` being an error of one; NOT is
  two-valued, as in the residual filter;
* `mkAnd`, `mkOr`  `Predicate::and` and `Predicate::or`: nested connectives are flattened and constants
  absorbed;
* `splitAnd`: the conjuncts of a tree, `eval_splitAnd`;
* `negate`  `Predicate::negate`: NOT NOT and NOT of a constant are resolved, and an IN or NOT IN without
  literals turns into the other one.

The last rewriting is not a negation: IN and NOT IN are both false of NULL.  `eval_negate` therefore
asks that no such leaf is negated (`NoEmptySet`).
-/

namespace Paimon

open List

abbrev LeafEval := String → Nat → DataType → PredicateOperator → List Datum → Option Bool

namespace Predicate

section
variable (leaf : LeafEval)

mutual

def eval : Predicate → Option Bool
  | .alwaysTrue => some true
  | .alwaysFalse => some false
  | .and children => conj children
  | .or children => disj children
  | .not inner => (eval inner).map (!·)
  | .leaf column index dataType op literals => leaf column index dataType op literals

def conj : List Predicate → Option Bool
  | [] => some true
  | p :: ps => do
    let a ← eval p
    let b ← conj ps
    return a && b

def disj : List Predicate → Option Bool
  | [] => some false
  | p :: ps => do
    let a ← eval p
    let b ← disj ps
    return a || b

end

end

/-! ## constructors that simplify -/

def isFalse : Predicate → Bool
  | .alwaysFalse => true
  | _ => false

def isTrue : Predicate → Bool
  | .alwaysTrue => true
  | _ => false

mutual

/-- one child put behind `out`; `AlwaysFalse` takes the place of everything -/
def flattenAndOne : Predicate → List Predicate → List Predicate
  | .alwaysTrue, out => out
  | .alwaysFalse, _ => [.alwaysFalse]
  | .and children, out => flattenAnd children out
  | p, out => out ++ [p]

def flattenAnd : List Predicate → List Predicate → List Predicate
  | [], out => out
  | p :: ps, out =>
    let out := flattenAndOne p out
    if out.head?.any isFalse then out else flattenAnd ps out

end

def mkAnd (predicates : List Predicate) : Predicate :=
  match flattenAnd predicates [] with
  | [] => .alwaysTrue
  | [p] => p
  | flat => .and flat

mutual

def flattenOrOne : Predicate → List Predicate → List Predicate
  | .alwaysFalse, out => out
  | .alwaysTrue, _ => [.alwaysTrue]
  | .or children, out => flattenOr children out
  | p, out => out ++ [p]

def flattenOr : List Predicate → List Predicate → List Predicate
  | [], out => out
  | p :: ps, out =>
    let out := flattenOrOne p out
    if out.head?.any isTrue then out else flattenOr ps out

end

def mkOr (predicates : List Predicate) : Predicate :=
  match flattenOr predicates [] with
  | [] => .alwaysFalse
  | [p] => p
  | flat => .or flat

mutual

def splitAnd : Predicate → List Predicate
  | .and children => splitAndAll children
  | p => [p]

def splitAndAll : List Predicate → List Predicate
  | [] => []
  | p :: ps => splitAnd p ++ splitAndAll ps

end

def negate : Predicate → Predicate
  | .not inner => inner
  | .alwaysTrue => .alwaysFalse
  | .alwaysFalse => .alwaysTrue
  | .leaf column index dataType .isIn [] => .leaf column index dataType .notIn []
  | .leaf column index dataType .notIn [] => .leaf column index dataType .isIn []
  | p => .not p

/-! ## both connectives at once

`true` stands for AND and `false` for OR: a connective is named by the value that adds nothing. -/

def unitOf (u : Bool) : Predicate := bif u then .alwaysTrue else .alwaysFalse

def nodeOf (u : Bool) (children : List Predicate) : Predicate := bif u then .and children else .or children

def isZero (u : Bool) : Predicate → Bool := bif u then isFalse else isTrue

def flattenOne (u : Bool) (p : Predicate) (out : List Predicate) : List Predicate :=
  bif u then flattenAndOne p out else flattenOrOne p out

def flatten (u : Bool) (ps out : List Predicate) : List Predicate :=
  bif u then flattenAnd ps out else flattenOr ps out

/-- **What flattening preserves**: `R taken out` says that `out` stands for the children `taken`. -/
theorem flatten_rule (u : Bool) {R : List Predicate → List Predicate → Prop}
    (push : ∀ {taken out} p, R taken out → R (taken ++ [p]) (out ++ [p]))
    (unit : ∀ {taken out}, R taken out → R (taken ++ [unitOf u]) out)
    (zero : ∀ {taken out}, R taken out → R (taken ++ [unitOf !u]) [unitOf !u])
    (node : ∀ {taken children out}, R (taken ++ children) out → R (taken ++ [nodeOf u children]) out)
    (stop : ∀ {taken out} rest, out.head?.any (isZero u) = true → R taken out → R (taken ++ rest) out)
    (ps : List Predicate) {taken out : List Predicate} (h : R taken out) :
    R (taken ++ ps) (flatten u ps out) := by
  -- a list of children, given what is true of each of them
  have hlist : ∀ ps : List Predicate, (∀ p ∈ ps, ∀ taken out, R taken out → R (taken ++ [p]) (flattenOne u p out)) →
      ∀ taken out, R taken out → R (taken ++ ps) (flatten u ps out) := by
    intro ps hone
    induction ps with
    | nil =>
      intro taken out h
      have hnil : flatten u [] out = out := by cases u <;> simp [flatten, flattenAnd, flattenOr]
      rwa [hnil, append_nil]
    | cons p ps ih =>
      intro taken out h
      have hcons : flatten u (p :: ps) out = if (flattenOne u p out).head?.any (isZero u) then flattenOne u p out
          else flatten u ps (flattenOne u p out) := by
        cases u <;> simp only [flatten, cond_true, cond_false, flattenAnd, flattenOr] <;> rfl
      have hp := hone p mem_cons_self taken out h
      rw [hcons, append_cons]
      split
      · next hhead => exact stop ps hhead hp
      · exact ih (forall_mem_cons.mp hone).2 _ _ hp
  refine hlist ps (fun p hp => ?_) taken out h
  clear h hp
  induction p with
  | and children ih | or children ih =>
    intro taken out h
    have hnode := hlist children ih taken out h
    cases u <;> simp only [flattenOne, flatten, cond_true, cond_false, flattenAndOne, flattenOrOne] at hnode ⊢
    all_goals first | exact node hnode | exact push _ h
  | alwaysTrue | alwaysFalse =>
    intro taken out h
    cases u <;> simp only [flattenOne, cond_true, cond_false, flattenAndOne, flattenOrOne]
    all_goals first | exact unit h | exact zero h
  | leaf | not =>
    intro taken out h
    cases u <;> simp only [flattenOne, cond_true, cond_false, flattenAndOne, flattenOrOne] <;> exact push _ h

/-! ## lists of children -/

variable {b : Bool} {p : Predicate}

section
variable {leaf : LeafEval}

theorem eval_and (children : List Predicate) : eval leaf (.and children) = conj leaf children := by
  rw [eval]

theorem eval_or (children : List Predicate) : eval leaf (.or children) = disj leaf children := by
  rw [eval]

theorem eval_not (inner : Predicate) : eval leaf (.not inner) = (eval leaf inner).map (!·) := by
  rw [eval]

variable {ps : List Predicate}

theorem both_eq_some {x y : Option Bool} {f : Bool → Bool → Bool} :
    (x.bind fun a => y.bind fun c => some (f a c)) = some b ↔ ∃ a c, x = some a ∧ y = some c ∧ b = f a c := by
  constructor
  · intro h
    obtain ⟨a, ha, h⟩ := Option.bind_eq_some_iff.mp h
    obtain ⟨c, hc, h⟩ := Option.bind_eq_some_iff.mp h
    exact ⟨a, c, ha, hc, (Option.some.inj h).symm⟩
  · rintro ⟨a, c, rfl, rfl, rfl⟩
    rfl

theorem conj_cons : conj leaf (p :: ps) = some b ↔
      ∃ a c, eval leaf p = some a ∧ conj leaf ps = some c ∧ b = (a && c) := by
  rw [conj]
  exact both_eq_some

theorem disj_cons : disj leaf (p :: ps) = some b ↔
      ∃ a c, eval leaf p = some a ∧ disj leaf ps = some c ∧ b = (a || c) := by
  rw [disj]
  exact both_eq_some

theorem conj_true : conj leaf ps = some true ↔ ∀ p ∈ ps, eval leaf p = some true := by
  induction ps with
  | nil => simp [conj]
  | cons p ps ih =>
    rw [conj_cons]
    constructor
    · rintro ⟨a, c, ha, hc, hac⟩
      obtain ⟨rfl, rfl⟩ := Bool.and_eq_true_iff.mp hac.symm
      exact forall_mem_cons.mpr ⟨ha, ih.mp hc⟩
    · intro h
      exact ⟨true, true, h p mem_cons_self, ih.mpr (forall_mem_cons.mp h).2, rfl⟩

theorem mem_splitAndAll {q : Predicate} : q ∈ splitAndAll ps ↔ ∃ p ∈ ps, q ∈ splitAnd p := by
  induction ps with
  | nil => simp [splitAndAll]
  | cons p ps ih =>
    rw [splitAndAll, mem_append, ih]
    simp only [mem_cons, exists_eq_or_imp]

/-- **A tree holds where all its conjuncts do.** -/
theorem eval_splitAnd (p : Predicate) :
    eval leaf p = some true ↔ ∀ q ∈ splitAnd p, eval leaf q = some true := by
  induction p with
  | and children ih =>
    rw [eval_and, conj_true, splitAnd]
    constructor
    · intro h q hq
      obtain ⟨c, hc, hq⟩ := mem_splitAndAll.mp hq
      exact (ih c hc).mp (h c hc) q hq
    · intro h c hc
      exact (ih c hc).mpr fun q hq => h q (mem_splitAndAll.mpr ⟨c, hc, hq⟩)
  | _ => simp [splitAnd]

theorem disj_true (h : disj leaf ps = some true) : ∃ p ∈ ps, eval leaf p = some true := by
  induction ps with
  | nil => simp [disj] at h
  | cons p ps ih =>
    obtain ⟨a, c, ha, hc, hac⟩ := disj_cons.mp h
    rcases Bool.or_eq_true_iff.mp hac.symm with rfl | rfl
    · exact ⟨p, mem_cons_self, ha⟩
    · obtain ⟨q, hq, hqv⟩ := ih hc
      exact ⟨q, mem_cons_of_mem p hq, hqv⟩

/-- the value of children under a connective, and how it joins two values -/
def evalChildren (leaf : LeafEval) (u : Bool) (ps : List Predicate) : Option Bool :=
  bif u then conj leaf ps else disj leaf ps

def join (u a c : Bool) : Bool := bif u then a && c else a || c

variable {u : Bool}

theorem evalChildren_cons : evalChildren leaf u (p :: ps) = some b ↔
    ∃ a c, eval leaf p = some a ∧ evalChildren leaf u ps = some c ∧ b = join u a c := by
  cases u
  · exact disj_cons
  · exact conj_cons

theorem evalChildren_append {l l' : List Predicate} : evalChildren leaf u (l ++ l') = some b ↔
    ∃ a c, evalChildren leaf u l = some a ∧ evalChildren leaf u l' = some c ∧ b = join u a c := by
  have hassoc : ∀ a c d, join u a (join u c d) = join u (join u a c) d := by cases u <;> decide
  induction l generalizing b with
  | nil => cases u <;> cases b <;> simp [evalChildren, conj, disj, join]
  | cons p l ih =>
    simp only [cons_append, evalChildren_cons, ih]
    constructor
    · rintro ⟨a, _, ha, ⟨c, d, hc, hd, rfl⟩, rfl⟩
      exact ⟨join u a c, d, ⟨a, c, ha, hc, rfl⟩, hd, hassoc a c d⟩
    · rintro ⟨_, d, ⟨a, c, ha, hc, rfl⟩, hd, rfl⟩
      exact ⟨a, join u c d, ha, ⟨c, d, hc, hd, rfl⟩, (hassoc a c d).symm⟩

theorem evalChildren_singleton (u : Bool) (p : Predicate) : evalChildren leaf u [p] = eval leaf p := by
  cases u <;> simp only [evalChildren, cond_true, cond_false, conj, disj] <;> cases eval leaf p <;> simp

theorem eval_unitOf (u : Bool) : eval leaf (unitOf u) = some u := by
  cases u <;> simp [unitOf, eval]

theorem evalChildren_stop {l : List Predicate} (hhead : l.head?.any (isZero u) = true)
    (h : evalChildren leaf u l = some b) : b = !u := by
  cases l with
  | nil => cases hhead
  | cons p l =>
    obtain ⟨a, c, ha, -, rfl⟩ := evalChildren_cons.mp h
    cases u <;> cases p <;> simp_all [isZero, isTrue, isFalse, eval, join]

theorem evalChildren_flatten (h : evalChildren leaf u ps = some b) :
    evalChildren leaf u (flatten u ps []) = some b := by
  refine flatten_rule u (R := fun taken out => ∀ b, evalChildren leaf u taken = some b → evalChildren leaf u out = some b)
    ?_ ?_ ?_ ?_ ?_ ps (fun _ h => h) b h
  · intro taken out p hR b hb
    obtain ⟨a, c, ha, hc, rfl⟩ := evalChildren_append.mp hb
    exact evalChildren_append.mpr ⟨a, c, hR a ha, hc, rfl⟩
  · intro taken out hR b hb
    obtain ⟨a, c, ha, hc, rfl⟩ := evalChildren_append.mp hb
    obtain rfl : u = c := by simpa [evalChildren_singleton, eval_unitOf] using hc
    rw [hR a ha]
    cases u <;> simp [join]
  · intro taken out hR b hb
    obtain ⟨a, c, -, hc, rfl⟩ := evalChildren_append.mp hb
    obtain rfl : (!u) = c := by simpa [evalChildren_singleton, eval_unitOf] using hc
    rw [hc]
    cases u <;> simp [join]
  · intro taken children out hR b hb
    have hnode : eval leaf (nodeOf u children) = evalChildren leaf u children := by
      cases u <;> simp [nodeOf, evalChildren, eval]
    rw [evalChildren_append, evalChildren_singleton, hnode, ← evalChildren_append] at hb
    exact hR b hb
  · intro taken out rest hhead hR b hb
    obtain ⟨a, c, ha, -, rfl⟩ := evalChildren_append.mp hb
    rw [hR a ha, evalChildren_stop hhead (hR a ha)]
    cases u <;> rfl

/-- **`Predicate::and` is the conjunction.** -/
theorem eval_mkAnd (h : conj leaf ps = some b) : eval leaf (mkAnd ps) = some b := by
  have hflat : conj leaf (flattenAnd ps []) = some b := evalChildren_flatten (u := true) h
  unfold mkAnd
  split
  · next heq => rw [heq, conj] at hflat; rw [eval]; exact hflat
  · next p heq => rw [heq] at hflat; rwa [← evalChildren_singleton true p]
  · rw [eval_and]; exact hflat

/-- **`Predicate::or` is the disjunction.** -/
theorem eval_mkOr (h : disj leaf ps = some b) : eval leaf (mkOr ps) = some b := by
  have hflat : disj leaf (flattenOr ps []) = some b := evalChildren_flatten (u := false) h
  unfold mkOr
  split
  · next heq => rw [heq, disj] at hflat; rw [eval]; exact hflat
  · next p heq => rw [heq] at hflat; rwa [← evalChildren_singleton false p]
  · rw [eval_or]; exact hflat

end

/-! ## the leaves of a tree -/

theorem forall_mem_pair {α : Type*} {P : α → Prop} {a b : α} : (∀ x ∈ [a, b], P x) ↔ P a ∧ P b := by
  rw [forall_mem_cons, forall_mem_singleton]

inductive Leaves (P : String → Nat → DataType → PredicateOperator → List Datum → Prop) :
    Predicate → Prop where
  | leaf {column : String} {index : Nat} {dataType : DataType} {op : PredicateOperator}
      {literals : List Datum} (h : P column index dataType op literals) :
      Leaves P (.leaf column index dataType op literals)
  | and {children : List Predicate} (h : ∀ c ∈ children, Leaves P c) : Leaves P (.and children)
  | or {children : List Predicate} (h : ∀ c ∈ children, Leaves P c) : Leaves P (.or children)
  | not {inner : Predicate} (h : Leaves P inner) : Leaves P (.not inner)
  | alwaysTrue : Leaves P .alwaysTrue
  | alwaysFalse : Leaves P .alwaysFalse

section
variable {P : String → Nat → DataType → PredicateOperator → List Datum → Prop} {ps : List Predicate}

theorem Leaves.flatten (u : Bool) (h : ∀ p ∈ ps, Leaves P p) : ∀ q ∈ Predicate.flatten u ps [], Leaves P q := by
  refine flatten_rule u (R := fun taken out => (∀ p ∈ taken, Leaves P p) → ∀ q ∈ out, Leaves P q)
    ?_ ?_ ?_ ?_ ?_ ps (fun h => h) h <;> simp only [forall_mem_append, forall_mem_singleton]
  · exact fun p hR h => ⟨hR h.1, h.2⟩
  · exact fun hR h => hR h.1
  · exact fun _ h => h.2
  · intro taken children out hR h
    refine hR ⟨h.1, ?_⟩
    cases u <;> cases h.2 <;> assumption
  · exact fun rest _ hR h => hR h.1

theorem Leaves.mkAnd (h : ∀ p ∈ ps, Leaves P p) : Leaves P (Predicate.mkAnd ps) := by
  have hflat : ∀ q ∈ Predicate.flattenAnd ps [], Leaves P q := Leaves.flatten true h
  unfold Predicate.mkAnd
  split
  · exact .alwaysTrue
  · next p heq => rw [heq] at hflat; exact hflat p mem_cons_self
  · exact .and hflat

theorem Leaves.mkOr (h : ∀ p ∈ ps, Leaves P p) : Leaves P (Predicate.mkOr ps) := by
  have hflat : ∀ q ∈ Predicate.flattenOr ps [], Leaves P q := Leaves.flatten false h
  unfold Predicate.mkOr
  split
  · exact .alwaysFalse
  · next p heq => rw [heq] at hflat; exact hflat p mem_cons_self
  · exact .or hflat

theorem Leaves.negate (h : Leaves P p) (hswap : ∀ column index dataType, P column index dataType .isIn [] ↔
      P column index dataType .notIn []) : Leaves P (Predicate.negate p) := by
  unfold Predicate.negate
  split
  · cases h with
    | not h => exact h
  · exact .alwaysFalse
  · exact .alwaysTrue
  · cases h with
    | leaf h => exact .leaf ((hswap _ _ _).mp h)
  · cases h with
    | leaf h => exact .leaf ((hswap _ _ _).mpr h)
  · exact .not h

end

/-! ## negation -/

/-- not an IN or NOT IN without literals -/
def setFilled (op : PredicateOperator) (literals : List Datum) : Bool :=
  match op, literals with
  | .isIn, [] => false
  | .notIn, [] => false
  | _, _ => true

/-- no IN or NOT IN without literals anywhere in the tree -/
def NoEmptySet : Predicate → Prop := Leaves fun _ _ _ op literals => setFilled op literals = true

/-- no IN or NOT IN without literals below a NOT -/
inductive NoEmptySetNegated : Predicate → Prop where
  | leaf {column : String} {index : Nat} {dataType : DataType} {op : PredicateOperator}
      {literals : List Datum} : NoEmptySetNegated (.leaf column index dataType op literals)
  | and {children : List Predicate} (h : ∀ c ∈ children, NoEmptySetNegated c) :
      NoEmptySetNegated (.and children)
  | or {children : List Predicate} (h : ∀ c ∈ children, NoEmptySetNegated c) :
      NoEmptySetNegated (.or children)
  | not {inner : Predicate} (h : NoEmptySet inner) : NoEmptySetNegated (.not inner)
  | alwaysTrue : NoEmptySetNegated .alwaysTrue
  | alwaysFalse : NoEmptySetNegated .alwaysFalse

/-- **`Predicate::negate` negates a tree without empty sets.** -/
theorem eval_negate {leaf : LeafEval} (hp : NoEmptySet p)
    (h : eval leaf p = some b) : eval leaf (negate p) = some (!b) := by
  unfold negate
  split
  · next inner =>
    rw [eval_not] at h
    obtain ⟨a, ha, rfl⟩ := Option.map_eq_some_iff.mp h
    rw [ha, Bool.not_not]
  · obtain rfl : true = b := by simpa [eval] using h
    simp [eval]
  · obtain rfl : false = b := by simpa [eval] using h
    simp [eval]
  · cases hp with
    | leaf hp => cases hp
  · cases hp with
    | leaf hp => cases hp
  · rw [eval_not, h]
    rfl

theorem NoEmptySet.negate (h : NoEmptySet p) : NoEmptySet (Predicate.negate p) :=
  Leaves.negate h fun _ _ _ => ⟨nofun, nofun⟩

end Predicate

end Paimon
