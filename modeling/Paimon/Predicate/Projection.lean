import Paimon.Lib.Traverse
import Paimon.Predicate.Row
import Paimon.Predicate.Trees
import Paimon.Spec.BinaryRowBuilder

/-!
# Predicates on partition rows

`remap_field_index`, `references_only_mapped_fields` and `project_field_index_inclusive` of
`spec/predicate.rs`: a predicate on table rows becomes one on partition rows.  The rows are evaluated by
`eval_row`, which stops at the first child that decides and at the first error.

* `evalRow_mkAnd`, `evalRow_mkOr`, `evalRow_negate`: what the constructors that simplify keep;
* `Agrees mapping full part p`: the partition row holds the mapped fields that `p` reads;
* `remap_evalRow`: all fields mapped: the same value;
* `project_evalRow`: children of AND that are not mapped are dropped: true stays true;
* `project_mapped`: only mapped fields: the same value.

`negate` turns an IN or NOT IN without literals into the other one, which is not its negation on NULL; the
results are about trees in which it meets none (`NoEmptySetFlipped`).
-/

namespace Paimon.Predicate

open List

/-! ## translation -/

def remapLeaf (mapping : List (Option Nat)) (column : String) (index : Nat) (dataType : DataType)
    (op : PredicateOperator) (literals : List Datum) : Option Predicate :=
  if isRowTrackingColumn column then none
  else mapping[index]?.join.map fun newIndex => .leaf column newIndex dataType op literals

mutual

def remapFieldIndex (mapping : List (Option Nat)) : Predicate → Option Predicate
  | .leaf column index dataType op literals => remapLeaf mapping column index dataType op literals
  | .and children => (remapChildren mapping children).map mkAnd
  | .or children => (remapChildren mapping children).map mkOr
  | .not inner => (remapFieldIndex mapping inner).map negate
  | .alwaysTrue => some .alwaysTrue
  | .alwaysFalse => some .alwaysFalse

def remapChildren (mapping : List (Option Nat)) : List Predicate → Option (List Predicate)
  | [] => some []
  | p :: ps => do
    let q ← remapFieldIndex mapping p
    let qs ← remapChildren mapping ps
    return q :: qs

end

mutual

def referencesOnlyMappedFields (mapping : List (Option Nat)) : Predicate → Bool
  | .leaf column index _ _ _ => !isRowTrackingColumn column && mapping[index]?.join.isSome
  | .and children => allReferenceOnlyMapped mapping children
  | .or children => allReferenceOnlyMapped mapping children
  | .not inner => referencesOnlyMappedFields mapping inner
  | .alwaysTrue => true
  | .alwaysFalse => true

def allReferenceOnlyMapped (mapping : List (Option Nat)) : List Predicate → Bool
  | [] => true
  | p :: ps => referencesOnlyMappedFields mapping p && allReferenceOnlyMapped mapping ps

end

mutual

def projectFieldIndexInclusive (mapping : List (Option Nat)) : Predicate → Option Predicate
  | .leaf column index dataType op literals => remapLeaf mapping column index dataType op literals
  | .and children =>
    match projectSome mapping children with
    | [] => none
    | projected => some (mkAnd projected)
  | .or children => (projectAll mapping children).map mkOr
  | .not inner => (remapFieldIndex mapping inner).map negate
  | .alwaysTrue => some .alwaysTrue
  | .alwaysFalse => some .alwaysFalse

def projectSome (mapping : List (Option Nat)) : List Predicate → List Predicate
  | [] => []
  | p :: ps =>
    match projectFieldIndexInclusive mapping p with
    | some q => q :: projectSome mapping ps
    | none => projectSome mapping ps

def projectAll (mapping : List (Option Nat)) : List Predicate → Option (List Predicate)
  | [] => some []
  | p :: ps => do
    let q ← projectFieldIndexInclusive mapping p
    let qs ← projectAll mapping ps
    return q :: qs

end

def EmptySet : Predicate → Prop
  | .leaf _ _ _ op literals => literals = [] ∧ (op = .isIn ∨ op = .notIn)
  | _ => False

/-- no NOT of the tree is over an IN or NOT IN without literals once its operand is translated -/
inductive NoEmptySetFlipped (mapping : List (Option Nat)) : Predicate → Prop
  | leaf {column : String} {index : Nat} {dataType : DataType} {op : PredicateOperator} {literals : List Datum} :
    NoEmptySetFlipped mapping (.leaf column index dataType op literals)
  | and {children : List Predicate} (h : ∀ c ∈ children, NoEmptySetFlipped mapping c) :
    NoEmptySetFlipped mapping (.and children)
  | or {children : List Predicate} (h : ∀ c ∈ children, NoEmptySetFlipped mapping c) :
    NoEmptySetFlipped mapping (.or children)
  | not {inner : Predicate} (h : NoEmptySetFlipped mapping inner)
    (hset : ∀ q, remapFieldIndex mapping inner = some q → ¬ EmptySet q) : NoEmptySetFlipped mapping (.not inner)
  | alwaysTrue : NoEmptySetFlipped mapping .alwaysTrue
  | alwaysFalse : NoEmptySetFlipped mapping .alwaysFalse

/-! ## children in turn -/

section
variable {row : BinaryRow} {p : Predicate} {ps qs out : List Predicate} {b : Bool} {u : Bool}

theorem evalChildrenRow_append : evalChildrenRow row u (ps ++ qs) = .ok b ↔
    (evalChildrenRow row u ps = .ok (!u) ∧ b = !u) ∨
      (evalChildrenRow row u ps = .ok u ∧ evalChildrenRow row u qs = .ok b) := by
  have hu : u ≠ !u := by cases u <;> decide
  induction ps with
  | nil => cases u <;> simp [evalChildrenRow, evalAll, evalAny]
  | cons p ps ih =>
    simp only [cons_append, evalChildrenRow_cons, ih]
    tauto

theorem evalChildrenRow_singleton : evalChildrenRow row u [p] = .ok b ↔ evalRow row p = .ok b := by
  rw [evalChildrenRow_cons]
  cases u <;> cases b <;> simp [evalChildrenRow, evalAll, evalAny]

theorem evalRow_unitOf (u : Bool) : evalRow row (unitOf u) = .ok u := by
  cases u <;> simp [unitOf, evalRow]

theorem evalRow_and : evalRow row (.and ps) = evalAll row ps := by rw [evalRow]

theorem evalRow_or : evalRow row (.or ps) = evalAny row ps := by rw [evalRow]

/-! ## the constructors that simplify -/

theorem evalChildrenRow_stop (h : out.head?.any (isZero u) = true) : evalChildrenRow row u out = .ok (!u) := by
  cases out with
  | nil => cases h
  | cons q out =>
    refine evalChildrenRow_cons.mpr (.inl ⟨?_, rfl⟩)
    cases u <;> cases q <;> simp_all [isZero, isTrue, isFalse, evalRow]

theorem evalChildrenRow_flatten (h : evalChildrenRow row u ps = .ok b) :
    evalChildrenRow row u (flatten u ps []) = .ok b := by
  refine flatten_rule u
    (R := fun taken out => ∀ b, evalChildrenRow row u taken = .ok b → evalChildrenRow row u out = .ok b)
    ?_ ?_ ?_ ?_ ?_ ps (fun _ h => h) b h
  · intro taken out p hR b hb
    exact evalChildrenRow_append.mpr
      ((evalChildrenRow_append.mp hb).imp (And.imp_left (hR _)) (And.imp_left (hR _)))
  · intro taken out hR b hb
    obtain ⟨hout, rfl⟩ | ⟨hout, hunit⟩ := evalChildrenRow_append.mp hb
    · exact hR _ hout
    · rw [evalChildrenRow_singleton, evalRow_unitOf] at hunit
      cases hunit
      exact hR _ hout
  · intro taken out _ b hb
    obtain ⟨-, rfl⟩ | ⟨-, hzero⟩ := evalChildrenRow_append.mp hb
    · rw [evalChildrenRow_singleton, evalRow_unitOf]
    · exact hzero
  · intro taken children out hR b hb
    have hnode : evalRow row (nodeOf u children) = evalChildrenRow row u children := by
      cases u <;> simp [nodeOf, evalChildrenRow, evalRow]
    rw [evalChildrenRow_append, evalChildrenRow_singleton, hnode, ← evalChildrenRow_append] at hb
    exact hR b hb
  · intro taken out rest hhead hR b hb
    obtain ⟨hout, rfl⟩ | ⟨hout, -⟩ := evalChildrenRow_append.mp hb
    · exact hR _ hout
    · have hu := (hR _ hout).symm.trans (evalChildrenRow_stop hhead)
      cases u <;> cases hu

/-- **`Predicate::and` keeps the value of a conjunction.** -/
theorem evalRow_mkAnd (h : evalAll row ps = .ok b) : evalRow row (mkAnd ps) = .ok b := by
  have hflat : evalAll row (flattenAnd ps []) = .ok b := evalChildrenRow_flatten (u := true) h
  unfold mkAnd
  split
  · next heq =>
    rw [heq, evalAll] at hflat
    rwa [evalRow]
  · next p heq =>
    rw [heq] at hflat
    exact (evalChildrenRow_singleton (u := true)).mp hflat
  · rwa [evalRow_and]

/-- **`Predicate::or` keeps the value of a disjunction.** -/
theorem evalRow_mkOr (h : evalAny row ps = .ok b) : evalRow row (mkOr ps) = .ok b := by
  have hflat : evalAny row (flattenOr ps []) = .ok b := evalChildrenRow_flatten (u := false) h
  unfold mkOr
  split
  · next heq =>
    rw [heq, evalAny] at hflat
    rwa [evalRow]
  · next p heq =>
    rw [heq] at hflat
    exact (evalChildrenRow_singleton (u := false)).mp hflat
  · rwa [evalRow_or]

theorem evalRow_not : evalRow row (.not p) = .ok b ↔ evalRow row p = .ok (!b) := by
  rw [evalRow]
  cases evalRow row p with
  | error e => simp [Except.map]
  | ok v => cases v <;> cases b <;> simp [Except.map]

/-- **`Predicate::negate` negates a tree that is not an IN or NOT IN without literals.** -/
theorem evalRow_negate (hp : ¬ EmptySet p) (h : evalRow row p = .ok b) : evalRow row (negate p) = .ok (!b) := by
  unfold negate
  split
  · exact evalRow_not.mp h
  · rw [evalRow] at h
    cases h
    rw [evalRow]
    rfl
  · rw [evalRow] at h
    cases h
    rw [evalRow]
    rfl
  · exact absurd ⟨rfl, .inl rfl⟩ hp
  · exact absurd ⟨rfl, .inr rfl⟩ hp
  · rw [evalRow_not, Bool.not_not]
    exact h

end

/-! ## the same field in both rows -/

/-- the partition row holds the mapped fields of the table row that the tree reads -/
def Agrees (mapping : List (Option Nat)) (full part : BinaryRow) : Predicate → Prop :=
  Leaves fun _ index dataType _ _ => ∀ newIndex, mapping[index]? = some (some newIndex) →
    extractDatum full index dataType.root = extractDatum part newIndex dataType.root

def Evaluates (row : BinaryRow) : Predicate → Prop :=
  Leaves fun column index dataType op literals =>
    ∃ b, evalRow row (.leaf column index dataType op literals) = .ok b

section
variable {mapping : List (Option Nat)} {full part : BinaryRow} {p q : Predicate} {ps qs : List Predicate} {b : Bool}

variable {op : PredicateOperator} {literals : List Datum} {dataType : DataType} {column : String}
  {index : Nat}

theorem remapLeaf_eq
    (h : remapLeaf mapping column index dataType op literals = some q) :
    ∃ newIndex, mapping[index]? = some (some newIndex) ∧ q = .leaf column newIndex dataType op literals := by
  unfold remapLeaf at h
  split at h
  · cases h
  · obtain ⟨newIndex, hindex, rfl⟩ := Option.map_eq_some_iff.mp h
    exact ⟨newIndex, Option.join_eq_some_iff.mp hindex, rfl⟩

theorem remapLeaf_evalRow
    (hagree : Agrees mapping full part (.leaf column index dataType op literals))
    (h : remapLeaf mapping column index dataType op literals = some q) :
    evalRow part q = evalRow full (.leaf column index dataType op literals) := by
  obtain ⟨newIndex, hindex, rfl⟩ := remapLeaf_eq h
  cases hagree with
  | leaf hagree => rw [evalRow, evalRow, hagree newIndex hindex]

theorem remapChildren_eq : remapChildren mapping ps = some qs ↔
    List.Forall₂ (fun p q => remapFieldIndex mapping p = some q) ps qs :=
  Traverse.option_each (by rw [remapChildren]) fun p ps => by rw [remapChildren]

theorem projectAll_eq : projectAll mapping ps = some qs ↔
    List.Forall₂ (fun p q => projectFieldIndexInclusive mapping p = some q) ps qs :=
  Traverse.option_each (by rw [projectAll]) fun p ps => by rw [projectAll]

theorem evalChildrenRow_forall₂ (u : Bool)
    (h : List.Forall₂ (fun p q => ∀ b, evalRow full p = .ok b → evalRow part q = .ok b) ps qs)
    (hps : evalChildrenRow full u ps = .ok b) : evalChildrenRow part u qs = .ok b := by
  induction h with
  | nil => cases u <;> exact hps
  | cons hpq _ ih =>
    refine evalChildrenRow_cons.mpr ?_
    obtain ⟨hp, hb⟩ | ⟨hp, hrest⟩ := evalChildrenRow_cons.mp hps
    · exact .inl ⟨hpq _ hp, hb⟩
    · exact .inr ⟨hpq _ hp, ih hrest⟩

theorem forall₂_of_mem {R S : Predicate → Predicate → Prop} (h : List.Forall₂ R ps qs)
    (hRS : ∀ p ∈ ps, ∀ q, R p q → S p q) : List.Forall₂ S ps qs := by
  induction h with
  | nil => exact .nil
  | cons hpq _ ih =>
    exact .cons (hRS _ mem_cons_self _ hpq) (ih (forall_mem_cons.mp hRS).2)

/-! ## all fields mapped -/

/-- **A predicate on mapped fields has the same value on the partition row.** -/
theorem remap_evalRow (hset : NoEmptySetFlipped mapping p) (hagree : Agrees mapping full part p)
    (hq : remapFieldIndex mapping p = some q) (hp : evalRow full p = .ok b) : evalRow part q = .ok b := by
  induction p generalizing q b with
  | leaf column index dataType op literals =>
    rw [remapFieldIndex] at hq
    rw [remapLeaf_evalRow hagree hq]
    exact hp
  | and children ih | or children ih =>
    rw [remapFieldIndex] at hq
    obtain ⟨qs, hqs, rfl⟩ := Option.map_eq_some_iff.mp hq
    cases hset
    cases hagree
    next hset hagree =>
    have hall : List.Forall₂ (fun p q => ∀ b, evalRow full p = .ok b → evalRow part q = .ok b) children qs :=
      forall₂_of_mem (remapChildren_eq.mp hqs) fun p hmem q hpq b hb =>
        ih p hmem (hset p hmem) (hagree p hmem) hpq hb
    first
    | exact evalRow_mkAnd (evalChildrenRow_forall₂ true hall (evalRow_and.symm.trans hp))
    | exact evalRow_mkOr (evalChildrenRow_forall₂ false hall (evalRow_or.symm.trans hp))
  | not inner ih =>
    rw [remapFieldIndex] at hq
    obtain ⟨q', hq', rfl⟩ := Option.map_eq_some_iff.mp hq
    cases hset with
    | not hinset hset =>
      cases hagree with
      | not hagree =>
        have hinner := ih hinset hagree hq' (evalRow_not.mp hp)
        have hneg := evalRow_negate (hset q' hq') hinner
        rwa [Bool.not_not] at hneg
  | alwaysTrue | alwaysFalse =>
    rw [remapFieldIndex] at hq
    cases hq
    rw [evalRow] at hp ⊢
    exact hp

/-! ## some children dropped -/

theorem mem_projectSome (hq : q ∈ projectSome mapping ps) :
    ∃ p ∈ ps, projectFieldIndexInclusive mapping p = some q := by
  induction ps with
  | nil =>
    rw [projectSome] at hq
    exact absurd hq not_mem_nil
  | cons p ps ih =>
    rw [projectSome] at hq
    split at hq
    · next q' hq' =>
      obtain rfl | hq := mem_cons.mp hq
      · exact ⟨p, mem_cons_self, hq'⟩
      · obtain ⟨p', hp', h⟩ := ih hq
        exact ⟨p', mem_cons_of_mem p hp', h⟩
    · obtain ⟨p', hp', h⟩ := ih hq
      exact ⟨p', mem_cons_of_mem p hp', h⟩

theorem Evaluates.value (h : Evaluates full p) : ∃ b, evalRow full p = .ok b := by
  induction p with
  | leaf column index dataType op literals =>
    cases h with
    | leaf h => exact h
  | and children ih =>
    cases h with
    | and h =>
      rw [evalRow_and]
      exact evalAll_ok fun c hc => ih c hc (h c hc)
  | or children ih =>
    cases h with
    | or h =>
      rw [evalRow_or]
      exact evalAny_ok fun c hc => ih c hc (h c hc)
  | not inner ih =>
    cases h with
    | not h =>
      obtain ⟨b, hb⟩ := ih h
      refine ⟨!b, evalRow_not.mpr ?_⟩
      rwa [Bool.not_not]
  | alwaysTrue => exact ⟨true, by rw [evalRow]⟩
  | alwaysFalse => exact ⟨false, by rw [evalRow]⟩

/-- **What a row satisfies, its partition row satisfies as far as it is projected.** -/
theorem project_evalRow (hset : NoEmptySetFlipped mapping p) (hagree : Agrees mapping full part p)
    (hvalue : Evaluates full p) (hq : projectFieldIndexInclusive mapping p = some q) :
    ∃ b, evalRow part q = .ok b ∧ (evalRow full p = .ok true → b = true) := by
  -- a tree that keeps its value
  have hsame : ∀ {p q : Predicate}, Evaluates full p → (∀ b, evalRow full p = .ok b → evalRow part q = .ok b) →
      ∃ b, evalRow part q = .ok b ∧ (evalRow full p = .ok true → b = true) := by
    intro p q hvalue h
    obtain ⟨b, hb⟩ := hvalue.value
    refine ⟨b, h b hb, fun htrue => ?_⟩
    rw [hb] at htrue
    exact Except.ok.inj htrue
  induction p generalizing q with
  | leaf column index dataType op literals =>
    rw [projectFieldIndexInclusive] at hq
    exact hsame hvalue fun b hb => (remapLeaf_evalRow hagree hq).trans hb
  | and children ih =>
    rw [projectFieldIndexInclusive] at hq
    cases hset with
    | and hset =>
      cases hagree with
      | and hagree =>
        cases hvalue with
        | and hvalue =>
          have hchild : ∀ q ∈ projectSome mapping children, ∃ p ∈ children, ∃ b, evalRow part q = .ok b ∧
              (evalRow full p = .ok true → b = true) := by
            intro q hmem
            obtain ⟨p, hp, hpq⟩ := mem_projectSome hmem
            exact ⟨p, hp, ih p hp (hset p hp) (hagree p hp) (hvalue p hp) hpq⟩
          obtain ⟨b, hb⟩ := evalAll_ok fun q hmem => by
            obtain ⟨p, hp, b, hb, -⟩ := hchild q hmem
            exact ⟨b, hb⟩
          have hmk : q = mkAnd (projectSome mapping children) := by
            split at hq
            · cases hq
            · exact (Option.some.inj hq).symm
          refine ⟨b, hmk ▸ evalRow_mkAnd hb, fun htrue => ?_⟩
          rw [evalRow_and, evalAll_true_iff] at htrue
          have hall : evalAll part (projectSome mapping children) = .ok true := by
            refine evalAll_true_iff.mpr fun q hmem => ?_
            obtain ⟨p, hp, b, hb, himp⟩ := hchild q hmem
            rw [hb, himp (htrue p hp)]
          rw [hb] at hall
          exact Except.ok.inj hall
  | or children ih =>
    rw [projectFieldIndexInclusive] at hq
    obtain ⟨qs, hqs, rfl⟩ := Option.map_eq_some_iff.mp hq
    cases hset with
    | or hset =>
      cases hagree with
      | or hagree =>
        cases hvalue with
        | or hvalue =>
          have hchild : List.Forall₂ (fun p q => ∃ b, evalRow part q = .ok b ∧
              (evalRow full p = .ok true → b = true)) children qs :=
            forall₂_of_mem (projectAll_eq.mp hqs) fun p hp q hpq =>
              ih p hp (hset p hp) (hagree p hp) (hvalue p hp) hpq
          obtain ⟨b, hb⟩ := evalAny_ok fun q hmem => by
            obtain ⟨p, -, b, hb, -⟩ := Traverse.mem_left hchild hmem
            exact ⟨b, hb⟩
          refine ⟨b, evalRow_mkOr hb, fun htrue => ?_⟩
          -- if every projected child were false, no child of the tree would be true
          cases b with
          | true => rfl
          | false =>
            rw [evalRow_or] at htrue
            have hnone : evalAny full children = .ok false := by
              refine evalAny_false_iff.mpr fun p hp => ?_
              obtain ⟨q, hq, b, hbq, himp⟩ := Traverse.mem_right hchild hp
              rw [evalAny_false_iff.mp hb q hq] at hbq
              cases hbq
              obtain ⟨c, hc⟩ := Evaluates.value (hvalue p hp)
              cases c with
              | false => exact hc
              | true => cases himp hc
            rw [hnone] at htrue
            cases htrue
  | not inner _ =>
    rw [projectFieldIndexInclusive] at hq
    exact hsame hvalue fun b hb => remap_evalRow hset hagree (by rw [remapFieldIndex]; exact hq) hb
  | alwaysTrue | alwaysFalse =>
    rw [projectFieldIndexInclusive] at hq
    cases hq
    exact hsame hvalue fun b hb => by rw [evalRow] at hb ⊢; exact hb

/-! ## only mapped fields -/

theorem allReferenceOnlyMapped_iff :
    allReferenceOnlyMapped mapping ps = true ↔ ∀ p ∈ ps, referencesOnlyMappedFields mapping p = true := by
  induction ps with
  | nil => simp [allReferenceOnlyMapped]
  | cons p ps ih => simp [allReferenceOnlyMapped, ih]

theorem remap_isSome (h : referencesOnlyMappedFields mapping p = true) :
    ∃ q, remapFieldIndex mapping p = some q := by
  have hall : ∀ {ps : List Predicate}, (∀ p ∈ ps, ∃ q, remapFieldIndex mapping p = some q) →
      ∃ qs, remapChildren mapping ps = some qs := by
    intro ps hps
    simp only [remapChildren_eq]
    exact Traverse.exists_forall₂.mpr hps
  induction p with
  | leaf column index dataType op literals =>
    rw [referencesOnlyMappedFields, Bool.and_eq_true, Bool.not_eq_true'] at h
    obtain ⟨newIndex, hindex⟩ := Option.isSome_iff_exists.mp h.2
    rw [remapFieldIndex, remapLeaf, h.1, hindex]
    exact ⟨_, rfl⟩
  | and children ih | or children ih =>
    rw [referencesOnlyMappedFields, allReferenceOnlyMapped_iff] at h
    obtain ⟨qs, hqs⟩ := hall fun c hc => ih c hc (h c hc)
    exact ⟨_, by rw [remapFieldIndex, hqs]; rfl⟩
  | not inner ih =>
    rw [referencesOnlyMappedFields] at h
    obtain ⟨q, hq⟩ := ih h
    exact ⟨negate q, by rw [remapFieldIndex, hq]; rfl⟩
  | alwaysTrue => exact ⟨.alwaysTrue, by rw [remapFieldIndex]⟩
  | alwaysFalse => exact ⟨.alwaysFalse, by rw [remapFieldIndex]⟩

theorem evalAll_projectSome (h : ∀ p ∈ ps, (∀ q, projectFieldIndexInclusive mapping p = some q →
        ∀ b, evalRow full p = .ok b → evalRow part q = .ok b) ∧
      (projectFieldIndexInclusive mapping p = none → ∀ b, evalRow full p = .ok b → b = true))
    (hps : evalAll full ps = .ok b) : evalAll part (projectSome mapping ps) = .ok b := by
  induction ps with
  | nil =>
    rw [evalAll] at hps
    rw [projectSome, evalAll]
    exact hps
  | cons p ps ih =>
    obtain ⟨hsome, hnone⟩ := h p mem_cons_self
    have hrest := ih (forall_mem_cons.mp h).2
    rw [projectSome]
    split
    · next q hq =>
      refine evalAll_cons.mpr ?_
      obtain ⟨hp, hb⟩ | ⟨hp, hps⟩ := evalAll_cons.mp hps
      · exact .inl ⟨hsome q hq _ hp, hb⟩
      · exact .inr ⟨hsome q hq _ hp, hrest hps⟩
    · next hq =>
      obtain ⟨hp, -⟩ | ⟨-, hps⟩ := evalAll_cons.mp hps
      · cases hnone hq _ hp
      · exact hrest hps

/-- A tree on mapped fields keeps its value where it is projected, and is true where it is not: such a tree is an
AND without children or is made of such trees. -/
theorem project_mapped (hset : NoEmptySetFlipped mapping p) (hagree : Agrees mapping full part p)
    (href : referencesOnlyMappedFields mapping p = true) :
    (∀ q, projectFieldIndexInclusive mapping p = some q →
      ∀ b, evalRow full p = .ok b → evalRow part q = .ok b) ∧
    (projectFieldIndexInclusive mapping p = none → ∀ b, evalRow full p = .ok b → b = true) := by
  induction p with
  | leaf column index dataType op literals =>
    refine ⟨fun q hq b hb => ?_, fun hnone => ?_⟩
    · rw [projectFieldIndexInclusive] at hq
      rwa [remapLeaf_evalRow hagree hq]
    · obtain ⟨q, hq⟩ := remap_isSome href
      rw [projectFieldIndexInclusive] at hnone
      rw [remapFieldIndex, hnone] at hq
      cases hq
  | and children ih =>
    cases hset with
    | and hset =>
      cases hagree with
      | and hagree =>
        rw [referencesOnlyMappedFields, allReferenceOnlyMapped_iff] at href
        have hchild := fun p hp => ih p hp (hset p hp) (hagree p hp) (href p hp)
        rw [projectFieldIndexInclusive]
        constructor
        · intro q hq b hb
          rw [evalRow_and] at hb
          have hvalue := evalAll_projectSome hchild hb
          split at hq
          · cases hq
          · cases hq
            exact evalRow_mkAnd hvalue
        · intro hnone b hb
          rw [evalRow_and] at hb
          have hvalue := evalAll_projectSome hchild hb
          split at hnone
          · next hnil =>
            rw [hnil, evalAll] at hvalue
            exact (Except.ok.inj hvalue).symm
          · cases hnone
  | or children ih =>
    cases hset with
    | or hset =>
      cases hagree with
      | or hagree =>
        rw [referencesOnlyMappedFields, allReferenceOnlyMapped_iff] at href
        have hchild := fun p hp => ih p hp (hset p hp) (hagree p hp) (href p hp)
        rw [projectFieldIndexInclusive]
        constructor
        · intro q hq b hb
          obtain ⟨qs, hqs, rfl⟩ := Option.map_eq_some_iff.mp hq
          rw [evalRow_or] at hb
          refine evalRow_mkOr (evalChildrenRow_forall₂ false (forall₂_of_mem (projectAll_eq.mp hqs) ?_) hb)
          exact fun p hp q hpq => (hchild p hp).1 q hpq
        · -- a child that is not projected is true, if the children before it are not
          intro hnone b hb
          rw [Option.map_eq_none_iff] at hnone
          rw [evalRow_or] at hb
          cases b with
          | true => rfl
          | false =>
            have hfalse := evalAny_false_iff.mp hb
            have hsome : ∀ p ∈ children, ∃ q, projectFieldIndexInclusive mapping p = some q := by
              intro p hp
              cases hq : projectFieldIndexInclusive mapping p with
              | some q => exact ⟨q, rfl⟩
              | none => cases (hchild p hp).2 hq _ (hfalse p hp)
            obtain ⟨qs, hqs⟩ := Traverse.exists_forall₂.mpr hsome
            rw [projectAll_eq.mpr hqs] at hnone
            cases hnone
  | not inner _ =>
    have heq : projectFieldIndexInclusive mapping (.not inner) = remapFieldIndex mapping (.not inner) := by
      rw [projectFieldIndexInclusive, remapFieldIndex]
    rw [heq]
    refine ⟨fun q hq b hb => remap_evalRow hset hagree hq hb, fun hnone => ?_⟩
    obtain ⟨q, hq⟩ := remap_isSome href
    rw [hq] at hnone
    cases hnone
  | alwaysTrue | alwaysFalse =>
    rw [projectFieldIndexInclusive]
    refine ⟨fun q hq b hb => ?_, fun hnone => by cases hnone⟩
    cases hq
    rw [evalRow] at hb ⊢
    exact hb

end

/-! ## the translations together -/

/-- **Partition projection.**  For trees in which no NOT is over an IN or NOT IN without literals: the translation of
all fields keeps the value, the inclusive one keeps what is true, and is exact if the tree only reads mapped
fields; the constructors keep the value of what they put together. -/
theorem partition_projection {mapping : List (Option Nat)} {full part : BinaryRow} {p : Predicate}
    (hset : NoEmptySetFlipped mapping p) (hagree : Agrees mapping full part p) :
    (∀ q, remapFieldIndex mapping p = some q → ∀ b, evalRow full p = .ok b → evalRow part q = .ok b) ∧
    (∀ q, projectFieldIndexInclusive mapping p = some q → Evaluates full p →
      evalRow full p = .ok true → evalRow part q = .ok true) ∧
    (referencesOnlyMappedFields mapping p = true → ∀ q, projectFieldIndexInclusive mapping p = some q →
      ∀ b, evalRow full p = .ok b → evalRow part q = .ok b) ∧
    (∀ row ps b, evalRow row (.and ps) = .ok b → evalRow row (mkAnd ps) = .ok b) ∧
    (∀ row ps b, evalRow row (.or ps) = .ok b → evalRow row (mkOr ps) = .ok b) ∧
    (∀ row q b, ¬ EmptySet q → evalRow row (.not q) = .ok b → evalRow row (negate q) = .ok b) := by
  refine ⟨fun q hq b hb => remap_evalRow hset hagree hq hb, fun q hq hvalue htrue => ?_,
    fun href q hq => (project_mapped hset hagree href).1 q hq, fun row ps b hb => ?_, fun row ps b hb => ?_,
    fun row q b hq hb => ?_⟩
  · obtain ⟨b, hb, himp⟩ := project_evalRow hset hagree hvalue hq
    rw [hb, himp htrue]
  · rw [evalRow_and] at hb
    exact evalRow_mkAnd hb
  · rw [evalRow_or] at hb
    exact evalRow_mkOr hb
  · have hneg := evalRow_negate hq (evalRow_not.mp hb)
    rwa [Bool.not_not] at hneg

/-- rows `(x, y)` in partitions by `y`: `x = 3 AND NOT y = 7` keeps its second half -/
theorem partition_projection_second_column : projectFieldIndexInclusive [none, some 0]
        (.and [.leaf "x" 0 ⟨.int, true⟩ .eq [.int 3], .not (.leaf "y" 1 ⟨.int, true⟩ .eq [.int 7])])
      = some (.not (.leaf "y" 0 ⟨.int, true⟩ .eq [.int 7])) ∧
    evalRow (BinaryRow.fromDatums [(some (.int 5), .int)]) (.not (.leaf "y" 0 ⟨.int, true⟩ .eq [.int 7]))
      = .ok true := by
  set p : Predicate :=
    .and [.leaf "x" 0 ⟨.int, true⟩ .eq [.int 3], .not (.leaf "y" 1 ⟨.int, true⟩ .eq [.int 7])] with hp
  set full := BinaryRow.fromDatums [(some (.int 3), .int), (some (.int 5), .int)] with hfull
  have hx : evalRow full (.leaf "x" 0 ⟨.int, true⟩ .eq [.int 3]) = .ok true := by decide +kernel
  have hy : evalRow full (.leaf "y" 1 ⟨.int, true⟩ .eq [.int 7]) = .ok false := by decide +kernel
  have hset : NoEmptySetFlipped [none, some 0] p := by
    refine .and (forall_mem_pair.mpr ⟨.leaf, .not .leaf fun q hq => ?_⟩)
    cases hq
    exact fun h => absurd h.1 (cons_ne_nil _ _)
  have hagree : Agrees [none, some 0] full (BinaryRow.fromDatums [(some (.int 5), .int)]) p := by
    refine .and (forall_mem_pair.mpr ⟨.leaf (fun _ h => nomatch h), .not (.leaf fun newIndex h => ?_)⟩)
    cases h
    decide +kernel
  have hvalue : Evaluates full p := .and (forall_mem_pair.mpr ⟨.leaf ⟨true, hx⟩, .not (.leaf ⟨false, hy⟩)⟩)
  have hq : projectFieldIndexInclusive [none, some 0] p
      = some (.not (.leaf "y" 0 ⟨.int, true⟩ .eq [.int 7])) := by rfl
  exact ⟨hq, (partition_projection hset hagree).2.1 _ hq hvalue (by decide +kernel)⟩

/-- `NOT x IN ()` holds for a row without `x`; its translation is `x NOT IN ()`, which does not -/
theorem negated_empty_set_drops_null :
    Agrees [some 0] (BinaryRow.fromDatums [(none, .int)]) (BinaryRow.fromDatums [(none, .int)])
      (.not (.leaf "x" 0 ⟨.int, true⟩ .isIn [])) ∧
    evalRow (BinaryRow.fromDatums [(none, .int)]) (.not (.leaf "x" 0 ⟨.int, true⟩ .isIn [])) = .ok true ∧
    remapFieldIndex [some 0] (.not (.leaf "x" 0 ⟨.int, true⟩ .isIn []))
      = some (.leaf "x" 0 ⟨.int, true⟩ .notIn []) ∧
    projectFieldIndexInclusive [some 0] (.not (.leaf "x" 0 ⟨.int, true⟩ .isIn []))
      = some (.leaf "x" 0 ⟨.int, true⟩ .notIn []) ∧
    evalRow (BinaryRow.fromDatums [(none, .int)]) (.leaf "x" 0 ⟨.int, true⟩ .notIn []) = .ok false := by
  refine ⟨.not (.leaf fun newIndex h => ?_), by decide +kernel, by rfl, by rfl, by decide +kernel⟩
  cases h
  rfl

end Paimon.Predicate
