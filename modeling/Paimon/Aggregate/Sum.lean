import Paimon.Spec.Datum

/-!
# The sum aggregator

`SumAgg` of `table/aggregator/numeric.rs` over integer and DECIMAL columns: the accumulator is empty
or a value, and an input is added or retracted.  Integers wrap or fail; a decimal that no longer fits
its precision empties the accumulator, so that the next input starts a new sum.

* `next`: what one non-NULL input does, added or retracted alike (`step_eq`);
* `sinceOverflow`: the inputs after the last one that took a decimal sum beyond its precision;
* `sum_exact`: the result of every sequence of inputs.

Float columns, `agg_reversed` (`agg`, floats apart) and the downcasts of the arrays are left out.
-/

namespace Paimon

inductive IntWidth where
  | i8
  | i16
  | i32
  | i64

def IntWidth.bits : IntWidth → Nat
  | .i8 => 8
  | .i16 => 16
  | .i32 => 32
  | .i64 => 64

/-- the column type behind `SumState`, a decimal with what `DecimalType::with_nullable` checks -/
inductive SumKind where
  | integer (width : IntWidth)
  | decimal128 (precision scale : Nat) (valid : 1 ≤ precision ∧ precision ≤ 38 ∧ scale ≤ precision)

structure SumAgg where
  fieldName : String
  kind : SumKind
  failOnOverflow : Bool
  acc : Option Int := none

def InRange (bits : Nat) (v : Int) : Prop := -2 ^ (bits - 1) ≤ v ∧ v < 2 ^ (bits - 1)

instance (bits : Nat) (v : Int) : Decidable (InRange bits v) := inferInstanceAs (Decidable (_ ∧ _))

def decimalFitsPrecision (value : Int) (precision : Nat) : Bool :=
  if 10 ^ precision < 2 ^ 128 then value.natAbs < 10 ^ precision else true

def overflowError (aggName fieldName : String) : Error :=
  .dataInvalid s!"Aggregate function '{aggName}' overflowed on field '{fieldName}'"

namespace SumAgg

open List

/-- `checked_` or `wrapping_` arithmetic of the integer arms, given the exact result -/
def integer (self : SumAgg) (bits : Nat) (exact : Int) : Result Int :=
  if self.failOnOverflow then
    if InRange bits exact then .ok exact else .error (overflowError "sum" self.fieldName)
  else .ok (exact.bmod (2 ^ bits))

def agg (self : SumAgg) : Option Int → Result SumAgg
  | none => .ok self
  | some v =>
    match self.kind with
    | .integer width =>
      match self.acc with
      | none => .ok { self with acc := some v }
      | some prev => do return { self with acc := some (← self.integer width.bits (prev + v)) }
    | .decimal128 precision _ _ =>
      let sum := match self.acc with
        | none => some v
        | some prev => checkedI128 (prev + v)
      .ok { self with acc := sum.filter (decimalFitsPrecision · precision) }

def retract (self : SumAgg) : Option Int → Result SumAgg
  | none => .ok self
  | some v =>
    match self.kind with
    | .integer width => do return { self with acc := some (← self.integer width.bits (self.acc.getD 0 - v)) }
    | .decimal128 precision _ _ =>
      .ok { self with acc := (checkedI128 (self.acc.getD 0 - v)).filter (decimalFitsPrecision · precision) }

/-- the one cell of the output array, NULL if `none` -/
def result (self : SumAgg) : Option Int :=
  match self.kind with
  | .integer _ => self.acc
  | .decimal128 precision _ _ => self.acc.filter (decimalFitsPrecision · precision)

inductive Input where
  | agg (cell : Option Int)
  | retract (cell : Option Int)

def step (self : SumAgg) : Input → Result SumAgg
  | .agg cell => self.agg cell
  | .retract cell => self.retract cell

/-- the cells of one primary key, first to last -/
def sum (self : SumAgg) (inputs : List Input) : Result (Option Int) := do
  return (← inputs.foldlM step self).result

/-! ## one input -/

def Input.cell : Input → Option Int
  | .agg cell => cell
  | .retract cell => cell

def Input.signed : Input → Option Int
  | .agg cell => cell
  | .retract cell => cell.map (- ·)

def deltas (inputs : List Input) : List Int := inputs.filterMap Input.signed

def Typed (kind : SumKind) (inputs : List Input) : Prop :=
  ∀ width, kind = .integer width → ∀ i ∈ inputs, ∀ v ∈ i.cell, InRange width.bits v

/-- the accumulator after `d` more, whether added or retracted -/
def next (self : SumAgg) (acc : Option Int) (d : Int) : Result (Option Int) :=
  match self.kind with
  | .integer width => some <$> self.integer width.bits (acc.getD 0 + d)
  | .decimal128 precision _ _ => .ok ((some (acc.getD 0 + d)).filter (decimalFitsPrecision · precision))

variable {width : IntWidth}

theorem integer_of_inRange (self : SumAgg) {v : Int} (h : InRange width.bits v) :
    self.integer width.bits v = .ok v := by
  unfold integer
  rw [if_pos h]
  split
  · rfl
  · apply congrArg Except.ok
    obtain ⟨hlow, hhigh⟩ := h
    cases width <;> simp only [IntWidth.bits] at hlow hhigh ⊢ <;>
      exact Int.bmod_eq_of_le (by omega) (by omega)

theorem checked_filter {precision : Nat} (hp : precision ≤ 38) (v : Int) :
    (checkedI128 v).filter (decimalFitsPrecision · precision)
      = (some v).filter (decimalFitsPrecision · precision) := by
  unfold checkedI128
  split
  · rfl
  · next h =>
    have hpow : 10 ^ precision ≤ 10 ^ 38 := Nat.pow_le_pow_right (by omega) hp
    have hfits : decimalFitsPrecision v precision = false := by
      unfold decimalFitsPrecision
      rw [if_pos (by omega), decide_eq_false_iff_not]
      omega
    exact (Option.filter_some_neg (p := (decimalFitsPrecision · precision)) hfits).symm

/-- **One input**: NULL does nothing, a value goes through `next` whether it is added or retracted. -/
theorem step_eq (self : SumAgg) (i : Input) (ht : Typed self.kind [i]) : self.step i =
    i.signed.elim (.ok self) fun d => (fun acc => { self with acc := acc }) <$> self.next self.acc d := by
  obtain ⟨fieldName, kind, failOnOverflow, acc⟩ := self
  cases i with
  | agg cell =>
    cases cell with
    | none => rfl
    | some v =>
      cases kind with
      | integer width =>
        cases acc with
        | none =>
          have hv := integer_of_inRange ⟨fieldName, .integer width, failOnOverflow, none⟩
            (ht width rfl _ mem_cons_self v rfl)
          simp only [step, agg, Input.signed, Option.elim_some, next, Option.getD_none, zero_add, hv]
          rfl
        | some prev =>
          simp only [step, agg, Input.signed, Option.elim_some, next, Option.getD_some]
          cases integer _ width.bits (prev + v) <;> rfl
      | decimal128 precision scale valid =>
        cases acc with
        | none =>
          simp only [step, agg, Input.signed, Option.elim_some, next, Option.getD_none, zero_add]
          rfl
        | some prev =>
          simp only [step, agg, Input.signed, Option.elim_some, next, Option.getD_some, checked_filter valid.2.1]
          rfl
  | retract cell =>
    cases cell with
    | none => rfl
    | some v =>
      cases kind with
      | integer width =>
        simp only [step, retract, Input.signed, Option.map_some, Option.elim_some, next, ← sub_eq_add_neg]
        cases integer _ width.bits (acc.getD 0 - v) <;> rfl
      | decimal128 precision scale valid =>
        simp only [step, retract, checked_filter valid.2.1, sub_eq_add_neg]
        rfl

theorem foldlM_step (self : SumAgg) {inputs : List Input} (ht : Typed self.kind inputs) :
    inputs.foldlM step self = (fun acc => { self with acc := acc }) <$> (deltas inputs).foldlM self.next self.acc := by
  induction inputs generalizing self with
  | nil => rfl
  | cons i inputs ih =>
    have hrest : Typed self.kind inputs := fun w hw j hj => ht w hw j (mem_cons_of_mem i hj)
    have hone : Typed self.kind [i] := fun w hw => forall_mem_singleton.mpr (ht w hw i mem_cons_self)
    rw [foldlM_cons, self.step_eq i hone, deltas]
    cases hd : i.signed with
    | none =>
      rw [filterMap_cons_none hd]
      exact ih self hrest
    | some d =>
      rw [filterMap_cons_some hd, foldlM_cons, Option.elim_some]
      cases self.next self.acc d with
      | error e => rfl
      | ok acc => exact ih { self with acc := acc } hrest

/-! ## a whole group -/

def accOf (run : List Int) : Option Int := if run = [] then none else some run.sum

section
variable (self : SumAgg)

theorem foldlM_wrapping (hk : self.kind = .integer width) (hf : self.failOnOverflow = false)
    (acc : Option Int) (ds : List Int) : ds.foldlM self.next acc
      = .ok (if ds = [] then acc else some ((acc.getD 0 + ds.sum).bmod (2 ^ width.bits))) := by
  induction ds generalizing acc with
  | nil => rfl
  | cons d ds ih =>
    have hnext : self.next acc d = .ok (some ((acc.getD 0 + d).bmod (2 ^ width.bits))) := by
      simp only [next, hk, integer, hf, Bool.false_eq_true, if_false]
      rfl
    rw [foldlM_cons, hnext]
    show ds.foldlM self.next _ = _
    rw [ih, if_neg (cons_ne_nil d ds), sum_cons, Option.getD_some]
    split
    · next hnil => rw [hnil, sum_nil, add_zero]
    · rw [Int.bmod_add_bmod, add_assoc]

theorem foldlM_checked (hk : self.kind = .integer width) (hf : self.failOnOverflow = true)
    (acc : Option Int) (h0 : InRange width.bits (acc.getD 0)) (ds : List Int) : ds.foldlM self.next acc
      = if ∀ pre ∈ ds.inits, InRange width.bits (acc.getD 0 + pre.sum) then
          .ok (if ds = [] then acc else some (acc.getD 0 + ds.sum))
        else .error (overflowError "sum" self.fieldName) := by
  induction ds generalizing acc with
  | nil =>
    rw [if_pos (by simpa using h0)]
    rfl
  | cons d ds ih =>
    have hnext : self.next acc d = if InRange width.bits (acc.getD 0 + d) then .ok (some (acc.getD 0 + d))
        else .error (overflowError "sum" self.fieldName) := by
      simp only [next, hk, integer, hf, if_true]
      split <;> rfl
    have hall : (∀ pre ∈ (d :: ds).inits, InRange width.bits (acc.getD 0 + pre.sum)) ↔
        ∀ pre ∈ ds.inits, InRange width.bits (acc.getD 0 + d + pre.sum) := by
      simp [h0, add_assoc]
    rw [foldlM_cons, hnext]
    by_cases hd : InRange width.bits (acc.getD 0 + d)
    · rw [if_pos hd]
      show ds.foldlM self.next _ = _
      rw [ih (some _) hd, Option.getD_some, if_neg (cons_ne_nil d ds), sum_cons, ← add_assoc]
      simp only [hall]
      by_cases hnil : ds = []
      · simp [hnil]
      · simp only [if_neg hnil]
    · rw [if_neg hd, if_neg fun h => hd (by simpa using hall.mp h [] (by simp))]
      rfl

end

/-- the inputs since the last overflow of a decimal sum, of those in `run` and `ds` -/
def sinceOverflow (precision : Nat) (run : List Int) : List Int → List Int
  | [] => run
  | d :: ds => sinceOverflow precision (if decimalFitsPrecision (run.sum + d) precision then run ++ [d] else []) ds

theorem sinceOverflow_suffix (precision : Nat) (run ds : List Int) :
    sinceOverflow precision run ds <:+ run ++ ds := by
  induction ds generalizing run with
  | nil => rw [append_nil]; exact suffix_rfl
  | cons d ds ih =>
    apply (ih _).trans
    split
    · rw [append_assoc, singleton_append]
    · exact (suffix_cons d ds).trans (suffix_append run (d :: ds))

theorem sinceOverflow_all {precision : Nat} (run : List Int) {ds : List Int}
    (h : ∀ pre ∈ ds.inits, decimalFitsPrecision (run.sum + pre.sum) precision = true) :
    sinceOverflow precision run ds = run ++ ds := by
  induction ds generalizing run with
  | nil => exact (append_nil run).symm
  | cons d ds ih =>
    have hd := h [d] (by simp)
    rw [sum_singleton] at hd
    rw [sinceOverflow, if_pos hd, ih _ fun pre hpre => ?_, append_assoc, singleton_append]
    have := h (d :: pre) (by simpa using hpre)
    simpa [add_assoc] using this

theorem sinceOverflow_fits (precision : Nat) (run ds : List Int)
    (h : ∀ v ∈ accOf run, decimalFitsPrecision v precision = true) :
    ∀ v ∈ accOf (sinceOverflow precision run ds), decimalFitsPrecision v precision = true := by
  induction ds generalizing run with
  | nil => exact h
  | cons d ds ih =>
    apply ih
    split
    · next hd =>
      intro v hv
      obtain rfl : (run ++ [d]).sum = v := by simpa [accOf] using hv
      simpa using hd
    · intro v hv
      cases hv

theorem foldlM_decimal (self : SumAgg) {precision scale : Nat}
    {valid : 1 ≤ precision ∧ precision ≤ 38 ∧ scale ≤ precision}
    (hk : self.kind = .decimal128 precision scale valid) (run ds : List Int) :
    ds.foldlM self.next (accOf run) = .ok (accOf (sinceOverflow precision run ds)) := by
  induction ds generalizing run with
  | nil => rfl
  | cons d ds ih =>
    have hget : (accOf run).getD 0 = run.sum := by
      unfold accOf
      split
      · next hnil => rw [hnil]; rfl
      · rfl
    have hnext : self.next (accOf run) d
        = .ok (accOf (if decimalFitsPrecision (run.sum + d) precision then run ++ [d] else [])) := by
      simp only [next, hk, hget, Option.filter_some]
      split <;> simp [accOf]
    rw [foldlM_cons, hnext]
    exact ih _

/-- **The result of every group.**  Integers: the exact sum modulo `2 ^ bits`, or with
`fail-on-overflow` the exact sum unless a prefix sum leaves the type.  Decimals: the exact sum since the
last overflow, which is the sum of all inputs if every prefix sum fits. -/
theorem sum_exact (self : SumAgg) (inputs : List Input) (hacc : self.acc = none) (ht : Typed self.kind inputs) :
    match self.kind with
    | .integer width => self.sum inputs =
        if self.failOnOverflow then
          if ∀ pre ∈ (deltas inputs).inits, InRange width.bits pre.sum then .ok (accOf (deltas inputs))
          else .error (overflowError "sum" self.fieldName)
        else .ok ((accOf (deltas inputs)).map (·.bmod (2 ^ width.bits)))
    | .decimal128 precision _ _ =>
        self.sum inputs = .ok (accOf (sinceOverflow precision [] (deltas inputs))) ∧
        sinceOverflow precision [] (deltas inputs) <:+ deltas inputs ∧
        ((∀ pre ∈ (deltas inputs).inits, decimalFitsPrecision pre.sum precision = true) →
          self.sum inputs = .ok (accOf (deltas inputs))) := by
  set ds := deltas inputs with hds
  have hsum : self.sum inputs = (fun acc => { self with acc := acc }.result) <$> ds.foldlM self.next none := by
    rw [sum, foldlM_step self ht, hacc, ← hds]
    cases ds.foldlM self.next none <;> rfl
  split
  · next width hk =>
    have h0 : InRange width.bits ((none : Option Int).getD 0) := by
      cases width <;> simp [InRange, IntWidth.bits]
    have hres : ∀ acc : Option Int, { self with acc := acc }.result = acc := by
      intro acc
      simp only [result, hk]
    rw [hsum]
    cases hf : self.failOnOverflow with
    | true =>
      rw [foldlM_checked self hk hf none h0]
      simp only [Option.getD_none, zero_add, if_true, accOf]
      split
      · exact congrArg Except.ok (hres _)
      · rfl
    | false =>
      rw [foldlM_wrapping self hk hf]
      simp only [Option.getD_none, zero_add, Bool.false_eq_true, if_false, accOf]
      show Except.ok (result _) = _
      rw [← hf, hres]
      split <;> rfl
  · next precision scale valid hk =>
    have hfits := sinceOverflow_fits precision [] ds (by simp [accOf])
    have hall : self.sum inputs = .ok (accOf (sinceOverflow precision [] ds)) := by
      rw [hsum, show (none : Option Int) = accOf [] from rfl, foldlM_decimal self hk]
      show Except.ok (result _) = _
      simp only [result, hk]
      cases hsince : accOf (sinceOverflow precision [] ds) with
      | none => rfl
      | some v => exact congrArg Except.ok (Option.filter_some_pos (hfits v hsince))
    refine ⟨hall, sinceOverflow_suffix precision [] ds, fun h => ?_⟩
    rw [hall, sinceOverflow_all [] (by simpa using h), nil_append]

def threeDigits (failOnOverflow : Bool) : SumAgg := ⟨"v", .decimal128 3 0 (by decide), failOnOverflow, none⟩

def recovering : List Input := [.agg (some 900), .agg none, .agg (some 200), .retract (some 200)]

theorem sum_exact_recovering : (threeDigits false).sum recovering = .ok (some (-200)) := by
  rw [(sum_exact (threeDigits false) recovering rfl (by intro width h; cases h)).1]
  decide

/-- neither NULL nor the sum of the inputs -/
theorem sum_forgets_overflow : ∃ n, (threeDigits false).sum recovering = .ok (some n) ∧
    n ≠ (deltas recovering).sum := by
  exact ⟨-200, rfl, by decide⟩

/-! ## partial sums -/

section
variable (self : SumAgg) (hacc : self.acc = none) (hk : self.kind = .integer width)
  (hf : self.failOnOverflow = false)
include hk hf

theorem foldlM_perm {xs ys : List Int} (h : xs.Perm ys) (acc : Option Int) :
    xs.foldlM self.next acc = ys.foldlM self.next acc := by
  rw [foldlM_wrapping self hk hf, foldlM_wrapping self hk hf, h.sum_eq]
  simp only [← length_eq_zero_iff, h.length_eq]

include hacc

/-- a flush answers with what its inputs do to any accumulator -/
theorem sum_flush {inputs : List Input} (ht : Typed self.kind inputs) : ∃ part, self.sum inputs = .ok part ∧
    Typed self.kind [.agg part] ∧
    ∀ acc, part.toList.foldlM self.next acc = (deltas inputs).foldlM self.next acc := by
  refine ⟨_, by rw [sum, foldlM_step self ht, hacc, foldlM_wrapping self hk hf]; rfl, ?_, fun acc => ?_⟩
  · intro w hw i hi v hv
    cases hk.symm.trans hw
    cases mem_singleton.mp hi
    simp only [Input.cell, result, hk] at hv
    split at hv
    · cases hv
    · cases hv
      cases width <;> exact ⟨Int.le_bmod (by decide), Int.bmod_lt (by decide)⟩
  · rw [foldlM_wrapping self hk hf, foldlM_wrapping self hk hf]
    simp only [result, hk]
    split
    · rfl
    · simp [Int.add_bmod_bmod]

theorem sum_parts {chunks : List (List Input)} (ht : Typed self.kind chunks.flatten) :
    ∃ parts, chunks.mapM self.sum = .ok parts ∧ Typed self.kind (parts.map .agg) ∧
      ∀ acc, (deltas (parts.map .agg)).foldlM self.next acc = (deltas chunks.flatten).foldlM self.next acc := by
  induction chunks with
  | nil => exact ⟨[], rfl, fun _ _ => by simp, fun _ => rfl⟩
  | cons chunk chunks ih =>
    have hchunk : Typed self.kind chunk := fun w hw i hi => ht w hw i (by simp [hi])
    obtain ⟨part, hpart, htype, hfold⟩ := sum_flush self hacc hk hf hchunk
    obtain ⟨parts, hparts, htypes, hfolds⟩ := ih fun w hw i hi => ht w hw i (by simp_all)
    refine ⟨part :: parts, by rw [mapM_cons, hpart, hparts]; rfl, fun w hw => ?_, fun acc => ?_⟩
    · exact forall_mem_cons.mpr ⟨forall_mem_singleton.mp (htype w hw), htypes w hw⟩
    · have hcons : deltas ((part :: parts).map .agg) = part.toList ++ deltas (parts.map .agg) := by
        cases part <;> rfl
      have happ : deltas (chunk ++ chunks.flatten) = deltas chunk ++ deltas chunks.flatten := filterMap_append
      rw [hcons, flatten_cons, happ, foldlM_append, hfold, foldlM_append, funext hfolds]

/-- **Integer sums do not depend on flushes.**  Rows of a key, in any order and cut into any flushes whose sums
are added up later, give the sum of the rows. -/
theorem sum_of_flushes {chunks : List (List Input)} {inputs : List Input} (hperm : chunks.flatten.Perm inputs)
    (ht : Typed self.kind inputs) :
    ∃ parts, chunks.mapM self.sum = .ok parts ∧ self.sum (parts.map .agg) = self.sum inputs := by
  obtain ⟨parts, hparts, htypes, hfolds⟩ :=
    sum_parts self hacc hk hf fun w hw i hi => ht w hw i (hperm.mem_iff.mp hi)
  refine ⟨parts, hparts, ?_⟩
  have hdeltas : (deltas chunks.flatten).Perm (deltas inputs) := hperm.filterMap _
  rw [sum, foldlM_step self htypes, hfolds, foldlM_perm self hk hf hdeltas, sum, foldlM_step self ht]

end

def byteSum : SumAgg := ⟨"v", .integer .i8, false, none⟩

def byteFlushes : List (List Input) := [[.agg (some 100)], [.agg (some 100), .agg none, .retract (some 50)]]

theorem sum_of_flushes_reversed : ∃ parts, byteFlushes.mapM byteSum.sum = .ok parts ∧
    byteSum.sum (parts.map .agg) = byteSum.sum byteFlushes.flatten.reverse :=
  sum_of_flushes byteSum rfl rfl rfl (reverse_perm _).symm (by rintro w ⟨⟩; decide)

end SumAgg

end Paimon
