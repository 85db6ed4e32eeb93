import Paimon.Aggregate.Sum

/-!
# Decimal division of the product aggregator

`rounded_decimal` and `decimal_division_terminates` of `table/aggregator/numeric.rs`: a quotient of big
integers is rounded to an unscaled value, and a retraction is refused unless it has a finite decimal
expansion.  The loops take fuel; more than the denominator is enough.

* `NearestAway`: the nearest integer, ties away from zero;
* `division_exact`: what the two functions compute.
-/

namespace Paimon

def roundedDecimal (numerator denominator : Int) (precision : Nat) : Option Int :=
  let quotient := numerator.tdiv denominator
  let remainder := numerator.tmod denominator
  let rounded :=
    if denominator.natAbs ≤ remainder.natAbs * 2 then
      quotient + if numerator.sign = denominator.sign then 1 else -1
    else quotient
  (checkedI128 rounded).filter (decimalFitsPrecision · precision)

/-- the Euclidean loop on the absolute values -/
def commonDivisor : Nat → Nat → Nat → Option Nat
  | _, a, 0 => some a
  | 0, _, _ + 1 => none
  | fuel + 1, a, b + 1 => commonDivisor fuel (b + 1) (a % (b + 1))

/-- the loop that divides by one factor -/
def stripFactor (factor : Nat) : Nat → Nat → Option Nat
  | 0, _ => none
  | fuel + 1, reduced =>
    if reduced % factor = 0 then stripFactor factor fuel (reduced / factor) else some reduced

def decimalDivisionTerminates (fuel : Nat) (numerator denominator : Int) : Option Bool := do
  let a ← commonDivisor fuel numerator.natAbs denominator.natAbs
  let reduced ← [2, 5].foldlM (fun reduced factor => stripFactor factor fuel reduced) (denominator.natAbs / a)
  return reduced == 1

/-! ## the loops -/

theorem commonDivisor_eq {fuel a b : Nat} (h : b ≤ fuel) : commonDivisor fuel a b = some (Nat.gcd b a) := by
  induction fuel generalizing a b with
  | zero =>
    obtain rfl : b = 0 := by omega
    rw [commonDivisor, Nat.gcd_zero_left]
  | succ fuel ih =>
    cases b with
    | zero => rw [commonDivisor, Nat.gcd_zero_left]
    | succ b =>
      have hlt : a % (b + 1) < b + 1 := Nat.mod_lt a (Nat.succ_pos b)
      rw [commonDivisor, ih (by omega), ← Nat.gcd_rec]

theorem stripFactor_eq {factor : Nat} (hf : 2 ≤ factor) {fuel reduced : Nat} (h0 : 0 < reduced)
    (h : reduced < fuel) : ∃ i m, stripFactor factor fuel reduced = some m ∧
      reduced = factor ^ i * m ∧ ¬ factor ∣ m := by
  induction fuel generalizing reduced with
  | zero => omega
  | succ fuel ih =>
    rw [stripFactor]
    split
    · rename_i hd
      -- one factor comes off, and what is left is smaller
      have hmul : reduced = factor * (reduced / factor) :=
        (Nat.mul_div_cancel' (Nat.dvd_of_mod_eq_zero hd)).symm
      have hlt := Nat.div_lt_self h0 hf
      have hpos : 0 < reduced / factor := Nat.pos_of_ne_zero fun h => by
        rw [h] at hmul
        omega
      obtain ⟨i, m, hm, hr, hn⟩ := ih hpos (by omega)
      exact ⟨i + 1, m, hm, by rw [pow_succ', mul_assoc, ← hr, ← hmul], hn⟩
    · rename_i hd
      exact ⟨0, reduced, rfl, by simp, fun h => hd (Nat.mod_eq_zero_of_dvd h)⟩

/-! ## finite expansions -/

theorem dvd_ten_pow_iff {i j m m' r : Nat} (hr : r = 2 ^ i * m) (hm : m = 5 ^ j * m') (h2 : ¬ 2 ∣ m)
    (h5 : ¬ 5 ∣ m') : m' = 1 ↔ ∃ k, r ∣ 10 ^ k := by
  constructor
  · rintro rfl
    refine ⟨i + j, ?_⟩
    rw [hr, hm, mul_one, pow_add]
    exact mul_dvd_mul (pow_dvd_pow_of_dvd (by decide) i) (pow_dvd_pow_of_dvd (by decide) j)
  · rintro ⟨k, hk⟩
    have hdvd : m' ∣ m := ⟨5 ^ j, by rw [hm, mul_comm]⟩
    have hc2 : Nat.Coprime m' 2 :=
      ((Nat.Prime.coprime_iff_not_dvd Nat.prime_two).mpr fun h => h2 (h.trans hdvd)).symm
    have hc5 : Nat.Coprime m' 5 := ((Nat.Prime.coprime_iff_not_dvd Nat.prime_five).mpr h5).symm
    have hc : Nat.Coprime m' (10 ^ k) := (hc2.mul_right hc5).pow_right k
    exact hc.eq_one_of_dvd ((hdvd.trans ⟨2 ^ i, by rw [hr, mul_comm]⟩).trans hk)

theorem finite_expansion_iff {n d : Int} {r : Nat} (hd : d ≠ 0) (hr : Nat.gcd d.natAbs n.natAbs * r = d.natAbs) :
    (∃ (m : Int) (k : Nat), n * 10 ^ k = m * d) ↔ ∃ k, r ∣ 10 ^ k := by
  have hpos : 0 < Nat.gcd d.natAbs n.natAbs := Nat.gcd_pos_of_pos_left _ (Int.natAbs_pos.mpr hd)
  rw [exists_comm]
  refine exists_congr fun k => ?_
  calc (∃ m : Int, n * 10 ^ k = m * d) ↔ d ∣ n * 10 ^ k := by simp only [Dvd.dvd, mul_comm]
    _ ↔ d.natAbs ∣ n.natAbs * 10 ^ k := by rw [← Int.natAbs_dvd_natAbs, Int.natAbs_mul, Int.natAbs_pow]; rfl
    _ ↔ d.natAbs ∣ Nat.gcd d.natAbs n.natAbs * 10 ^ k := Nat.dvd_gcd_mul_iff_dvd_mul.symm
    _ ↔ r ∣ 10 ^ k := by
      nth_rewrite 1 [← hr]
      exact Nat.mul_dvd_mul_iff_left hpos

theorem decimalDivisionTerminates_eq (n : Int) {d : Int} (hd : d ≠ 0) {fuel : Nat} (hf : d.natAbs < fuel) :
    ∃ b, decimalDivisionTerminates fuel n d = some b ∧
      (b = true ↔ ∃ (m : Int) (k : Nat), n * 10 ^ k = m * d) := by
  have hgcd := Nat.mul_div_cancel' (Nat.gcd_dvd_left d.natAbs n.natAbs)
  have hle := Nat.div_le_self d.natAbs (Nat.gcd d.natAbs n.natAbs)
  have hpos : 0 < d.natAbs / Nat.gcd d.natAbs n.natAbs := Nat.pos_of_ne_zero fun h => by
    rw [h] at hgcd
    omega
  obtain ⟨i, m, hm, hr, h2⟩ := stripFactor_eq (le_refl 2) hpos (hle.trans_lt hf)
  have hmle := Nat.le_of_dvd hpos ⟨2 ^ i, by rw [mul_comm, ← hr]⟩
  obtain ⟨j, m', hm', hr', h5⟩ := stripFactor_eq (show 2 ≤ 5 by decide)
    (Nat.pos_of_ne_zero fun h => h2 (by rw [h]; exact dvd_zero 2)) (hmle.trans_lt (hle.trans_lt hf))
  refine ⟨m' == 1, ?_, ?_⟩
  · simp only [decimalDivisionTerminates, commonDivisor_eq hf.le, List.foldlM, Option.bind_eq_bind,
      Option.bind_some, hm, hm', Option.pure_def]
  · rw [beq_iff_eq, finite_expansion_iff hd hgcd]
    exact dvd_ten_pow_iff hr hr' h2 h5

/-! ## rounding -/

/-- `r` is nearest to `n / d`, and a tie is taken away from zero -/
def NearestAway (n d r : Int) : Prop :=
  2 * (n - r * d).natAbs ≤ d.natAbs ∧ (2 * (n - r * d).natAbs = d.natAbs → n.natAbs < (r * d).natAbs)

theorem NearestAway.unique {n d r r' : Int} (h : NearestAway n d r) (h' : NearestAway n d r') :
    r = r' := by
  by_contra hne
  have hfar : ∀ z : Int, z ≠ 0 → d.natAbs ≤ (z * d).natAbs := by
    intro z hz
    rw [Int.natAbs_mul]
    exact Nat.le_mul_of_pos_left _ (Int.natAbs_pos.mpr hz)
  have hdiff := hfar (r - r') (sub_ne_zero.mpr hne)
  rw [sub_mul] at hdiff
  have hzero := (eq_or_ne r 0).imp (fun h => by rw [h, zero_mul] : r = 0 → r * d = 0) (hfar r)
  -- both would be ties, on the two sides of the quotient but not of zero
  obtain ⟨h1, h2⟩ := h
  obtain ⟨h1', h2'⟩ := h'
  omega

theorem nearestAway_rounded (n : Int) {d : Int} (hd : d ≠ 0) : NearestAway n d
    (if d.natAbs ≤ (n.tmod d).natAbs * 2 then n.tdiv d + if n.sign = d.sign then 1 else -1 else n.tdiv d) := by
  have hmul : n.tdiv d * d + n.tmod d = n := Int.tdiv_mul_add_tmod n d
  have habs : (n.tdiv d * d).natAbs + (n.tmod d).natAbs = n.natAbs := by
    rw [Int.natAbs_mul, Int.natAbs_tdiv, Int.natAbs_tmod]
    exact Nat.div_add_mod' _ _
  have hlt : (n.tmod d).natAbs < d.natAbs := by
    rw [Int.natAbs_tmod]
    exact Nat.mod_lt _ (Int.natAbs_pos.mpr hd)
  generalize n.tdiv d = quotient at *
  generalize n.tmod d = remainder at *
  unfold NearestAway
  split
  · rename_i hhalf
    rw [add_mul]
    have hn : n ≠ 0 := by omega
    rcases lt_or_gt_of_ne hn with hn | hn <;> rcases lt_or_gt_of_ne hd with hd | hd <;>
      simp only [Int.sign_eq_one_of_pos, Int.sign_eq_neg_one_of_neg, hn, hd] <;> norm_num <;> omega
  · omega

/-- **Division of decimals is exact**: the test ends and decides whether the quotient has a finite
expansion; rounding gives the nearest integer unless it has more digits than the precision of a
`Decimal128`.  Beyond that precision an `i128` is the limit. -/
theorem division_exact (n : Int) {d : Int} (hd : d ≠ 0) (precision : Nat) :
    (∀ fuel, d.natAbs < fuel → ∃ b, decimalDivisionTerminates fuel n d = some b ∧
      (b = true ↔ ∃ (m : Int) (k : Nat), n * 10 ^ k = m * d)) ∧
    ∃ r, (∀ r', NearestAway n d r' ↔ r' = r) ∧
      (precision ≤ 38 → roundedDecimal n d precision = if r.natAbs < 10 ^ precision then some r else none) ∧
      (39 ≤ precision → roundedDecimal n d precision = checkedI128 r) := by
  have hnear := nearestAway_rounded n hd
  refine ⟨fun fuel hf => decimalDivisionTerminates_eq n hd hf,
    _, fun r' => ⟨fun h => h.unique hnear, fun h => h ▸ hnear⟩, fun hp => ?_, fun hp => ?_⟩
  · have hpow : 10 ^ precision ≤ 10 ^ 38 := Nat.pow_le_pow_right (by omega) hp
    have hfits : ∀ v : Int, decimalFitsPrecision v precision = decide (v.natAbs < 10 ^ precision) :=
      fun v => if_pos (by omega)
    rw [roundedDecimal, SumAgg.checked_filter hp, Option.filter_some, hfits]
    simp only [decide_eq_true_eq]
  · have hpow : 10 ^ 39 ≤ 10 ^ precision := Nat.pow_le_pow_right (by omega) hp
    have hfits : ∀ v : Int, decimalFitsPrecision v precision = true := fun v => if_neg (by omega)
    simp only [roundedDecimal, hfits]
    cases checkedI128 _ <;> rfl

theorem division_exact_two_thirds : roundedDecimal (-2) 3 38 = some (-1) ∧
    decimalDivisionTerminates 4 (-2) 3 = some false ∧ ¬ ∃ (m : Int) (k : Nat), -2 * 10 ^ k = m * 3 := by
  obtain ⟨b, hb, hiff⟩ := (division_exact (-2) (d := 3) (by decide) 38).1 4 (by decide)
  have hfalse : b = false := Option.some_inj.mp (hb.symm.trans (by decide))
  exact ⟨by decide, by decide, fun h => by rw [hfalse] at hiff; exact Bool.false_ne_true (hiff.mpr h)⟩

/-- the quotient has 39 digits, but is no `i128` -/
theorem rounded_beyond_i128 : NearestAway (2 ^ 127) 1 (2 ^ 127) ∧ (2 ^ 127 : Int).natAbs < 10 ^ 39 ∧
    roundedDecimal (2 ^ 127) 1 39 = none := by
  refine ⟨?_, by decide, by decide +kernel⟩
  unfold NearestAway
  decide

end Paimon
