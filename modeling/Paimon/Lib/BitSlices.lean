import Mathlib

/-!
# Bit slices

Items with numbers, kept as one set for each binary digit: slice `j` holds the items whose number has
digit `j`.

* `scatter`: the loop over the digits of a number, lowest first: the lowest digit is cleared until nothing is
  left (`getElem?_scatter`);
* `Sliced`: the slices of a numbering, which `scatterAll` builds (`sliced_scatterAll`);
* `split`: the loop over the slices, highest first, that splits the items by the order of their numbers and a
  given one (`split_spec`).
-/

namespace BitSlices

open List

/-! ## the digits of a number -/

/-- the number of zeros below the lowest digit, for numbers of at most `fuel` digits -/
def trailingZeros : Nat → Nat → Nat
  | 0, _ => 0
  | fuel + 1, n => if n % 2 = 1 then 0 else trailingZeros fuel (n / 2) + 1

theorem trailingZeros_spec {fuel n : Nat} (hn : n ≠ 0) (hlt : n < 2 ^ fuel) :
    ∃ m, n = 2 ^ trailingZeros fuel n * (2 * m + 1) := by
  induction fuel generalizing n with
  | zero =>
    rw [pow_zero] at hlt
    omega
  | succ fuel ih =>
    rw [trailingZeros]
    split
    · exact ⟨n / 2, by omega⟩
    · next heven =>
      obtain ⟨m, hm⟩ := ih (n := n / 2) (by omega) (by rw [pow_succ] at hlt; omega)
      refine ⟨m, ?_⟩
      rw [pow_succ, Nat.mul_right_comm, ← hm]
      omega

theorem testBit_clear_lowest (b m j : Nat) : ((2 ^ b * (2 * m + 1)) &&& (2 ^ b * (2 * m + 1) - 1)).testBit j =
      ((2 ^ b * (2 * m + 1)).testBit j && decide (j ≠ b)) := by
  have hpos : 0 < 2 ^ b := Nat.two_pow_pos b
  have hpred : 2 ^ b * (2 * m + 1) - 1 = 2 ^ b * (2 * m) + (2 ^ b - 1) := by
    rw [Nat.mul_add, Nat.mul_one]
    omega
  rw [Nat.testBit_and, hpred, Nat.testBit_two_pow_mul_add _ (by omega)]
  obtain hlt | rfl | hgt := lt_trichotomy j b
  · have hbit : (2 ^ b * (2 * m + 1)).testBit j = false := by
      rw [Nat.testBit_two_pow_mul, decide_eq_false (by omega), Bool.false_and]
    rw [hbit, Bool.false_and, Bool.false_and]
  · rw [if_neg (lt_irrefl _), Nat.sub_self, Nat.testBit_zero]
    simp
  · rw [if_neg (by omega), decide_eq_true (by omega : j ≠ b), Bool.and_true, Nat.testBit_two_pow_mul,
      decide_eq_true (by omega : j ≥ b), Bool.true_and]
    obtain ⟨k, hk⟩ : ∃ k, j - b = k + 1 := ⟨j - b - 1, by omega⟩
    rw [hk, Nat.testBit_succ, Nat.testBit_succ, show (2 * m + 1) / 2 = m by omega,
      show 2 * m / 2 = m by omega, Bool.and_self]

variable {β : Type*}

/-- `f` is applied to the slice of every digit of `n`, which has at most `width` digits -/
def scatter (width : Nat) (f : β → β) : Nat → Nat → List β → List β
  | 0, _, slices => slices
  | fuel + 1, n, slices =>
    if n = 0 then slices
    else scatter width f fuel (n &&& (n - 1)) (slices.modify (trailingZeros width n) f)

variable {width : Nat}

/-- **Every digit is visited once.** -/
theorem getElem?_scatter (f : β → β) {fuel n k : Nat} (hdvd : 2 ^ k ∣ n)
    (hlt : n < 2 ^ width) (hfuel : width ≤ k + fuel) (slices : List β) (j : Nat) :
    (scatter width f fuel n slices)[j]? = slices[j]?.map (if n.testBit j then f else id) := by
  induction fuel generalizing n k slices with
  | zero =>
    -- no digit is left
    obtain rfl : n = 0 := by
      obtain ⟨c, rfl⟩ := hdvd
      have hle : 2 ^ width ≤ 2 ^ k := Nat.pow_le_pow_right (by decide) hfuel
      obtain rfl | hc := Nat.eq_zero_or_pos c
      · rfl
      · have := Nat.le_mul_of_pos_right (2 ^ k) hc
        omega
    simp [scatter]
  | succ fuel ih =>
    rw [scatter]
    split
    · next hzero => simp [hzero]
    · next hne =>
      obtain ⟨m, hm⟩ := trailingZeros_spec hne hlt
      set b := trailingZeros width n with hb
      have hkb : k ≤ b := by
        by_contra hcon
        have hdvd' : 2 ^ (b + 1) ∣ n := (Nat.pow_dvd_pow 2 (by omega)).trans hdvd
        rw [hm, pow_succ] at hdvd'
        have := Nat.dvd_of_mul_dvd_mul_left (Nat.two_pow_pos b) hdvd'
        omega
      have hbits : ∀ i, (n &&& (n - 1)).testBit i = (n.testBit i && decide (i ≠ b)) := by
        intro i
        rw [hm]
        exact testBit_clear_lowest b m i
      have hdvd' : 2 ^ (b + 1) ∣ n &&& (n - 1) := by
        refine Nat.dvd_of_mod_eq_zero (Nat.eq_of_testBit_eq fun i => ?_)
        rw [Nat.testBit_mod_two_pow, hbits, Nat.zero_testBit]
        by_cases hi : i < b
        · rw [hm, Nat.testBit_two_pow_mul, decide_eq_false (show ¬ i ≥ b by omega)]
          simp
        · by_cases hib : i = b
          · simp [hib]
          · rw [decide_eq_false (by omega), Bool.false_and]
      rw [ih hdvd' (Nat.and_le_left.trans_lt hlt) (by omega), getElem?_modify, hbits]
      have hself : n.testBit b = true := by
        rw [hm, Nat.testBit_two_pow_mul, Nat.sub_self, Nat.testBit_zero]
        simp
      by_cases hjb : j = b
      · subst hjb
        simp [hself]
      · have hbj : ¬ b = j := fun h => hjb h.symm
        simp [hjb, hbj]

/-! ## splitting by order -/

section
variable {ι : Type*} [DecidableEq ι]

/-- the items by the order of their number and a given one, on the digits seen so far -/
structure Split (ι : Type*) where
  less : Finset ι
  equal : Finset ι
  greater : Finset ι

/-- one slice; `bit` is the digit of the given number -/
def Split.step (bit : Bool) (slice : Finset ι) (s : Split ι) : Split ι :=
  if bit then { s with less := s.less ∪ (s.equal \ slice), equal := s.equal ∩ slice }
  else { s with greater := s.greater ∪ (s.equal ∩ slice), equal := s.equal \ slice }

/-- the slices from number `k` on, highest first -/
def split (n : Nat) (items : Finset ι) : Nat → List (Finset ι) → Split ι
  | _, [] => ⟨∅, items, ∅⟩
  | k, slice :: slices => (split n items (k + 1) slices).step (n.testBit k) slice

/-- the slices from number `k` on are those of the numbering `num`, and no number has more digits -/
structure Sliced (num : ι → Nat) (items : Finset ι) (k : Nat) (slices : List (Finset ι)) : Prop where
  mem : ∀ j slice, slices[j]? = some slice → ∀ i, i ∈ slice ↔ i ∈ items ∧ (num i).testBit (k + j) = true
  small : ∀ i ∈ items, num i < 2 ^ (k + slices.length)

omit [DecidableEq ι] in
variable {slices : List (Finset ι)} {slice : Finset ι} {items : Finset ι} {num : ι → Nat}

theorem Sliced.tail {k : Nat} (h : Sliced num items k (slice :: slices)) :
    Sliced num items (k + 1) slices := by
  refine ⟨fun j s hs i => ?_, fun i hi => ?_⟩
  · have := h.mem (j + 1) s hs i
    rwa [show k + (j + 1) = k + 1 + j by omega] at this
  · have := h.small i hi
    rwa [length_cons, show k + (slices.length + 1) = k + 1 + slices.length by omega] at this

omit [DecidableEq ι] in
theorem mem_foldl_scatter {γ : Type*} {grow : γ → Finset ι → Finset ι} {number : γ → Nat}
    {adds : γ → ι → Prop} (hgrow : ∀ p slice i, i ∈ grow p slice ↔ i ∈ slice ∨ adds p i) {entries : List γ}
    (hlt : ∀ p ∈ entries, number p < 2 ^ width) {j : Nat}
    (hslice : (entries.foldl (fun slices p => scatter width (grow p) width (number p) slices) slices)[j]?
      = some slice) :
    ∃ start, slices[j]? = some start ∧
      ∀ i, i ∈ slice ↔ i ∈ start ∨ ∃ p ∈ entries, adds p i ∧ (number p).testBit j = true := by
  induction entries generalizing slices with
  | nil => exact ⟨slice, hslice, fun i => by simp⟩
  | cons p entries ih =>
    obtain ⟨middle, hmiddle, hmem⟩ := ih (forall_mem_cons.mp hlt).2 hslice
    have hdvd : 2 ^ 0 ∣ number p := one_dvd _
    rw [getElem?_scatter (grow p) hdvd (hlt p mem_cons_self) (by omega)] at hmiddle
    obtain ⟨start, hstart, rfl⟩ := Option.map_eq_some_iff.mp hmiddle
    refine ⟨start, hstart, fun i => (hmem i).trans ?_⟩
    rw [exists_mem_cons_iff, ← or_assoc]
    refine or_congr_left ?_
    by_cases hbit : (number p).testBit j = true
    · rw [if_pos hbit, hgrow, and_iff_left hbit]
    · rw [if_neg hbit, or_iff_left fun h => hbit h.2]
      rfl

/-- every item is put into the slices of the digits of its number -/
def scatterAll (width : Nat) (entries : List (ι × Nat)) (slices : List (Finset ι)) : List (Finset ι) :=
  entries.foldl (fun slices p => scatter width (insert p.1) width p.2 slices) slices

variable {entries : List (ι × Nat)}

theorem mem_scatterAll (hlt : ∀ p ∈ entries, p.2 < 2 ^ width)
    {j : Nat}
    (hslice : (scatterAll width entries slices)[j]? = some slice) :
    ∃ start, slices[j]? = some start ∧
      ∀ i, i ∈ slice ↔ i ∈ start ∨ ∃ p ∈ entries, i = p.1 ∧ p.2.testBit j = true :=
  mem_foldl_scatter (fun p slice i => by rw [Finset.mem_insert, or_comm]) hlt hslice

theorem length_scatter {β : Type*} (width : Nat) (f : β → β) (fuel n : Nat) (slices : List β) :
    (scatter width f fuel n slices).length = slices.length := by
  induction fuel generalizing n slices with
  | zero => rfl
  | succ fuel ih =>
    rw [scatter]
    split
    · rfl
    · rw [ih, length_modify]

omit [DecidableEq ι] in
theorem length_foldl_scatter {γ : Type*} (width : Nat) (grow : γ → Finset ι → Finset ι) (number : γ → Nat)
    (entries : List γ) (slices : List (Finset ι)) :
    (entries.foldl (fun slices p => scatter width (grow p) width (number p) slices) slices).length =
      slices.length := by
  induction entries generalizing slices with
  | nil => rfl
  | cons p entries ih => exact (ih _).trans (length_scatter width _ width (number p) slices)

theorem length_scatterAll (width : Nat) (entries : List (ι × Nat)) (slices : List (Finset ι)) :
    (scatterAll width entries slices).length = slices.length :=
  length_foldl_scatter width (fun p : ι × Nat => insert p.1) Prod.snd entries slices

/-- **The slices of a numbering**: its entries, scattered over empty slices. -/
theorem sliced_scatterAll {width count : Nat}
    (hentries : ∀ i n, (i, n) ∈ entries ↔ i ∈ items ∧ num i = n) (hsmall : ∀ i ∈ items, num i < 2 ^ count)
    (hcount : count ≤ width) :
    Sliced num items 0 (scatterAll width entries (List.replicate count ∅)) := by
  have hlt : ∀ p ∈ entries, p.2 < 2 ^ width := by
    rintro ⟨i, n⟩ hp
    obtain ⟨hi, rfl⟩ := (hentries i n).mp hp
    exact (hsmall i hi).trans_le (Nat.pow_le_pow_right (by decide) hcount)
  refine ⟨fun j slice hslice i => ?_, fun i hi => ?_⟩
  · obtain ⟨start, hstart, hmem⟩ := mem_scatterAll hlt hslice
    obtain rfl : start = ∅ := eq_of_mem_replicate (mem_of_getElem? hstart)
    rw [hmem i, Nat.zero_add]
    rw [or_iff_right (Finset.notMem_empty i)]
    constructor
    · rintro ⟨⟨i, n⟩, hp, rfl, hbit⟩
      obtain ⟨hi, rfl⟩ := (hentries i n).mp hp
      exact ⟨hi, hbit⟩
    · rintro ⟨hi, hbit⟩
      exact ⟨(i, num i), (hentries i _).mpr ⟨hi, rfl⟩, rfl, hbit⟩
  · rw [length_scatterAll, length_replicate, Nat.zero_add]
    exact hsmall i hi

/-- **The items are split by the order of their numbers**, up to the digits below `k`. -/
theorem split_spec {n k : Nat} (h : Sliced num items k slices) (hn : n < 2 ^ (k + slices.length)) (i : ι) :
    (i ∈ (split n items k slices).less ↔ i ∈ items ∧ num i / 2 ^ k < n / 2 ^ k) ∧
    (i ∈ (split n items k slices).equal ↔ i ∈ items ∧ num i / 2 ^ k = n / 2 ^ k) ∧
    (i ∈ (split n items k slices).greater ↔ i ∈ items ∧ n / 2 ^ k < num i / 2 ^ k) := by
  induction slices generalizing k with
  | nil =>
    have hzero : i ∈ items → num i / 2 ^ k = 0 := fun hi => Nat.div_eq_of_lt (h.small i hi)
    have hn0 : n / 2 ^ k = 0 := Nat.div_eq_of_lt hn
    simp only [split, Finset.notMem_empty, false_iff, not_and, hn0]
    exact ⟨fun _ => Nat.not_lt_zero _, ⟨fun hi => ⟨hi, hzero hi⟩, And.left⟩,
      fun hi => by rw [hzero hi]; exact lt_irrefl 0⟩
  | cons slice slices ih =>
    have hn' : n < 2 ^ (k + 1 + slices.length) := by
      rwa [length_cons, show k + (slices.length + 1) = k + 1 + slices.length by omega] at hn
    obtain ⟨hless, hequal, hgreater⟩ := ih h.tail hn'
    have hslice : i ∈ slice ↔ i ∈ items ∧ (num i).testBit k = true := h.mem 0 slice rfl i
    -- a number without its digit `k` is twice the number without the digits up to `k`
    have hdigit : ∀ x : Nat, x / 2 ^ k = 2 * (x / 2 ^ (k + 1)) + (x.testBit k).toNat := by
      intro x
      rw [Nat.toNat_testBit, pow_succ, ← Nat.div_div_eq_div_mul]
      omega
    rw [hdigit (num i), hdigit n, split, Split.step]
    by_cases hi : i ∈ items
    · simp only [hi, true_and] at hless hequal hgreater hslice ⊢
      generalize num i / 2 ^ (k + 1) = upper at hless hequal hgreater ⊢
      generalize n / 2 ^ (k + 1) = bound at hless hequal hgreater ⊢
      split <;> simp only [Finset.mem_union, Finset.mem_inter, Finset.mem_sdiff, hless, hequal, hgreater,
        hslice]
      · next hbit =>
        rw [hbit, Bool.toNat_true]
        cases (num i).testBit k <;> simp only [Bool.toNat_false, Bool.toNat_true, Bool.false_eq_true,
          not_false_eq_true, not_true_eq_false, and_true, and_false, or_false, false_iff] <;> omega
      · next hbit =>
        rw [Bool.eq_false_iff.mpr hbit, Bool.toNat_false]
        cases (num i).testBit k <;> simp only [Bool.toNat_false, Bool.toNat_true, Bool.false_eq_true,
          not_false_eq_true, not_true_eq_false, and_true, and_false, or_false, false_iff] <;> omega
    · simp only [hi, false_and, iff_false] at hless hequal hgreater ⊢
      split <;> simp [hless, hequal, hgreater]

/-! ## lowest digit first -/

omit [DecidableEq ι] in
end

end BitSlices
