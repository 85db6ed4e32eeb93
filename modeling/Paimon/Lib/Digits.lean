import Paimon.Lib.Compare

/-!
# Comparing scaled numbers by their decimal digits

`a / 10 ^ s` and `b / 10 ^ t` for positive `a`, `b` are ordered first by the position of the leading
digit (number of digits minus scale) and then by the digits from the left, the shorter list padded
with zeroes.  `compare_scaled` says so without division: `a * 10 ^ t` against `b * 10 ^ s`.
-/

namespace Digits

open List

/-- the number written by decimal digits, most significant first -/
def value : List Nat → Nat
  | [] => 0
  | d :: ds => d * 10 ^ ds.length + value ds

/-- `n` digits from the left, missing ones taken as zero -/
def compareDigits : Nat → List Nat → List Nat → Ordering
  | 0, _, _ => .eq
  | n + 1, xs, ys => (compare (xs.headD 0) (ys.headD 0)).then (compareDigits n xs.tail ys.tail)

/-- digit by digit from the left; the shorter list is padded with zeroes -/
def comparePadded (xs ys : List Nat) : Ordering :=
  compareDigits (max xs.length ys.length) xs ys

/-- the decimal digits of a number, most significant first -/
def ofNat (n : Nat) : List Nat := (Nat.digits 10 n).reverse

theorem value_append (xs : List Nat) (d : Nat) : value (xs ++ [d]) = value xs * 10 + d := by
  induction xs with
  | nil => simp [value]
  | cons x xs ih =>
    rw [cons_append, value, ih, value, length_append]
    show x * 10 ^ (xs.length + 1) + (value xs * 10 + d) = _
    ring

theorem value_ofNat (n : Nat) : value (ofNat n) = n := by
  have hrev : ∀ ds : List Nat, value ds.reverse = Nat.ofDigits 10 ds := by
    intro ds
    induction ds with
    | nil => rfl
    | cons d ds ih =>
      rw [reverse_cons, value_append, ih, Nat.ofDigits_cons]
      ring
  rw [ofNat, hrev, Nat.ofDigits_digits]

theorem ofNat_lt {n d : Nat} (h : d ∈ ofNat n) : d < 10 :=
  Nat.digits_lt_base (by omega) (mem_reverse.mp h)

theorem value_lt {ds : List Nat} (h : ∀ d ∈ ds, d < 10) : value ds < 10 ^ ds.length := by
  induction ds with
  | nil => simp [value]
  | cons d ds ih =>
    have hd := h d mem_cons_self
    have hds := ih (forall_mem_cons.mp h).2
    rw [value, length_cons, pow_succ]
    nlinarith

theorem compare_two_digits {a b r s m : Nat} (hr : r < m) (hs : s < m) :
    compare (a * m + r) (b * m + s) = (compare a b).then (compare r s) := by
  rcases lt_trichotomy a b with h | h | h
  · rw [compare_lt_iff_lt.mpr h, compare_lt_iff_lt.mpr (by nlinarith)]
    rfl
  · subst h
    rw [compare_eq_iff_eq.mpr (rfl : a = a)]
    show _ = compare r s
    rcases lt_trichotomy r s with h | h | h
    · rw [compare_lt_iff_lt.mpr h, compare_lt_iff_lt.mpr (by omega)]
    · rw [h]
      rw [compare_eq_iff_eq.mpr rfl, compare_eq_iff_eq.mpr rfl]
    · rw [compare_gt_iff_gt.mpr h, compare_gt_iff_gt.mpr (by omega)]
  · rw [compare_gt_iff_gt.mpr h, compare_gt_iff_gt.mpr (by nlinarith)]
    rfl

theorem compare_mul_right {a b c : Nat} (hc : 0 < c) : compare (a * c) (b * c) = compare a b :=
  Compare.map_eq (fun _ _ h => Nat.mul_lt_mul_of_pos_right h hc) a b

variable {xs ys : List Nat}

theorem compare_cons {x y : Nat} (hx : ∀ d ∈ xs, d < 10) (hy : ∀ d ∈ ys, d < 10) :
    compare (value (x :: xs) * 10 ^ (ys.length + 1)) (value (y :: ys) * 10 ^ (xs.length + 1)) =
      (compare x y).then (compare (value xs * 10 ^ ys.length) (value ys * 10 ^ xs.length)) := by
  have hr : value xs * 10 ^ ys.length < 10 ^ (xs.length + ys.length) := by
    rw [pow_add]
    exact Nat.mul_lt_mul_of_pos_right (value_lt hx) (by positivity)
  have hs : value ys * 10 ^ xs.length < 10 ^ (xs.length + ys.length) := by
    rw [pow_add, mul_comm (10 ^ xs.length)]
    exact Nat.mul_lt_mul_of_pos_right (value_lt hy) (by positivity)
  rw [← compare_two_digits hr hs, ← compare_mul_right (a := x * _ + _) (c := 10) (by omega)]
  congr 1
  · rw [value]
    ring
  · rw [value]
    ring

theorem compareDigits_eq {n : Nat} (hx : ∀ d ∈ xs, d < 10)
    (hy : ∀ d ∈ ys, d < 10) (hxn : xs.length ≤ n) (hyn : ys.length ≤ n) :
    compareDigits n xs ys = compare (value xs * 10 ^ ys.length) (value ys * 10 ^ xs.length) := by
  induction n generalizing xs ys with
  | zero =>
    rw [length_eq_zero_iff.mp (Nat.le_zero.mp hxn), length_eq_zero_iff.mp (Nat.le_zero.mp hyn)]
    exact (compare_eq_iff_eq.mpr rfl).symm
  | succ n ih =>
    have htail : ∀ {l : List Nat}, (∀ d ∈ l, d < 10) → l.length ≤ n + 1 →
        (∀ d ∈ l.tail, d < 10) ∧ l.tail.length ≤ n :=
      fun h hl => ⟨fun d hd => h d (mem_of_mem_tail hd), by rw [length_tail]; omega⟩
    obtain ⟨hx', hxn'⟩ := htail hx hxn
    obtain ⟨hy', hyn'⟩ := htail hy hyn
    rw [compareDigits, ih hx' hy' hxn' hyn']
    cases xs with
    | nil =>
      cases ys with
      | nil => rfl
      | cons y ys =>
        simpa [value] using
          (compare_two_digits (a := 0) (b := y) (r := 0) (by positivity) (value_lt hy')).symm
    | cons x xs =>
      cases ys with
      | nil =>
        simpa [value] using
          (compare_two_digits (a := x) (b := 0) (s := 0) (value_lt hx') (by positivity)).symm
      | cons y ys => exact (compare_cons hx' hy').symm

theorem comparePadded_eq (hx : ∀ d ∈ xs, d < 10) (hy : ∀ d ∈ ys, d < 10) :
    comparePadded xs ys = compare (value xs * 10 ^ ys.length) (value ys * 10 ^ xs.length) :=
  compareDigits_eq hx hy (le_max_left ..) (le_max_right ..)

theorem ofNat_bounds {n : Nat} (h : 0 < n) :
    10 ^ ((ofNat n).length - 1) ≤ n ∧ n < 10 ^ (ofNat n).length ∧ 1 ≤ (ofNat n).length := by
  have hlen : (ofNat n).length = (Nat.digits 10 n).length := length_reverse
  have hpos : 1 ≤ (Nat.digits 10 n).length :=
    length_pos_iff.mpr (Nat.digits_ne_nil_iff_ne_zero.mpr h.ne')
  rw [hlen]
  refine ⟨?_, Nat.lt_base_pow_length_digits (by omega), hpos⟩
  have := Nat.base_pow_length_digits_le 10 n (by omega) h.ne'
  rw [show (Nat.digits 10 n).length = (Nat.digits 10 n).length - 1 + 1 by omega, pow_succ] at this
  omega

/-- **Scaled positive numbers** compare by the place of the leading digit, then by digits. -/
theorem compare_scaled {a b : Nat} (ha : 0 < a) (hb : 0 < b) (s t : Nat) : compare (a * 10 ^ t) (b * 10 ^ s) =
      (compare ((ofNat a).length + t) ((ofNat b).length + s)).then
        (comparePadded (ofNat a) (ofNat b)) := by
  obtain ⟨halo, hahi, hal⟩ := ofNat_bounds ha
  obtain ⟨hblo, hbhi, hbl⟩ := ofNat_bounds hb
  -- a leading digit at a higher place decides
  have hlead : ∀ {a b s t : Nat}, a < 10 ^ (ofNat a).length → 10 ^ ((ofNat b).length - 1) ≤ b →
      1 ≤ (ofNat b).length → (ofNat a).length + t < (ofNat b).length + s →
      a * 10 ^ t < b * 10 ^ s := by
    intro a b s t h1 h2 h3 hlt
    calc a * 10 ^ t < 10 ^ (ofNat a).length * 10 ^ t :=
          Nat.mul_lt_mul_of_pos_right h1 (by positivity)
      _ = 10 ^ ((ofNat a).length + t) := (pow_add ..).symm
      _ ≤ 10 ^ ((ofNat b).length - 1 + s) := Nat.pow_le_pow_right (by omega) (by omega)
      _ = 10 ^ ((ofNat b).length - 1) * 10 ^ s := pow_add ..
      _ ≤ b * 10 ^ s := Nat.mul_le_mul_right _ h2
  rcases lt_trichotomy ((ofNat a).length + t) ((ofNat b).length + s) with h | h | h
  · rw [compare_lt_iff_lt.mpr h, compare_lt_iff_lt.mpr (hlead hahi hblo hbl h)]
    rfl
  · rw [compare_eq_iff_eq.mpr h]
    show _ = comparePadded (ofNat a) (ofNat b)
    rw [comparePadded_eq (fun d => ofNat_lt) (fun d => ofNat_lt), value_ofNat, value_ofNat]
    -- both sides are the same pair up to a common power of ten
    rw [← compare_mul_right (a := a * 10 ^ t) (c := 10 ^ (ofNat a).length) (by positivity),
      ← compare_mul_right (a := a * 10 ^ (ofNat b).length) (c := 10 ^ s) (by positivity)]
    congr 1
    · rw [mul_assoc, mul_assoc, ← pow_add, ← pow_add, ← h, add_comm t]
    · ring
  · rw [compare_gt_iff_gt.mpr h, compare_gt_iff_gt.mpr (hlead hbhi halo hal h)]
    rfl

end Digits
