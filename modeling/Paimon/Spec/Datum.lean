import Paimon.Lib.Digits
import Paimon.Spec.Manifest

/-!
# Literals and their order

`Datum` of `spec/predicate.rs` with `datum_cmp`: values of different kinds do not compare, floats
compare by IEEE `partial_cmp`, decimals by mathematical value across scales, texts and byte strings
lexicographically (UTF-8 keeps the order of code points, so a text is the list of its characters).

* `decimalCmp`: the comparison of two `i128` decimals, with the digit-wise way out when scaling overflows;
* `datumCmp`: the partial order of literals;
* `Datum.rank`: a value in one linear order such that literals of one ordered kind compare by rank
  (`datumCmp_eq`).
-/

namespace Paimon

/-! ## floats -/

/-- a text as the list of its characters -/
abbrev Text := List Char

namespace Ieee

/-- the bits below the sign -/
def magnitude {w : Nat} (bits : BitVec w) : Nat := bits.toNat % 2 ^ (w - 1)

/-- the magnitude of infinity; a larger magnitude is a NaN -/
def infinity32 : Nat := 0x7F800000
def infinity64 : Nat := 0x7FF0000000000000

def isNan {w : Nat} (infinity : Nat) (bits : BitVec w) : Bool := infinity < magnitude bits

/-- the order of the numbers: the two zeroes are equal -/
def numberRank {w : Nat} (bits : BitVec w) : Int :=
  if bits.msb then -(magnitude bits : Int) else magnitude bits

/-- the order of all bit patterns: negative before positive, NaNs at both ends -/
def totalRank {w : Nat} (bits : BitVec w) : Int :=
  if bits.msb then -(magnitude bits : Int) - 1 else magnitude bits

def partialCmp {w : Nat} (infinity : Nat) (a b : BitVec w) : Option Ordering :=
  if isNan infinity a || isNan infinity b then none
  else some (compare (numberRank a) (numberRank b))

/-- IEEE `totalOrder` -/
def totalCmp {w : Nat} (a b : BitVec w) : Ordering := compare (totalRank a) (totalRank b)

/-- `as f64`: every `f32` is an `f64` -/
def widen (bits : BitVec 32) : BitVec 64 :=
  let m := magnitude bits
  let exponent := m / 2 ^ 23
  let fraction := m % 2 ^ 23
  let sign := if bits.msb then 2 ^ 63 else 0
  let magnitude :=
    if exponent = 255 then 2047 * 2 ^ 52 + fraction * 2 ^ 29
    else if exponent = 0 then
      if fraction = 0 then 0
      else (fraction.log2 + 874) * 2 ^ 52 + (fraction - 2 ^ fraction.log2) * 2 ^ (52 - fraction.log2)
    else (exponent + 896) * 2 ^ 52 + fraction * 2 ^ 29
  BitVec.ofNat 64 (sign + magnitude)

/-- the `f32` of the same sign and, where it is representable, the same value -/
def narrow (bits : BitVec 64) : BitVec 32 :=
  let m := magnitude bits
  let exponent := m / 2 ^ 52
  let fraction := m % 2 ^ 52
  let sign := if bits.msb then 2 ^ 31 else 0
  let magnitude :=
    if exponent = 2047 then 255 * 2 ^ 23
    else if exponent < 874 then 0
    else if exponent ≤ 896 then (2 ^ 52 + fraction) / 2 ^ (926 - exponent)
    else (exponent - 896) * 2 ^ 23 + fraction / 2 ^ 29
  BitVec.ofNat 32 (sign + magnitude % 2 ^ 31)

theorem partialCmp_swap {w infinity : Nat} (a b : BitVec w) :
    partialCmp infinity b a = (partialCmp infinity a b).map Ordering.swap := by
  unfold partialCmp
  rw [Bool.or_comm]
  split
  · rfl
  · show some _ = some _
    congr 1
    exact (Std.OrientedCmp.eq_swap : compare (numberRank b) (numberRank a) = _)

theorem totalRank_inj {w : Nat} (hw : 0 < w) {a b : BitVec w} (h : totalRank a = totalRank b) : a = b := by
  have hsplit : ∀ c : BitVec w, c.toNat = magnitude c + if c.msb then 2 ^ (w - 1) else 0 := by
    intro c
    have hlt : c.toNat < 2 * 2 ^ (w - 1) := by
      rw [← Nat.pow_succ', Nat.succ_eq_add_one, Nat.sub_add_cancel hw]
      exact c.isLt
    rw [magnitude, BitVec.msb_eq_decide]
    by_cases hc : 2 ^ (w - 1) ≤ c.toNat
    · rw [if_pos (decide_eq_true hc), Nat.mod_eq_sub_mod hc, Nat.mod_eq_of_lt (by omega)]
      omega
    · rw [if_neg (by simpa using hc), Nat.mod_eq_of_lt (by omega)]
      rfl
  apply BitVec.eq_of_toNat_eq
  rw [hsplit a, hsplit b]
  unfold totalRank at h
  split at h <;> split at h <;> simp_all <;> omega

end Ieee

/-! ## decimals -/

def checkedI128 (v : Int) : Option Int := if -2 ^ 127 ≤ v ∧ v < 2 ^ 127 then some v else none

/-- an unscaled value brought to a larger scale, if nothing overflows -/
def checkedScale (unscaled : Int) (gap : Nat) : Option Int :=
  (checkedI128 (10 ^ gap)).bind fun factor => checkedI128 (unscaled * factor)

/-- both values at the larger scale, if nothing overflows -/
def normalizedCmp (ua : Int) (sa : Nat) (ub : Int) (sb : Nat) : Option Ordering :=
  if sa < sb then (checkedScale ua (sb - sa)).map fun scaled => compare scaled ub
  else (checkedScale ub (sa - sb)).map fun scaled => compare ua scaled

/-- sign, place of the leading digit, digits from the left -/
def digitsCmp (ua : Int) (sa : Nat) (ub : Int) (sb : Nat) : Ordering :=
  if ua.sign ≠ ub.sign then compare ua.sign ub.sign
  else if ua.sign = 0 then .eq
  else
    let digitsA := Digits.ofNat ua.natAbs
    let digitsB := Digits.ofNat ub.natAbs
    let exponentA : Int := digitsA.length - sa
    let exponentB : Int := digitsB.length - sb
    let magnitude := (compare exponentA exponentB).then (Digits.comparePadded digitsA digitsB)
    if ua.sign < 0 then magnitude.swap else magnitude

def decimalCmp (ua : Int) (sa : Nat) (ub : Int) (sb : Nat) : Option Ordering :=
  if sa = sb then some (compare ua ub)
  else
    match normalizedCmp ua sa ub sb with
    | some ordering => some ordering
    | none => some (digitsCmp ua sa ub sb)

def decimalValue (unscaled : Int) (scale : Nat) : ℚ := unscaled / 10 ^ scale

theorem compare_decimalValue (ua : Int) (sa : Nat) (ub : Int) (sb : Nat) :
    compare (decimalValue ua sa) (decimalValue ub sb) = compare (ua * 10 ^ sb) (ub * 10 ^ sa) := by
  have hpos : (0 : ℚ) < 10 ^ sa * 10 ^ sb := by positivity
  have hmono : StrictMono fun q : ℚ => q * (10 ^ sa * 10 ^ sb) := fun a b h =>
    mul_lt_mul_of_pos_right h hpos
  have hcast : StrictMono fun i : Int => (i : ℚ) := Int.cast_strictMono
  rw [← Compare.map_eq hmono, ← Compare.map_eq hcast]
  congr 1
  · unfold decimalValue
    push_cast
    field_simp
  · unfold decimalValue
    push_cast
    field_simp

theorem compare_mul_pos {a b c : Int} (hc : 0 < c) : compare (a * c) (b * c) = compare a b :=
  Compare.map_eq (fun _ _ h => mul_lt_mul_of_pos_right h hc) a b

variable {ub : Int} {ua : Int} {sb : Nat} {sa : Nat}

theorem normalized_eq (h : sa < sb) :
    compare (ua * 10 ^ sb) (ub * 10 ^ sa) = compare (ua * 10 ^ (sb - sa)) ub := by
  rw [← compare_mul_pos (a := ua * 10 ^ (sb - sa)) (c := 10 ^ sa) (by positivity), mul_assoc,
    ← pow_add, Nat.sub_add_cancel h.le]

theorem checkedI128_eq {v w : Int} (h : checkedI128 v = some w) : w = v := by
  unfold checkedI128 at h
  split at h
  · injection h with h
    exact h.symm
  · cases h

theorem checkedScale_eq {u v : Int} {gap : Nat} (h : checkedScale u gap = some v) : v = u * 10 ^ gap := by
  obtain ⟨factor, hf, h⟩ := Option.bind_eq_some_iff.mp h
  rw [checkedI128_eq h, checkedI128_eq hf]

variable {ordering : Ordering}

theorem normalizedCmp_eq (hne : sa ≠ sb)
    (h : normalizedCmp ua sa ub sb = some ordering) :
    ordering = compare (ua * 10 ^ sb) (ub * 10 ^ sa) := by
  unfold normalizedCmp at h
  split at h
  · rename_i hlt
    obtain ⟨scaled, hs, rfl⟩ := Option.map_eq_some_iff.mp h
    rw [normalized_eq hlt, checkedScale_eq hs]
  · rename_i hge
    obtain ⟨scaled, hs, rfl⟩ := Option.map_eq_some_iff.mp h
    rw [← Compare.swap_eq (ub * 10 ^ sa), normalized_eq (by omega), checkedScale_eq hs, Compare.swap_eq]

theorem sign_eq (hs : ua.sign ≠ ub.sign) :
    compare ua.sign ub.sign = compare (ua * 10 ^ sb) (ub * 10 ^ sa) := by
  have hsign : ∀ (u : Int) (s : Nat), (u * 10 ^ s).sign = u.sign := fun u s => by
    rw [Int.sign_mul, Int.sign_eq_one_of_pos (a := 10 ^ s) (by positivity), mul_one]
  rw [← hsign ua sb, ← hsign ub sa] at hs ⊢
  generalize ua * 10 ^ sb = x at hs ⊢
  generalize ub * 10 ^ sa = y at hs ⊢
  have hmono : Monotone Int.sign := fun a b h => by
    rcases lt_trichotomy a 0 with ha | ha | ha <;> rcases lt_trichotomy b 0 with hb | hb | hb <;>
      simp_all [Int.sign_eq_neg_one_of_neg, Int.sign_eq_one_of_pos] <;> omega
  rcases lt_or_gt_of_ne hs with h | h
  · rw [compare_lt_iff_lt.mpr h, compare_lt_iff_lt.mpr (hmono.reflect_lt h)]
  · rw [compare_gt_iff_gt.mpr h, compare_gt_iff_gt.mpr (hmono.reflect_lt h)]

theorem digitsCmp_eq (ua : Int) (sa : Nat) (ub : Int) (sb : Nat) :
    digitsCmp ua sa ub sb = compare (ua * 10 ^ sb) (ub * 10 ^ sa) := by
  unfold digitsCmp
  split
  · exact sign_eq ‹_›
  rename_i hs
  have hs : ua.sign = ub.sign := not_not.mp hs
  split
  · rename_i hz
    have ha : ua = 0 := Int.sign_eq_zero_iff_zero.mp hz
    have hb : ub = 0 := Int.sign_eq_zero_iff_zero.mp (by rw [← hs]; exact hz)
    rw [ha, hb, zero_mul, zero_mul]
    exact (compare_eq_iff_eq.mpr rfl).symm
  rename_i hz
  dsimp only
  have ha : 0 < ua.natAbs := Int.natAbs_pos.mpr fun h => hz (by rw [h]; rfl)
  have hb : 0 < ub.natAbs := Int.natAbs_pos.mpr fun h => hz (by rw [hs, h]; rfl)
  -- places of the leading digits, without subtraction
  have hexp : compare (((Digits.ofNat ua.natAbs).length : Int) - sa)
      (((Digits.ofNat ub.natAbs).length : Int) - sb) =
      compare ((Digits.ofNat ua.natAbs).length + sb) ((Digits.ofNat ub.natAbs).length + sa) := by
    have hmono : StrictMono fun n : Nat => (n : Int) - sa - sb := fun m n h => by
      show (m : Int) - sa - sb < (n : Int) - sa - sb
      omega
    rw [← Compare.map_eq hmono]
    congr 1 <;> push_cast <;> ring
  rw [hexp, ← Digits.compare_scaled ha hb]
  have hcast : StrictMono fun n : Nat => (n : Int) := Int.natCast_strictMono
  rw [← Compare.map_eq hcast]
  push_cast
  rcases lt_or_gt_of_ne (fun h : ua = 0 => hz (by rw [h]; rfl)) with hneg | hpos
  · have hbneg : ub < 0 := by
      rw [Int.sign_eq_neg_one_of_neg hneg] at hs
      exact Int.sign_eq_neg_one_iff_neg.mp hs.symm
    rw [if_pos (by rw [Int.sign_eq_neg_one_of_neg hneg]; decide), Compare.swap_eq,
      abs_of_neg hneg, abs_of_neg hbneg]
    rw [neg_mul, neg_mul]
    exact Compare.anti_eq (fun _ _ h => neg_lt_neg h) _ _
  · have hbpos : 0 < ub := by
      rw [Int.sign_eq_one_of_pos hpos] at hs
      exact Int.sign_eq_one_iff_pos.mp hs.symm
    rw [if_neg (by rw [Int.sign_eq_one_of_pos hpos]; decide), abs_of_pos hpos, abs_of_pos hbpos]

/-- **`decimal_cmp` is exact comparison of rationals.** -/
theorem decimalCmp_eq (ua : Int) (sa : Nat) (ub : Int) (sb : Nat) :
    decimalCmp ua sa ub sb = some (compare (decimalValue ua sa) (decimalValue ub sb)) := by
  rw [compare_decimalValue]
  unfold decimalCmp
  split
  · rename_i h
    rw [h, compare_mul_pos (by positivity)]
  rename_i hne
  split
  · rename_i ordering hnorm
    rw [normalizedCmp_eq hne hnorm]
  · rw [digitsCmp_eq]

/-! ## literals -/

inductive Datum where
  | bool (v : Bool)
  | tinyInt (v : Int)
  | smallInt (v : Int)
  | int (v : Int)
  | long (v : Int)
  | float (bits : BitVec 32)
  | double (bits : BitVec 64)
  | string (v : Text)
  | date (v : Int)
  | time (v : Int)
  | timestamp (millis nanos : Int)
  | localZonedTimestamp (millis nanos : Int)
  | decimal (unscaled : Int) (precision scale : Nat)
  | bytes (v : Bytes)
  | variant (value metadata : Bytes)
deriving DecidableEq, Repr

def textCmp (a b : Text) : Ordering :=
  List.compareLex compare (a.map Char.toNat) (b.map Char.toNat)

/-- unsigned bytes, lexicographically -/
def javaBytesCmp (a b : Bytes) : Ordering :=
  List.compareLex compare (a.map UInt8.toNat) (b.map UInt8.toNat)

def pairCmp (a b : Int × Int) : Ordering := (compare a.1 b.1).then (compare a.2 b.2)

def datumCmp : Datum → Datum → Option Ordering
  | .bool a, .bool b => some (compare a b)
  | .tinyInt a, .tinyInt b => some (compare a b)
  | .smallInt a, .smallInt b => some (compare a b)
  | .int a, .int b => some (compare a b)
  | .long a, .long b => some (compare a b)
  | .float a, .float b => Ieee.partialCmp Ieee.infinity32 a b
  | .double a, .double b => Ieee.partialCmp Ieee.infinity64 a b
  | .string a, .string b => some (textCmp a b)
  | .date a, .date b => some (compare a b)
  | .time a, .time b => some (compare a b)
  | .timestamp ma na, .timestamp mb nb => some (pairCmp (ma, na) (mb, nb))
  | .localZonedTimestamp ma na, .localZonedTimestamp mb nb => some (pairCmp (ma, na) (mb, nb))
  | .decimal ua _ sa, .decimal ub _ sb => decimalCmp ua sa ub sb
  | .bytes a, .bytes b => some (javaBytesCmp a b)
  | .variant va ma, .variant vb mb => if va = vb ∧ ma = mb then some .eq else none
  | _, _ => none

def datumEq (a b : Datum) : Bool := datumCmp a b == some .eq

/-- the order of `decimal_cmp` on pairs of an unscaled value and a scale -/
def decimalLe (x y : Int × Nat) : Prop := decimalCmp x.1 x.2 y.1 y.2 ≠ some .gt

theorem decimalLe_iff (x y : Int × Nat) : decimalLe x y ↔ decimalValue x.1 x.2 ≤ decimalValue y.1 y.2 := by
  rw [decimalLe, decimalCmp_eq, Ne, Option.some_inj, compare_gt_iff_gt, not_lt]

theorem digits_i128 {a : Int} (h : -2 ^ 127 ≤ a ∧ a < 2 ^ 127) : (Digits.ofNat a.natAbs).length ≤ 39 := by
  rw [Digits.ofNat, List.length_reverse, Nat.digits_length_le_iff (by decide)]
  omega

/-- **Decimals compare as the rationals they stand for**, whatever the scales; the places of the
leading digits, the only unchecked subtraction, stay far inside an `i64`; so the order is a total
preorder whose equivalence is equality of literals. -/
theorem decimal_cmp_exact {a b : Int} {s t : Nat} (ha : -2 ^ 127 ≤ a ∧ a < 2 ^ 127)
    (hb : -2 ^ 127 ≤ b ∧ b < 2 ^ 127) (hs : s < 2 ^ 32) (ht : t < 2 ^ 32) :
    decimalCmp a s b t = some (compare (decimalValue a s) (decimalValue b t)) ∧
    (∀ p ∈ [(a, s), (b, t)], -2 ^ 63 ≤ ((Digits.ofNat p.1.natAbs).length : Int) - p.2 ∧
      ((Digits.ofNat p.1.natAbs).length : Int) - p.2 < 2 ^ 63) ∧
    (decimalLe (a, s) (b, t) ∨ decimalLe (b, t) (a, s)) ∧
    (∀ z, decimalLe (a, s) (b, t) → decimalLe (b, t) z → decimalLe (a, s) z) ∧
    ∀ p q, datumEq (.decimal a p s) (.decimal b q t) = true ↔
      decimalLe (a, s) (b, t) ∧ decimalLe (b, t) (a, s) := by
  refine ⟨decimalCmp_eq .., fun p hp => ?_, ?_, fun z => ?_, fun p q => ?_⟩
  · have hplace : (Digits.ofNat p.1.natAbs).length ≤ 39 ∧ p.2 < 2 ^ 32 := by
      rcases List.mem_pair.mp hp with rfl | rfl
      · exact ⟨digits_i128 ha, hs⟩
      · exact ⟨digits_i128 hb, ht⟩
    omega
  · rw [decimalLe_iff, decimalLe_iff]
    exact le_total _ _
  · rw [decimalLe_iff, decimalLe_iff, decimalLe_iff]
    exact le_trans
  · rw [decimalLe_iff, decimalLe_iff, ← le_antisymm_iff, datumEq, beq_iff_eq]
    exact (congrArg (· = some .eq) (decimalCmp_eq ..)).to_iff.trans
      (by rw [Option.some_inj, compare_eq_iff_eq])

/-- the least `i128` at scale `0` against `-1` at a scale that no power of ten reaches -/
theorem decimal_cmp_exact_min : decimalCmp (-2 ^ 127) 0 (-1) 60 =
    some (compare (decimalValue (-2 ^ 127) 0) (decimalValue (-1) 60)) ∧
    decimalCmp (-2 ^ 127) 0 (-1) 60 = some .lt :=
  ⟨(decimal_cmp_exact (by decide) (by decide) (by decide) (by decide)).1, by decide +kernel⟩

inductive DatumKind where
  | bool | tinyInt | smallInt | int | long | float | double | string | date | time | timestamp
  | localZonedTimestamp | decimal | bytes | variant
deriving DecidableEq, Repr

def Datum.kind : Datum → DatumKind
  | .bool _ => .bool
  | .tinyInt _ => .tinyInt
  | .smallInt _ => .smallInt
  | .int _ => .int
  | .long _ => .long
  | .float _ => .float
  | .double _ => .double
  | .string _ => .string
  | .date _ => .date
  | .time _ => .time
  | .timestamp _ _ => .timestamp
  | .localZonedTimestamp _ _ => .localZonedTimestamp
  | .decimal _ _ _ => .decimal
  | .bytes _ => .bytes
  | .variant _ _ => .variant

/-- kinds whose values are in a linear order -/
def DatumKind.ordered : DatumKind → Bool
  | .float => false
  | .double => false
  | .variant => false
  | _ => true

def DatumKind.isFloat : DatumKind → Bool
  | .float => true
  | .double => true
  | _ => false

def Datum.isNan : Datum → Bool
  | .float b => Ieee.isNan Ieee.infinity32 b
  | .double b => Ieee.isNan Ieee.infinity64 b
  | _ => false

/-- the place of a value among the values of its kind -/
def Datum.rank : Datum → Compare.LexList ℚ
  | .bool v => Compare.toLexList [if v then 1 else 0]
  | .tinyInt v => Compare.toLexList [(v : ℚ)]
  | .smallInt v => Compare.toLexList [(v : ℚ)]
  | .int v => Compare.toLexList [(v : ℚ)]
  | .long v => Compare.toLexList [(v : ℚ)]
  | .float _ => Compare.toLexList []
  | .double _ => Compare.toLexList []
  | .string v => Compare.toLexList ((v.map Char.toNat).map (Nat.cast : Nat → ℚ))
  | .date v => Compare.toLexList [(v : ℚ)]
  | .time v => Compare.toLexList [(v : ℚ)]
  | .timestamp m n => Compare.toLexList [(m : ℚ), (n : ℚ)]
  | .localZonedTimestamp m n => Compare.toLexList [(m : ℚ), (n : ℚ)]
  | .decimal u _ s => Compare.toLexList [decimalValue u s]
  | .bytes v => Compare.toLexList ((v.map UInt8.toNat).map (Nat.cast : Nat → ℚ))
  | .variant _ _ => Compare.toLexList []

theorem compare_int (a b : Int) :
    compare a b = compare (Compare.toLexList [(a : ℚ)]) (Compare.toLexList [(b : ℚ)]) := by
  rw [Compare.compare_singleton]
  exact (Compare.map_eq (Int.cast_strictMono (R := ℚ)) a b).symm

theorem pairCmp_eq (a b : Int × Int) : pairCmp a b = compare (Compare.toLexList [(a.1 : ℚ), (a.2 : ℚ)])
      (Compare.toLexList [(b.1 : ℚ), (b.2 : ℚ)]) := by
  rw [Compare.compare_cons, ← compare_int, Compare.map_eq (Int.cast_strictMono (R := ℚ))]
  rfl

theorem lexNat_eq (as bs : List Nat) :
    List.compareLex compare as bs = compare (Compare.toLexList (as.map (Nat.cast : Nat → ℚ)))
      (Compare.toLexList (bs.map (Nat.cast : Nat → ℚ))) :=
  Compare.lex_map_eq Nat.strictMono_cast as bs

/-- **Literals of one ordered kind compare by rank**, literals of different kinds not at all. -/
theorem datumCmp_eq {a : Datum} (ha : a.kind.ordered = true) (b : Datum) :
    datumCmp a b = if a.kind = b.kind then some (compare a.rank b.rank) else none := by
  have hint : ∀ x y : Int, some (compare x y) =
      some (compare (Compare.toLexList [(x : ℚ)]) (Compare.toLexList [(y : ℚ)])) :=
    fun x y => congrArg some (compare_int x y)
  -- different kinds do not compare; what is left is one case per ordered kind
  cases a <;> cases b <;> try rfl
  all_goals try exact absurd ha Bool.false_ne_true
  case bool.bool x y =>
    have hbool : StrictMono fun v : Bool => if v then (1 : ℚ) else 0 := by
      intro x y h
      obtain ⟨rfl, rfl⟩ := Bool.lt_iff.mp h
      exact one_pos
    exact congrArg some ((Compare.map_eq hbool x y).symm.trans (Compare.compare_singleton _ _).symm)
  case string.string x y => exact congrArg some (lexNat_eq _ _)
  case bytes.bytes x y => exact congrArg some (lexNat_eq _ _)
  case timestamp.timestamp => exact congrArg some (pairCmp_eq _ _)
  case localZonedTimestamp.localZonedTimestamp => exact congrArg some (pairCmp_eq _ _)
  case decimal.decimal => exact (decimalCmp_eq ..).trans (congrArg some (Compare.compare_singleton _ _).symm)
  all_goals exact hint _ _

theorem datumCmp_swap (a b : Datum) : datumCmp b a = (datumCmp a b).map Ordering.swap := by
  by_cases ha : a.kind.ordered = true
  · by_cases hb : b.kind.ordered = true
    · rw [datumCmp_eq ha, datumCmp_eq hb]
      by_cases hk : a.kind = b.kind
      · rw [if_pos hk, if_pos hk.symm, ← Compare.swap_eq]
        rfl
      · rw [if_neg hk, if_neg fun h => hk h.symm]
        rfl
    · have hk : a.kind ≠ b.kind := fun h => hb (h ▸ ha)
      rw [datumCmp_eq ha, if_neg hk]
      cases b <;> simp [Datum.kind, DatumKind.ordered] at hb <;> cases a <;>
        first | rfl | exact absurd rfl hk
  · cases a <;> simp [Datum.kind, DatumKind.ordered] at ha <;> cases b <;> try rfl
    case float.float x y => exact Ieee.partialCmp_swap x y
    case double.double x y => exact Ieee.partialCmp_swap x y
    case variant.variant =>
      unfold datumCmp
      simp only [eq_comm]
      split <;> rfl

theorem kind_eq_of_cmp {a b : Datum} (h : datumCmp a b = some ordering) :
    a.kind = b.kind := by
  cases a <;> cases b <;> first | rfl | cases h

end Paimon
