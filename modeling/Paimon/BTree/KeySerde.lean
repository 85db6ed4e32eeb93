import Paimon.Lib.Utf8
import Paimon.Spec.BinaryRowRoundTrip

/-!
# Keys of a BTree index

`btree/key_serde.rs` and `btree/var_len.rs`: a value becomes the bytes of a key by the type of its
column, and keys are compared by a comparator of that type, which rejects bytes that are no key of it.

* `encodeVarInt`, `tryDecodeVarInt`: numbers in groups of seven bits;
* `serializeDatum`, `keyComparator`: a key and the comparison of two keys;
* `normalizeKeyLiteral`: a literal in the layout of the column, `none` where its value would change;
* `KeyOk t d`  `d` is a value of a column of the type `t`.

Keys of values compare as the values do (`keyComparator_eq`), and a normalized literal is the literal
(`normalizeKeyLiteral_eq`).
-/

namespace Paimon.BTree

open List

/-! ## numbers of variable length -/

/-- seven bits a byte, at most `more + 1` of them; the high bit says that another one follows -/
def encodeVar : Nat → Nat → Bytes
  | 0, v => [UInt8.ofNat v]
  | more + 1, v =>
    if v < 128 then [UInt8.ofNat v] else UInt8.ofNat (v % 128 + 128) :: encodeVar more (v / 128)

def encodeVarInt (v : Int) : Bytes := encodeVar 4 (v % 2 ^ 32).toNat

/-- `i` bytes are read, `acc` is their value -/
def decodeVarFrom (bytes : Bytes) (offset : Nat) : Nat → Nat → Nat → Result (Int × Nat)
  | 0, _, _ => .error (.dataInvalid
      s!"Malformed var-int at offset {offset} of a {bytes.length}-byte slice")
  | fuel + 1, i, acc =>
    match bytes[offset + i]? with
    | none => .error (.dataInvalid
        s!"Var-int at offset {offset} runs past the end of a {bytes.length}-byte slice")
    | some b =>
      let acc := acc + b.toNat % 128 * 128 ^ i
      if b.toNat < 128 then .ok (toSigned 32 (acc % 2 ^ 32), i + 1)
      else decodeVarFrom bytes offset fuel (i + 1) acc

/-- the number at an offset and how many bytes it takes -/
def tryDecodeVarInt (bytes : Bytes) (offset : Nat) : Result (Int × Nat) :=
  decodeVarFrom bytes offset 5 0 0

theorem encodeVar_ne_nil (more v : Nat) : encodeVar more v ≠ [] := by
  cases more with
  | zero => exact cons_ne_nil _ _
  | succ more =>
    rw [encodeVar]
    split <;> exact cons_ne_nil _ _

variable {bytes rest : Bytes} {b : UInt8}

theorem getElem?_of_drop {k : Nat} (h : bytes.drop k = b :: rest) : bytes[k]? = some b := by
  have hhead := congrArg List.head? h
  rw [head?_drop, head?_cons] at hhead
  exact hhead

theorem drop_succ_of_drop {k : Nat}
    (h : bytes.drop k = b :: rest) : bytes.drop (k + 1) = rest := by
  have htail := congrArg List.tail h
  rw [tail_drop, tail_cons] at htail
  exact htail

variable {offset fuel i acc v : Nat}

theorem decodeVarFrom_last (hv : v < 128)
    (h : bytes.drop (offset + i) = UInt8.ofNat v :: rest) :
    decodeVarFrom bytes offset (fuel + 1) i acc
      = .ok (toSigned 32 ((acc + v * 128 ^ i) % 2 ^ 32), i + 1) := by
  have hb : (UInt8.ofNat v).toNat = v := by
    rw [UInt8.toNat_ofNat']
    omega
  rw [decodeVarFrom, getElem?_of_drop h]
  dsimp only
  rw [hb, if_pos hv, Nat.mod_eq_of_lt hv]

theorem decodeVarFrom_more
    (h : bytes.drop (offset + i) = UInt8.ofNat (v % 128 + 128) :: rest) :
    decodeVarFrom bytes offset (fuel + 1) i acc
      = decodeVarFrom bytes offset fuel (i + 1) (acc + v % 128 * 128 ^ i) := by
  have hb : (UInt8.ofNat (v % 128 + 128)).toNat = v % 128 + 128 := by
    rw [UInt8.toNat_ofNat']
    omega
  have hmod : (v % 128 + 128) % 128 = v % 128 := by omega
  rw [decodeVarFrom, getElem?_of_drop h]
  dsimp only
  rw [hb, if_neg (by omega), hmod]

theorem decodeVarFrom_encodeVar {offset more i acc v : Nat}
    (hv : v < 128 ^ (more + 1)) (h : bytes.drop (offset + i) = encodeVar more v ++ rest) :
    decodeVarFrom bytes offset (more + 1) i acc
      = .ok (toSigned 32 ((acc + v * 128 ^ i) % 2 ^ 32), i + (encodeVar more v).length) := by
  induction more generalizing i acc v with
  | zero => exact decodeVarFrom_last (by simpa using hv) h
  | succ more ih =>
    rw [encodeVar] at h ⊢
    split
    · next hlt =>
      rw [if_pos hlt] at h
      exact decodeVarFrom_last hlt h
    · next hge =>
      rw [if_neg hge, cons_append] at h
      have hdiv : v / 128 < 128 ^ (more + 1) := by
        rw [pow_succ] at hv
        exact Nat.div_lt_of_lt_mul (by rw [Nat.mul_comm]; exact hv)
      have hsplit : v % 128 * 128 ^ i + v / 128 * 128 ^ (i + 1) = v * 128 ^ i := by
        calc v % 128 * 128 ^ i + v / 128 * 128 ^ (i + 1) = (128 * (v / 128) + v % 128) * 128 ^ i := by ring
          _ = v * 128 ^ i := by rw [Nat.div_add_mod]
      have hrest : bytes.drop (offset + (i + 1)) = encodeVar more (v / 128) ++ rest :=
        drop_succ_of_drop h
      rw [decodeVarFrom_more h, ih hdiv hrest, Nat.add_assoc acc, hsplit, length_cons]
      congr 2
      omega

variable {v : Int}

/-- **A number is read back, wherever it stands.** -/
theorem tryDecodeVarInt_encode {offset : Nat} (h0 : 0 ≤ v)
    (hv : v < 2 ^ 31) (h : bytes.drop offset = encodeVarInt v ++ rest) :
    tryDecodeVarInt bytes offset = .ok (v, (encodeVarInt v).length) := by
  have hmod : v % 2 ^ 32 = v := Int.emod_eq_of_lt h0 (by omega)
  obtain ⟨n, rfl⟩ := Int.eq_ofNat_of_zero_le h0
  unfold encodeVarInt at h ⊢
  rw [hmod, Int.toNat_natCast] at h ⊢
  have hn : n < 2 ^ 31 := by exact_mod_cast hv
  have hread : decodeVarFrom bytes offset 5 0 0 = _ :=
    decodeVarFrom_encodeVar (i := 0) (by omega) h
  unfold tryDecodeVarInt
  rw [hread, Nat.zero_add, Nat.zero_add, pow_zero, Nat.mul_one, Nat.mod_eq_of_lt (by omega)]
  congr 2
  exact if_pos hn

/-! ## numbers of fixed width -/

def FitsBytes (width : Nat) (v : Int) : Prop := -2 ^ (8 * width - 1) ≤ v ∧ v < 2 ^ (8 * width - 1)

instance (width : Nat) (v : Int) : Decidable (FitsBytes width v) :=
  inferInstanceAs (Decidable (_ ∧ _))

variable {width : Nat}

theorem toSigned_twosComplement (hw : 0 < width) (h : FitsBytes width v) :
    toSigned (8 * width) (twosComplement width v) = v := by
  obtain ⟨hlow, hhigh⟩ := h
  have hhalf : (2 : Int) ^ (8 * width) = 2 * 2 ^ (8 * width - 1) := by
    rw [← pow_succ']
    congr 1
    omega
  rw [toSigned_twosComplement_bmod hw]
  refine Int.bmod_eq_of_le_mul_two ?_ ?_
  · push_cast
    omega
  · push_cast
    omega

/-- **Little-endian bytes hold the number.** -/
theorem toSigned_intLeBytes (hw : 0 < width) (h : FitsBytes width v) :
    toSigned (8 * width) (leNat (intLeBytes width v)) = v := by
  unfold intLeBytes
  rw [leNat_leBytes (twosComplement_lt width v), toSigned_twosComplement hw h]

/-! ## big integers -/

/-- `BigInteger.toByteArray()` -/
def encodeJavaBigInteger (v : Int) : Bytes :=
  BinaryRowBuilder.minimalBytes (beBytes 16 (twosComplement 16 v))

/-- the sign of the first byte carried through the rest -/
def signedBe (bytes : Bytes) : Int :=
  bytes.foldl (fun v b => v * 256 + b.toNat)
    (if bytes.head?.any fun b => decide (128 ≤ b.toNat) then -1 else 0)

def decodeJavaBigInteger (bytes : Bytes) : Result Int :=
  if bytes.length = 0 ∨ 16 < bytes.length then
    .error (.dataInvalid (s!"Global index key of {bytes.length} byte(s) cannot be a non-compact " ++
      "DECIMAL key of 1 to 16; the index was built before the column's type changed and cannot " ++
      "be used"))
  else .ok (signedBe bytes)

theorem foldl_be (bytes : Bytes) (start : Int) : bytes.foldl (fun (v : Int) b => v * 256 + b.toNat) start
      = start * 256 ^ bytes.length + beNat bytes := by
  induction bytes using List.reverseRecOn with
  | nil => simp [beNat]
  | append_singleton bytes b ih =>
    rw [foldl_append, ih, beNat_append, length_append]
    simp only [foldl_cons, foldl_nil, length_cons, length_nil]
    push_cast
    ring

theorem signedBe_eq (bytes : Bytes) : signedBe bytes = signExtended bytes := by
  cases bytes with
  | nil => rfl
  | cons b bs =>
    rw [signedBe, foldl_be, signExtended, head?_cons, Option.any_some]
    by_cases hb : 128 ≤ b.toNat <;> simp [hb]

theorem leBytes_succ_last (width n : Nat) :
    leBytes (width + 1) n = leBytes width n ++ [UInt8.ofNat (n / 256 ^ width % 256)] := by
  induction width generalizing n with
  | zero =>
    rw [leBytes, leBytes, leBytes, pow_zero, Nat.div_one]
    rfl
  | succ width ih =>
    rw [leBytes, ih, leBytes, cons_append, Nat.div_div_eq_div_mul, ← pow_succ']

theorem signedBe_beBytes (h : FitsBytes 16 v) : signedBe (beBytes 16 (twosComplement 16 v)) = v := by
  set n := twosComplement 16 v with hn
  have hlt : n < 256 ^ 16 := twosComplement_lt 16 v
  have hv : toSigned 128 n = v := toSigned_twosComplement (by decide) h
  have hbe : beNat (beBytes 16 n) = n := by
    unfold beBytes
    rw [beNat_reverse, leNat_leBytes hlt]
  have hlen : (beBytes 16 n).length = 16 := by
    unfold beBytes
    rw [length_reverse, leBytes_length]
  have hhead : (beBytes 16 n).head? = some (UInt8.ofNat (n / 256 ^ 15 % 256)) := by
    unfold beBytes
    rw [leBytes_succ_last, reverse_append]
    rfl
  have hbyte : (UInt8.ofNat (n / 256 ^ 15 % 256)).toNat = n / 256 ^ 15 := by
    rw [UInt8.toNat_ofNat']
    omega
  unfold signedBe
  rw [foldl_be, hbe, hlen, hhead, Option.any_some, hbyte]
  unfold toSigned at hv
  split at hv
  · next hsmall =>
    rw [if_neg (by rw [decide_eq_true_iff]; omega)]
    omega
  · next hlarge =>
    rw [if_pos (by rw [decide_eq_true_iff]; omega)]
    omega

/-- **A big integer is read back.** -/
theorem decodeJavaBigInteger_encode (h : FitsBytes 16 v) :
    decodeJavaBigInteger (encodeJavaBigInteger v) = .ok v := by
  have hvalue := signExtended_minimalBytes (beBytes 16 (twosComplement 16 v))
  rw [← signedBe_eq, ← signedBe_eq] at hvalue
  have hlen := minimalBytes_length_le (beBytes 16 (twosComplement 16 v))
  have hlen16 : (beBytes 16 (twosComplement 16 v)).length = 16 := by
    unfold beBytes
    rw [length_reverse, leBytes_length]
  have hne' : beBytes 16 (twosComplement 16 v) ≠ [] := by
    intro hnil
    rw [hnil] at hlen16
    cases hlen16
  have hpos := length_pos_of_ne_nil (minimalBytes_ne_nil hne')
  unfold decodeJavaBigInteger encodeJavaBigInteger
  rw [if_neg (by omega), hvalue, signedBe_beBytes h]

/-! ## keys of one column -/

/-- exactly `width` bytes: a longer key is as foreign as a shorter one -/
def fixedKeyBytes (width : Nat) (key : Bytes) (typeName : String) : Result Bytes :=
  if key.length = width then .ok key
  else .error (.dataInvalid (s!"Global index key of {key.length} byte(s) cannot be a {typeName} " ++
    s!"key of {width}; the index was built before the column's type changed and cannot be used"))

def variableKeyBody (key : Bytes) (minLen : Nat) (typeName : String) : Result Unit :=
  if key.length < minLen then
    .error (.dataInvalid (s!"Global index key of {key.length} byte(s) cannot be a {typeName} key " ++
      s!"of at least {minLen}; the index was built before the column's type changed and cannot " ++
      "be used"))
  else .ok ()

def fixedKey (width : Nat) (key : Bytes) (typeName : String) : Result Int :=
  (fixedKeyBytes width key typeName).map fun bytes => toSigned (8 * width) (leNat bytes)

def compareFixed (width : Nat) (typeName : String) (a b : Bytes) : Result Ordering := do
  let a ← fixedKey width a typeName
  let b ← fixedKey width b typeName
  return compare a b

def floatKey (width : Nat) (key : Bytes) (typeName : String) : Result (BitVec (8 * width)) :=
  (fixedKeyBytes width key typeName).map fun bytes => BitVec.ofNat (8 * width) (leNat bytes)

def compareFloat (width : Nat) (typeName : String) (a b : Bytes) : Result Ordering := do
  let a ← floatKey width a typeName
  let b ← floatKey width b typeName
  return Ieee.totalCmp a b

/-- milliseconds, then the nanoseconds of the millisecond -/
def compareNonCompactTimestamps (a b : Bytes) : Result Ordering := do
  variableKeyBody a 9 "TIMESTAMP"
  variableKeyBody b 9 "TIMESTAMP"
  let aMillis ← fixedKey 8 (a.take 8) "TIMESTAMP"
  let bMillis ← fixedKey 8 (b.take 8) "TIMESTAMP"
  let aNanos ← tryDecodeVarInt a 8
  let bNanos ← tryDecodeVarInt b 8
  return pairCmp (aMillis, aNanos.1) (bMillis, bNanos.1)

def compareDecimals (a b : Bytes) : Result Ordering := do
  let a ← decodeJavaBigInteger a
  let b ← decodeJavaBigInteger b
  return compare a b

/-- `make_key_comparator` of a scalar type -/
def keyComparator (t : TypeRoot) (a b : Bytes) : Result Ordering :=
  match t with
  | .tinyInt => compareFixed 1 "TINYINT" a b
  | .smallInt => compareFixed 2 "SMALLINT" a b
  | .int | .date | .time _ => compareFixed 4 "INT" a b
  | .bigInt => compareFixed 8 "BIGINT" a b
  | .float => compareFloat 4 "FLOAT" a b
  | .double => compareFloat 8 "DOUBLE" a b
  | .timestamp precision | .localZonedTimestamp precision =>
    if 3 < precision then compareNonCompactTimestamps a b else compareFixed 8 "TIMESTAMP" a b
  | .decimal precision _ =>
    if 18 < precision then compareDecimals a b else compareFixed 8 "DECIMAL" a b
  | _ => .ok (javaBytesCmp a b)

def timestampKey (precision : Nat) (millis nanos : Int) : Bytes :=
  intLeBytes 8 millis ++ if 3 < precision then encodeVarInt nanos else []

def keyTimestampPrecision : TypeRoot → Nat
  | .timestamp precision => precision
  | .localZonedTimestamp precision => precision
  | _ => 3

/-- the precision of the column goes before that of the literal -/
def keyDecimalPrecision (t : TypeRoot) (precision : Nat) : Nat :=
  match t with
  | .decimal precision _ => precision
  | _ => precision

def serializeDatum (datum : Datum) (t : TypeRoot) : Bytes :=
  match datum with
  | .bool v => [if v then 1 else 0]
  | .tinyInt v => intLeBytes 1 v
  | .smallInt v => intLeBytes 2 v
  | .int v | .date v | .time v => intLeBytes 4 v
  | .long v => intLeBytes 8 v
  | .float bits => leBytes 4 bits.toNat
  | .double bits => leBytes 8 bits.toNat
  | .string v => BinaryRowBuilder.textBytes v
  | .timestamp millis nanos | .localZonedTimestamp millis nanos =>
    timestampKey (keyTimestampPrecision t) millis nanos
  | .decimal unscaled precision _ =>
    if keyDecimalPrecision t precision ≤ 18 then intLeBytes 8 unscaled
    else encodeJavaBigInteger unscaled
  | .bytes v => v
  | .variant value metadata => BinaryRowBuilder.encodeVariantBytes value metadata

/-- a value of a scalar column in the range of its type -/
inductive KeyOk : TypeRoot → Datum → Prop
  | boolean {v : Bool} : KeyOk .boolean (.bool v)
  | tinyInt {v : Int} (h : FitsBytes 1 v) : KeyOk .tinyInt (.tinyInt v)
  | smallInt {v : Int} (h : FitsBytes 2 v) : KeyOk .smallInt (.smallInt v)
  | int {v : Int} (h : FitsBytes 4 v) : KeyOk .int (.int v)
  | bigInt {v : Int} (h : FitsBytes 8 v) : KeyOk .bigInt (.long v)
  | float {bits : BitVec 32} : KeyOk .float (.float bits)
  | double {bits : BitVec 64} : KeyOk .double (.double bits)
  | char {n : Nat} {v : Text} : KeyOk (.char n) (.string v)
  | varChar {n : Nat} {v : Text} : KeyOk (.varChar n) (.string v)
  | binary {n : Nat} {v : Bytes} : KeyOk (.binary n) (.bytes v)
  | varBinary {n : Nat} {v : Bytes} : KeyOk (.varBinary n) (.bytes v)
  | date {v : Int} (h : FitsBytes 4 v) : KeyOk .date (.date v)
  | time {n : Nat} {v : Int} (h : FitsBytes 4 v) : KeyOk (.time n) (.time v)
  | decimal {p s q : Nat} {u : Int} (h : FitsBytes 16 u) (hc : p ≤ 18 → FitsBytes 8 u) :
      KeyOk (.decimal p s) (.decimal u q s)
  | timestamp {p : Nat} {m n : Int} (hm : FitsBytes 8 m) (hn : 0 ≤ n ∧ n < 1000000)
      (hc : p ≤ 3 → n = 0) : KeyOk (.timestamp p) (.timestamp m n)
  | localZonedTimestamp {p : Nat} {m n : Int} (hm : FitsBytes 8 m) (hn : 0 ≤ n ∧ n < 1000000)
      (hc : p ≤ 3 → n = 0) : KeyOk (.localZonedTimestamp p) (.localZonedTimestamp m n)

theorem fixedKey_ok (hw : 0 < width) (h : FitsBytes width v)
    (typeName : String) : fixedKey width (intLeBytes width v) typeName = .ok v := by
  unfold fixedKey fixedKeyBytes
  rw [if_pos (intLeBytes_length width v)]
  exact congrArg Except.ok (toSigned_intLeBytes hw h)

variable {v w : Int}

theorem compareFixed_ok (hw : 0 < width) (hv : FitsBytes width v)
    (hw' : FitsBytes width w) (typeName : String) :
    compareFixed width typeName (intLeBytes width v) (intLeBytes width w) = .ok (compare v w) := by
  unfold compareFixed
  rw [fixedKey_ok hw hv, fixedKey_ok hw hw']
  rfl

theorem encodeVarInt_length_pos (v : Int) : 0 < (encodeVarInt v).length :=
  length_pos_of_ne_nil (encodeVar_ne_nil 4 _)

variable {m n m' n' : Int}

theorem compareNonCompactTimestamps_ok (hm : FitsBytes 8 m)
    (hn : 0 ≤ n ∧ n < 1000000) (hm' : FitsBytes 8 m') (hn' : 0 ≤ n' ∧ n' < 1000000) :
    compareNonCompactTimestamps (intLeBytes 8 m ++ encodeVarInt n)
      (intLeBytes 8 m' ++ encodeVarInt n') = .ok (pairCmp (m, n) (m', n')) := by
  have hbody : ∀ v w : Int, variableKeyBody (intLeBytes 8 v ++ encodeVarInt w) 9 "TIMESTAMP" = .ok () := by
    intro v w
    have hlen := encodeVarInt_length_pos w
    unfold variableKeyBody
    rw [length_append, intLeBytes_length]
    exact if_neg (by omega)
  have htake : ∀ v w : Int, (intLeBytes 8 v ++ encodeVarInt w).take 8 = intLeBytes 8 v :=
    fun v w => take_left' (intLeBytes_length 8 v)
  have hnanos : ∀ v w : Int, 0 ≤ w ∧ w < 1000000 →
      tryDecodeVarInt (intLeBytes 8 v ++ encodeVarInt w) 8 = .ok (w, (encodeVarInt w).length) := by
    intro v w h
    have hdrop : (intLeBytes 8 v ++ encodeVarInt w).drop 8 = encodeVarInt w ++ [] := by
      rw [append_nil]
      exact drop_left' (intLeBytes_length 8 v)
    exact tryDecodeVarInt_encode h.1 (by omega) hdrop
  unfold compareNonCompactTimestamps
  rw [hbody, hbody, htake, htake, fixedKey_ok (by decide) hm, fixedKey_ok (by decide) hm',
    hnanos m n hn, hnanos m' n' hn']
  rfl

variable {u v : Int}

theorem compareDecimals_ok (hu : FitsBytes 16 u) (hv : FitsBytes 16 v) :
    compareDecimals (encodeJavaBigInteger u) (encodeJavaBigInteger v) = .ok (compare u v) := by
  unfold compareDecimals
  rw [decodeJavaBigInteger_encode hu, decodeJavaBigInteger_encode hv]
  rfl

theorem compare_text (a b : Text) :
    javaBytesCmp (BinaryRowBuilder.textBytes a) (BinaryRowBuilder.textBytes b) = textCmp a b := by
  have hbytes : ∀ v : Text, (BinaryRowBuilder.textBytes v).map UInt8.toNat = v.flatMap Utf8.encode := by
    intro v
    unfold BinaryRowBuilder.textBytes
    rw [map_flatMap]
    rfl
  have hlex : ∀ as bs : List Nat, List.compareLex compare as bs
      = compare (Compare.toLexList as) (Compare.toLexList bs) := by
    intro as bs
    have h := Compare.lex_map_eq (f := (id : Nat → Nat)) strictMono_id as bs
    rwa [map_id, map_id] at h
  unfold javaBytesCmp textCmp
  rw [hbytes, hbytes, hlex, hlex, Utf8.compare_encodings]

theorem compare_unscaled (u v : Int) (scale : Nat) :
    compare u v = compare (Compare.toLexList [decimalValue u scale])
      (Compare.toLexList [decimalValue v scale]) := by
  rw [Compare.compare_singleton, compare_decimalValue, compare_mul_pos (by positivity)]

theorem compare_millis {m m' n n' : Int} (hn : n = 0) (hn' : n' = 0) :
    compare m m' = compare (Compare.toLexList [(m : ℚ), (n : ℚ)])
      (Compare.toLexList [(m' : ℚ), (n' : ℚ)]) := by
  subst hn hn'
  rw [← pairCmp_eq (m, 0) (m', 0)]
  unfold pairCmp
  rw [compare_eq_iff_eq.mpr (rfl : (0 : Int) = 0)]
  exact Ordering.then_eq.symm

theorem timestampKey_ok {p : Nat} (hm : FitsBytes 8 m)
    (hn : 0 ≤ n ∧ n < 1000000) (hc : p ≤ 3 → n = 0) (hm' : FitsBytes 8 m')
    (hn' : 0 ≤ n' ∧ n' < 1000000) (hc' : p ≤ 3 → n' = 0) :
    (if 3 < p then compareNonCompactTimestamps (timestampKey p m n) (timestampKey p m' n')
      else compareFixed 8 "TIMESTAMP" (timestampKey p m n) (timestampKey p m' n'))
      = .ok (compare (Compare.toLexList [(m : ℚ), (n : ℚ)]) (Compare.toLexList [(m' : ℚ), (n' : ℚ)])) := by
  unfold timestampKey
  split
  · rw [compareNonCompactTimestamps_ok hm hn hm' hn', pairCmp_eq]
  · next hp =>
    rw [append_nil, append_nil, compareFixed_ok (by decide) hm hm',
      compare_millis (hc (by omega)) (hc' (by omega))]

variable {t : TypeRoot}

/-- **Keys of values compare as the values do.** -/
theorem keyComparator_eq (ht : t.isFloat = false) {a b : Datum} (ha : KeyOk t a)
    (hb : KeyOk t b) :
    keyComparator t (serializeDatum a t) (serializeDatum b t) = .ok (compare a.rank b.rank) := by
  cases ha with
  | boolean =>
    cases hb with
    | boolean =>
      have hrank : ∀ v : Bool, Datum.rank (.bool v) = Compare.toLexList
          ((([if v then 1 else 0] : Bytes).map UInt8.toNat).map (Nat.cast : Nat → ℚ)) := by
        intro v
        cases v <;> simp [Datum.rank]
      rw [hrank, hrank]
      exact congrArg Except.ok (lexNat_eq _ _)
  | tinyInt hv | smallInt hv | int hv | bigInt hv | date hv | time hv =>
    cases hb
    next hw => exact (compareFixed_ok (by decide) hv hw _).trans (congrArg _ (compare_int _ _))
  | float | double => cases ht
  | char | varChar =>
    cases hb
    exact congrArg Except.ok ((compare_text _ _).trans (lexNat_eq _ _))
  | binary | varBinary =>
    cases hb
    exact congrArg Except.ok (lexNat_eq _ _)
  | @decimal p s q u hu hcu =>
    cases hb with
    | @decimal _ _ q' v hv hcv =>
      unfold keyComparator serializeDatum keyDecimalPrecision
      dsimp only
      by_cases hp : 18 < p
      · rw [if_pos hp, if_neg (by omega), if_neg (by omega), compareDecimals_ok hu hv, compare_unscaled u v s]
        rfl
      · rw [if_neg hp, if_pos (by omega), if_pos (by omega),
          compareFixed_ok (by decide) (hcu (by omega)) (hcv (by omega)), compare_unscaled u v s]
        rfl
  | timestamp hm hn hc | localZonedTimestamp hm hn hc =>
    cases hb
    next hm' hn' hc' => exact timestampKey_ok hm hn hc hm' hn' hc'

/-! ## literals -/

def Sized : Datum → Prop
  | .tinyInt v => FitsBytes 1 v
  | .smallInt v => FitsBytes 2 v
  | .int v => FitsBytes 4 v
  | .long v => FitsBytes 8 v
  | .date v => FitsBytes 4 v
  | .time v => FitsBytes 4 v
  | .timestamp millis _ => FitsBytes 8 millis
  | .localZonedTimestamp millis _ => FitsBytes 8 millis
  | .decimal unscaled _ _ => FitsBytes 16 unscaled
  | _ => True

instance : DecidablePred Sized := fun d => by
  cases d <;> unfold Sized <;> infer_instance

/-- `validate_datum_matches_type` -/
def datumMatchesType (d : Datum) (t : TypeRoot) : Bool :=
  match d, t with
  | .variant _ _, .variant => true
  | d, t => t.literalKind == some d.kind

/-- an unscaled value at another scale, if that is exact and nothing overflows -/
def rescale (unscaled : Int) (scale upTo : Nat) : Option Int :=
  if unscaled ≠ 0 ∧ scale ≠ upTo then
    if scale < upTo then checkedScale unscaled (upTo - scale)
    else
      (checkedI128 (10 ^ (scale - upTo))).bind fun factor =>
        if unscaled.tmod factor ≠ 0 then none else some (unscaled.tdiv factor)
  else some unscaled

/-- nanoseconds a key of the precision can hold -/
def nanosFit (precision : Nat) (nanos : Int) : Bool :=
  decide (0 ≤ nanos ∧ nanos < 1000000) && (decide (3 < precision) || nanos == 0)

/-- the literal in the layout of the column, `none` where that would change its value -/
def normalizeKeyLiteral (literal : Datum) (t : TypeRoot) : Option Datum :=
  match literal, t with
  | .decimal unscaled _ scale, .decimal precision' scale' =>
    (rescale unscaled scale scale').bind fun unscaled =>
      if precision' ≤ 18 ∧ ¬ FitsBytes 8 unscaled then none
      else some (.decimal unscaled precision' scale')
  | .timestamp millis nanos, .timestamp precision =>
    if nanosFit precision nanos then some (.timestamp millis nanos) else none
  | .localZonedTimestamp millis nanos, .localZonedTimestamp precision =>
    if nanosFit precision nanos then some (.localZonedTimestamp millis nanos) else none
  | literal, _ => some literal

theorem checkedI128_fits (h : checkedI128 v = some w) : FitsBytes 16 w := by
  unfold checkedI128 at h
  split at h
  · next hfits =>
    injection h with h
    exact h ▸ hfits
  · cases h

theorem fits_of_mul {v factor u : Int} (hu : FitsBytes 16 u) (hf : 0 < factor)
    (h : v * factor = u) : FitsBytes 16 v := by
  obtain ⟨hlow, hhigh⟩ := hu
  subst h
  rcases Int.lt_or_le v 0 with hneg | hpos
  · have hle : v * factor ≤ v * 1 := Int.mul_le_mul_of_nonpos_left (by omega) hf
    unfold FitsBytes
    omega
  · have hle : v * 1 ≤ v * factor := Int.mul_le_mul_of_nonneg_left hf hpos
    unfold FitsBytes
    omega

theorem rescale_eq {scale upTo : Nat} (h : rescale u scale upTo = some v)
    (hu : FitsBytes 16 u) : decimalValue v upTo = decimalValue u scale ∧ FitsBytes 16 v := by
  unfold rescale at h
  split at h
  · next hne =>
    split at h
    · next hlt =>
      obtain ⟨factor, hf, hv⟩ := Option.bind_eq_some_iff.mp h
      refine ⟨?_, checkedI128_fits hv⟩
      rw [checkedScale_eq h]
      unfold decimalValue
      obtain ⟨gap, rfl⟩ := Nat.exists_eq_add_of_le hlt.le
      rw [Nat.add_sub_cancel_left, pow_add]
      push_cast
      field_simp
    · next hge =>
      obtain ⟨factor, hf, h⟩ := Option.bind_eq_some_iff.mp h
      obtain rfl := checkedI128_eq hf
      split at h
      · cases h
      · next hmod =>
        cases h
        have hexact : u.tdiv (10 ^ (scale - upTo)) * 10 ^ (scale - upTo) = u :=
          Int.tdiv_mul_cancel (Int.dvd_of_tmod_eq_zero (not_not.mp hmod))
        refine ⟨?_, fits_of_mul hu (by positivity) hexact⟩
        unfold decimalValue
        obtain ⟨gap, rfl⟩ := Nat.exists_eq_add_of_le (Nat.le_of_not_lt hge)
        rw [Nat.add_sub_cancel_left] at hexact ⊢
        rw [← hexact, Int.mul_tdiv_cancel _ (by positivity), pow_add]
        push_cast
        field_simp
  · next heq =>
    cases h
    refine ⟨?_, hu⟩
    rcases not_and_or.mp heq with h0 | hscale
    · rw [not_not.mp h0]
      unfold decimalValue
      rw [Int.cast_zero, zero_div, zero_div]
    · rw [not_not.mp hscale]

theorem nanosFit_iff {precision : Nat} {nanos : Int} (h : nanosFit precision nanos = true) :
    (0 ≤ nanos ∧ nanos < 1000000) ∧ (precision ≤ 3 → nanos = 0) := by
  unfold nanosFit at h
  rw [Bool.and_eq_true, decide_eq_true_iff, Bool.or_eq_true, decide_eq_true_iff, beq_iff_eq] at h
  refine ⟨h.1, fun hp => ?_⟩
  rcases h.2 with h | h
  · omega
  · exact h

/-- the types of the columns of an index on several columns -/
def supportedType : TypeRoot → Bool
  | .char _ | .varChar _ | .binary _ | .varBinary _ => true
  | .boolean | .tinyInt | .smallInt | .int | .bigInt | .float | .double | .date => true
  | .time _ | .decimal _ _ | .timestamp _ | .localZonedTimestamp _ => true
  | _ => false

/-- **A normalized literal is the literal**, as a value of the column. -/
theorem normalizeKeyLiteral_eq {l l' : Datum} (ht : supportedType t = true)
    (hl : datumMatchesType l t = true) (hs : Sized l) (h : normalizeKeyLiteral l t = some l') :
    KeyOk t l' ∧ l'.rank = l.rank ∧ l'.kind = l.kind := by
  cases t <;> first | exact absurd ht Bool.false_ne_true | skip
  case decimal p s =>
    cases l <;> first | exact absurd hl Bool.false_ne_true | skip
    case decimal u q s' =>
      obtain ⟨v, hv, h⟩ := Option.bind_eq_some_iff.mp h
      obtain ⟨hvalue, hfits⟩ := rescale_eq hv hs
      split at h
      · cases h
      · next hcompact =>
        cases h
        refine ⟨.decimal hfits fun hp => ?_, ?_, rfl⟩
        · exact not_not.mp fun hno => hcompact ⟨hp, hno⟩
        · exact congrArg (fun q => Compare.toLexList [q]) hvalue
  case timestamp p | localZonedTimestamp p =>
    cases l <;> first | exact absurd hl Bool.false_ne_true | skip
    unfold normalizeKeyLiteral at h
    dsimp only at h
    split at h
    · next hfit =>
      cases h
      obtain ⟨hn, hc⟩ := nanosFit_iff hfit
      refine ⟨?_, rfl, rfl⟩
      first | exact .timestamp hs hn hc | exact .localZonedTimestamp hs hn hc
    · cases h
  all_goals
    cases l <;> first | exact absurd hl Bool.false_ne_true | skip
    obtain rfl := Option.some.inj h
    refine ⟨?_, rfl, rfl⟩
    constructor
    try exact hs

end Paimon.BTree
