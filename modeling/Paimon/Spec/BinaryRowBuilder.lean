import Paimon.Spec.BinaryRow

/-!
# Writing rows in binary form

`BinaryRowBuilder` of `spec/binary_row.rs`: the fixed part, null bits first, is allocated at once;
what does not fit into the eight bytes of a field is appended behind it.

* `patch`: bytes written over a part of the buffer;
* `writeDatum`: a literal at a column type;
* `fromDatums`: a row of literals, `None` as NULL;
* `toSerializedBytes_read`: a serialized row is read back as it is.
-/

namespace Paimon

open List

/-! ## numbers as bytes -/

/-- the low `width` bytes, least significant first -/
def leBytes : Nat → Nat → Bytes
  | 0, _ => []
  | width + 1, n => UInt8.ofNat (n % 256) :: leBytes width (n / 256)

def beBytes (width n : Nat) : Bytes := (leBytes width n).reverse

def twosComplement (width : Nat) (v : Int) : Nat := (v % 2 ^ (8 * width)).toNat

def intLeBytes (width : Nat) (v : Int) : Bytes := leBytes width (twosComplement width v)

theorem leBytes_length (width n : Nat) : (leBytes width n).length = width := by
  induction width generalizing n with
  | zero => rfl
  | succ width ih => rw [leBytes, length_cons, ih]

theorem leNat_leBytes {width n : Nat} (h : n < 256 ^ width) : leNat (leBytes width n) = n := by
  induction width generalizing n with
  | zero =>
    rw [pow_zero, Nat.lt_one_iff] at h
    rw [h]
    rfl
  | succ width ih =>
    have hdiv : n / 256 < 256 ^ width := by
      rw [pow_succ, Nat.mul_comm] at h
      exact Nat.div_lt_of_lt_mul h
    rw [leBytes, leNat, ih hdiv, UInt8.toNat_ofNat', Nat.mod_mod_of_dvd _ (dvd_refl 256)]
    omega

theorem beNat_append (bs : Bytes) (b : UInt8) : beNat (bs ++ [b]) = beNat bs * 256 + b.toNat := by
  unfold beNat
  rw [foldl_append]
  rfl

theorem beNat_reverse (bs : Bytes) : beNat bs.reverse = leNat bs := by
  induction bs with
  | nil => rfl
  | cons b bs ih =>
    rw [reverse_cons, beNat_append, ih, leNat]
    omega

theorem intLeBytes_length (width : Nat) (v : Int) : (intLeBytes width v).length = width := leBytes_length width _

theorem two_pow_eq (width : Nat) : 2 ^ (8 * width) = 256 ^ width := by rw [pow_mul]; rfl

theorem twosComplement_lt (width : Nat) (v : Int) : twosComplement width v < 256 ^ width := by
  unfold twosComplement
  have hpos : (0 : Int) < 2 ^ (8 * width) := by positivity
  have hlt := Int.emod_lt_of_pos v hpos
  rw [← two_pow_eq]
  zify
  rw [Int.toNat_of_nonneg (Int.emod_nonneg v hpos.ne')]
  exact hlt

theorem twosComplement_bmod (width : Nat) (v : Int) :
    twosComplement width (v.bmod (2 ^ (8 * width))) = twosComplement width v := by
  unfold twosComplement
  have h : v.bmod (2 ^ (8 * width)) % ((2 ^ (8 * width) : Nat) : Int) = v % ((2 ^ (8 * width) : Nat) : Int) :=
    Int.bmod_emod
  push_cast at h
  rw [h]

theorem twosComplement_cast (width : Nat) (v : Int) : (twosComplement width v : Int) = v % 2 ^ (8 * width) := by
  have hpos : (0 : Int) < 2 ^ (8 * width) := by positivity
  exact Int.toNat_of_nonneg (Int.emod_nonneg v hpos.ne')

theorem toSigned_twosComplement_bmod {width : Nat} (hw : 0 < width) (v : Int) :
    toSigned (8 * width) (twosComplement width v) = v.bmod (2 ^ (8 * width)) := by
  have hhalf : (2 : Int) ^ (8 * width) = 2 * 2 ^ (8 * width - 1) := by
    rw [← pow_succ', Nat.sub_add_cancel (by omega)]
  have hcast := twosComplement_cast width v
  have hiff : twosComplement width v < 2 ^ (8 * width - 1) ↔ v % 2 ^ (8 * width) < 2 ^ (8 * width - 1) := by
    rw [← hcast]
    norm_cast
  rw [Int.bmod_def]
  unfold toSigned
  push_cast
  rw [hcast]
  have hmid : ((2 : Int) ^ (8 * width) + 1) / 2 = 2 ^ (8 * width - 1) := by omega
  rw [hmid]
  by_cases h : twosComplement width v < 2 ^ (8 * width - 1)
  · rw [if_pos h, if_pos (hiff.mp h)]
  · rw [if_neg h, if_neg (hiff.not.mp h)]

theorem leNat_append (bs cs : Bytes) : leNat (bs ++ cs) = leNat bs + 256 ^ bs.length * leNat cs := by
  induction bs with
  | nil => simp [leNat]
  | cons b bs ih =>
    rw [cons_append, leNat, leNat, ih, length_cons, pow_succ]
    ring

theorem leNat_lt (bs : Bytes) : leNat bs < 256 ^ bs.length := by
  induction bs with
  | nil => exact Nat.one_pos
  | cons b bs ih =>
    rw [leNat, length_cons, pow_succ]
    have := b.toNat_lt
    omega

/-! ## the builder -/

def patch (data : Bytes) (offset : Nat) (value : Bytes) : Bytes :=
  data.take offset ++ value ++ data.drop (offset + value.length)

structure BinaryRowBuilder where
  arity : Nat
  data : Bytes

namespace BinaryRowBuilder

def new (arity : Nat) : BinaryRowBuilder := ⟨arity, List.replicate (calFixPartSizeInBytes arity) 0⟩

def fieldOffset (b : BinaryRowBuilder) (pos : Nat) : Nat := calBitSetWidthInBytes b.arity + pos * 8

def writeField (b : BinaryRowBuilder) (pos : Nat) (value : Bytes) : BinaryRowBuilder :=
  { b with data := patch b.data (b.fieldOffset pos) value }

def setNullAt (b : BinaryRowBuilder) (pos : Nat) : BinaryRowBuilder :=
  let byteIndex := (pos + 8) / 8
  let byte := b.data.getD byteIndex 0 ||| UInt8.ofNat (2 ^ ((pos + 8) % 8))
  writeField { b with data := patch b.data byteIndex [byte] } pos (List.replicate 8 0)

/-- at most seven bytes, in the field itself -/
def writeBinaryInline (b : BinaryRowBuilder) (pos : Nat) (value : Bytes) : BinaryRowBuilder :=
  b.writeField pos (value ++ List.replicate (7 - value.length) 0 ++
    [UInt8.ofNat (0x80 ||| value.length)])

/-- `reserved` bytes behind the fixed part, zeroes after the value; offset and length in the field -/
def writeVar (b : BinaryRowBuilder) (pos : Nat) (value : Bytes) (reserved low : Nat) :
    BinaryRowBuilder :=
  let varOffset := b.data.length
  writeField { b with data := b.data ++ value ++ List.replicate (reserved - value.length) 0 } pos
    (leBytes 8 (varOffset * 2 ^ 32 + low))

def writeBinary (b : BinaryRowBuilder) (pos : Nat) (value : Bytes) : BinaryRowBuilder :=
  b.writeVar pos value ((value.length + 7) / 8 * 8) value.length

def writeBytes (b : BinaryRowBuilder) (pos : Nat) (value : Bytes) : BinaryRowBuilder :=
  if value.length ≤ 7 then b.writeBinaryInline pos value else b.writeBinary pos value

/-- big-endian two's complement without the leading bytes that only repeat the sign; at least one
byte is left -/
def minimalBytes : Bytes → Bytes
  | b :: next :: rest =>
    if (b == 0 && next.toNat < 128) || (b == 0xFF && 128 ≤ next.toNat) then
      minimalBytes (next :: rest)
    else b :: next :: rest
  | bs => bs

def writeDecimalVarLen (b : BinaryRowBuilder) (pos : Nat) (unscaled : Int) : BinaryRowBuilder :=
  let minimal := minimalBytes (beBytes 16 (twosComplement 16 unscaled))
  b.writeVar pos minimal 16 minimal.length

/-- more than milliseconds: the milliseconds behind the fixed part, the rest in the field -/
def writeTimestampNonCompact (b : BinaryRowBuilder) (pos : Nat) (millis nanos : Int) :
    BinaryRowBuilder :=
  b.writeVar pos (intLeBytes 8 millis) 8 (twosComplement 4 nanos)

def writeTimestamp (b : BinaryRowBuilder) (pos : Nat) (precision : Nat) (millis nanos : Int) :
    BinaryRowBuilder :=
  if precision ≤ 3 then b.writeField pos (intLeBytes 8 millis)
  else b.writeTimestampNonCompact pos millis nanos

/-- `encode_variant_bytes` of a valid payload -/
def encodeVariantBytes (value metadata : Bytes) : Bytes :=
  leBytes 4 value.length ++ value ++ metadata

def timestampPrecision : TypeRoot → Nat
  | .timestamp precision => precision
  | _ => 3

def localZonedPrecision : TypeRoot → Nat
  | .localZonedTimestamp precision => precision
  | _ => 3

def textBytes (v : Text) : Bytes := v.flatMap String.utf8EncodeChar

/-- a DECIMAL goes by the precision of the literal, a timestamp by that of the column -/
def writeDatum (b : BinaryRowBuilder) (pos : Nat) (datum : Datum) (t : TypeRoot) : BinaryRowBuilder :=
  match datum with
  | .bool v => b.writeField pos [if v then 1 else 0]
  | .tinyInt v => b.writeField pos (intLeBytes 1 v)
  | .smallInt v => b.writeField pos (intLeBytes 2 v)
  | .int v => b.writeField pos (intLeBytes 4 v)
  | .date v => b.writeField pos (intLeBytes 4 v)
  | .time v => b.writeField pos (intLeBytes 4 v)
  | .long v => b.writeField pos (intLeBytes 8 v)
  | .float bits => b.writeField pos (leBytes 4 bits.toNat)
  | .double bits => b.writeField pos (leBytes 8 bits.toNat)
  | .timestamp millis nanos => b.writeTimestamp pos (timestampPrecision t) millis nanos
  | .localZonedTimestamp millis nanos => b.writeTimestamp pos (localZonedPrecision t) millis nanos
  | .decimal unscaled precision _ =>
    if precision ≤ 18 then b.writeField pos (intLeBytes 8 unscaled)
    else b.writeDecimalVarLen pos unscaled
  | .string v => b.writeBytes pos (textBytes v)
  | .bytes v => b.writeBytes pos v
  | .variant value metadata => b.writeBinary pos (encodeVariantBytes value metadata)

def writeOption (b : BinaryRowBuilder) (pos : Nat) (datum : Option Datum) (t : TypeRoot) :
    BinaryRowBuilder :=
  match datum with
  | some d => b.writeDatum pos d t
  | none => b.setNullAt pos

def build (b : BinaryRowBuilder) : BinaryRow := ⟨b.arity, b.data⟩

def writeAll (b : BinaryRowBuilder) (pos : Nat) : List (Option Datum × TypeRoot) → BinaryRowBuilder
  | [] => b
  | (datum, t) :: rest => (b.writeOption pos datum t).writeAll (pos + 1) rest

end BinaryRowBuilder

namespace BinaryRow

def fromDatums (datums : List (Option Datum × TypeRoot)) : BinaryRow :=
  ((BinaryRowBuilder.new datums.length).writeAll 0 datums).build

/-- the arity in four bytes, big-endian, then the data -/
def toSerializedBytes (row : BinaryRow) : Bytes := beBytes 4 row.arity ++ row.data

end BinaryRow

/-! ## shortest two's complement -/

theorem minimalBytes_keeps {α : Type*} (f : Bytes → α)
    (h : ∀ b next rest, ((b == 0 && next.toNat < 128) || (b == 0xFF && 128 ≤ next.toNat)) = true →
      f (next :: rest) = f (b :: next :: rest)) (bs : Bytes) : f (BinaryRowBuilder.minimalBytes bs) = f bs := by
  fun_induction BinaryRowBuilder.minimalBytes bs with
  | case1 b next rest hb ih => rw [ih, h b next rest hb]
  | case2 | case3 => rfl

theorem minimalBytes_length_le (bs : Bytes) : (BinaryRowBuilder.minimalBytes bs).length ≤ bs.length := by
  fun_induction BinaryRowBuilder.minimalBytes bs with
  | case1 b next rest _ ih =>
    rw [length_cons]
    omega
  | case2 | case3 => exact le_refl _

theorem minimalBytes_ne_nil {bs : Bytes} (h : bs ≠ []) : BinaryRowBuilder.minimalBytes bs ≠ [] := by
  fun_induction BinaryRowBuilder.minimalBytes bs with
  | case1 b next rest _ ih => exact ih (cons_ne_nil _ _)
  | case2 => exact cons_ne_nil _ _
  | case3 => exact h

/-- **A serialized row is read back.** -/
theorem toSerializedBytes_read {row : BinaryRow} (harity : row.arity < 2 ^ 31)
    (hlen : calFixPartSizeInBytes row.arity ≤ row.data.length) :
    fromSerializedBytes row.toSerializedBytes = some row := by
  have hbe : (beBytes 4 row.arity).length = 4 := by
    rw [beBytes, length_reverse, leBytes_length]
  have hslice : readSlice row.toSerializedBytes 0 4 = some (beBytes 4 row.arity) := by
    unfold readSlice BinaryRow.toSerializedBytes
    rw [if_pos (by rw [length_append, hbe]; omega), drop_zero, take_left' hbe]
  have hvalue : beNat (beBytes 4 row.arity) = row.arity := by
    rw [beBytes, beNat_reverse, leNat_leBytes]
    omega
  have hsigned : toSigned 32 row.arity = row.arity := if_pos harity
  have hdrop : row.toSerializedBytes.drop 4 = row.data := by
    unfold BinaryRow.toSerializedBytes
    rw [drop_left' hbe]
  unfold fromSerializedBytes
  rw [hslice]
  show (if toSigned 32 (beNat (beBytes 4 row.arity)) < 0 then none else _) = _
  rw [hvalue, hsigned, if_neg (by omega), hdrop, Int.toNat_natCast, if_neg (by omega)]

end Paimon
