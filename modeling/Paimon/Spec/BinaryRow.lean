import Paimon.Spec.Predicate

/-!
# Binary rows

The reader of `spec/binary_row.rs`.  A serialized row is its arity in four big-endian bytes and a
body: header and null bits, eight bytes for each field, a variable part.  Reads are `none` where the
source returns an error: every modelled caller only asks whether a field can be read.

* `fromSerializedBytes`: the arity, and a body that holds at least the fixed part;
* `getDatum`: one field at a column type, `some none` for NULL;
* `getDatum_kind`: a field that is read is of the kind of its type.

The payload check of VARIANT values is a parameter (`variantOk`).
-/

namespace Paimon

/-! ## bytes as numbers -/

def leNat : Bytes → Nat
  | [] => 0
  | b :: bs => b.toNat + 256 * leNat bs

def toSigned (bits n : Nat) : Int := if n < 2 ^ (bits - 1) then n else (n : Int) - 2 ^ bits

/-- `slice.get(offset..offset + len)` -/
def readSlice (data : Bytes) (offset len : Nat) : Option Bytes :=
  if offset + len ≤ data.length then some ((data.drop offset).take len) else none

/-! ## rows -/

structure BinaryRow where
  arity : Nat
  data : Bytes
deriving DecidableEq, Repr

def calBitSetWidthInBytes (arity : Nat) : Nat := (arity + 63 + 8) / 64 * 8

def calFixPartSizeInBytes (arity : Nat) : Nat := calBitSetWidthInBytes arity + 8 * arity

def fromSerializedBytes (data : Bytes) : Option BinaryRow := do
  let arity := toSigned 32 (beNat (← readSlice data 0 4))
  if arity < 0 then none
  else
    let body := data.drop 4
    if body.length < calFixPartSizeInBytes arity.toNat then none else some ⟨arity.toNat, body⟩

namespace BinaryRow

/-- a bitmap that is cut off has no NULL -/
def isNullAt (row : BinaryRow) (pos : Nat) : Bool :=
  match row.data[(pos + 8) / 8]? with
  | some byte => byte.toNat.testBit ((pos + 8) % 8)
  | none => false

def fieldOffset (row : BinaryRow) (pos : Nat) : Nat := calBitSetWidthInBytes row.arity + pos * 8

def readNat (row : BinaryRow) (offset width : Nat) : Option Nat :=
  (readSlice row.data offset width).map leNat

def getSigned (row : BinaryRow) (pos width : Nat) : Option Int :=
  (row.readNat (row.fieldOffset pos) width).map (toSigned (8 * width))

def getBoolean (row : BinaryRow) (pos : Nat) : Option Bool :=
  (row.readNat (row.fieldOffset pos) 1).map (· != 0)

def getByte (row : BinaryRow) (pos : Nat) : Option Int := row.getSigned pos 1
def getShort (row : BinaryRow) (pos : Nat) : Option Int := row.getSigned pos 2
def getInt (row : BinaryRow) (pos : Nat) : Option Int := row.getSigned pos 4
def getLong (row : BinaryRow) (pos : Nat) : Option Int := row.getSigned pos 8

def getFloat (row : BinaryRow) (pos : Nat) : Option (BitVec 32) :=
  (row.readNat (row.fieldOffset pos) 4).map (BitVec.ofNat 32)

def getDouble (row : BinaryRow) (pos : Nat) : Option (BitVec 64) :=
  (row.readNat (row.fieldOffset pos) 8).map (BitVec.ofNat 64)

/-- the top bit says that the value, of at most seven bytes, is in the field itself -/
def resolveVarLengthField (row : BinaryRow) (pos : Nat) : Option (Nat × Nat) := do
  let raw ← row.readNat (row.fieldOffset pos) 8
  let (start, len) :=
    if raw < 2 ^ 63 then (raw / 2 ^ 32, raw % 2 ^ 32)
    else (row.fieldOffset pos, raw / 2 ^ 56 % 2 ^ 7)
  if start + len ≤ row.data.length then some (start, len) else none

def getBinary (row : BinaryRow) (pos : Nat) : Option Bytes := do
  let (start, len) ← row.resolveVarLengthField pos
  return (row.data.drop start).take len

def getString (row : BinaryRow) (pos : Nat) : Option Text := do
  let bytes ← row.getBinary pos
  let text ← ByteArray.utf8Decode? ⟨⟨bytes⟩⟩
  return text.toList

/-- a big-endian two's complement number; shifting an `i128` drops what does not fit -/
def decimalOfBytes (bytes : Bytes) : Option Int :=
  match bytes with
  | [] => none
  | first :: _ =>
    let start : Int := if 128 ≤ first.toNat then -1 else 0
    some (bytes.foldl (fun v b => Int.bmod (v * 256 + b.toNat) (2 ^ 128)) start)

def getDecimalUnscaled (row : BinaryRow) (pos precision : Nat) : Option Int :=
  if precision ≤ 18 then row.getLong pos else (row.getBinary pos).bind decimalOfBytes

def getTimestampRaw (row : BinaryRow) (pos precision : Nat) : Option (Int × Int) :=
  if precision ≤ 3 then (row.getLong pos).map fun millis => (millis, 0)
  else do
    let raw ← row.readNat (row.fieldOffset pos) 8
    let millis ← row.readNat (raw / 2 ^ 32) 8
    return (toSigned 64 millis, toSigned 32 (raw % 2 ^ 32))

end BinaryRow

/-! ## fields at a column type -/

/-- the length of the value, the value, the metadata -/
def decodeVariantBytes (variantOk : Bytes → Bytes → Bool) (bytes : Bytes) : Option (Bytes × Bytes) := do
  let len := leNat (← readSlice bytes 0 4)
  if bytes.length < 4 + len then none
  else
    let value := (bytes.drop 4).take len
    let metadata := bytes.drop (4 + len)
    if variantOk value metadata then some (value, metadata) else none

def BinaryRow.getValue (variantOk : Bytes → Bytes → Bool) (row : BinaryRow) (pos : Nat) :
    TypeRoot → Option Datum
  | .boolean => (row.getBoolean pos).map .bool
  | .tinyInt => (row.getByte pos).map .tinyInt
  | .smallInt => (row.getShort pos).map .smallInt
  | .int => (row.getInt pos).map .int
  | .bigInt => (row.getLong pos).map .long
  | .float => (row.getFloat pos).map .float
  | .double => (row.getDouble pos).map .double
  | .date => (row.getInt pos).map .date
  | .time _ => (row.getInt pos).map .time
  | .varChar _ => (row.getString pos).map .string
  | .char _ => (row.getString pos).map .string
  | .binary _ => (row.getBinary pos).map .bytes
  | .varBinary _ => (row.getBinary pos).map .bytes
  | .variant => ((row.getBinary pos).bind (decodeVariantBytes variantOk)).map fun p =>
      .variant p.1 p.2
  | .decimal precision scale =>
    (row.getDecimalUnscaled pos precision).map fun u => .decimal u precision scale
  | .timestamp precision => (row.getTimestampRaw pos precision).map fun p => .timestamp p.1 p.2
  | .localZonedTimestamp precision =>
    (row.getTimestampRaw pos precision).map fun p => .localZonedTimestamp p.1 p.2
  | _ => none

def BinaryRow.getDatum (variantOk : Bytes → Bytes → Bool) (row : BinaryRow) (pos : Nat)
    (t : TypeRoot) : Option (Option Datum) :=
  if row.isNullAt pos then some none else (row.getValue variantOk pos t).map some

/-- the kind of the values a row holds at a type; VARIANT has one too -/
def TypeRoot.rowKind : TypeRoot → Option DatumKind
  | .variant => some .variant
  | .blob => none
  | t => t.literalKind

/-- **A field that is read is of the kind of its type.** -/
theorem getDatum_kind {variantOk : Bytes → Bytes → Bool} {row : BinaryRow} {pos : Nat}
    {t : TypeRoot} {d : Datum} (h : row.getDatum variantOk pos t = some (some d)) :
    t.rowKind = some d.kind := by
  unfold BinaryRow.getDatum at h
  split at h
  · cases h
  · obtain ⟨v, hv, heq⟩ := Option.map_eq_some_iff.mp h
    cases heq
    cases t
    case map => cases hv
    case multiset => cases hv
    case row => cases hv
    case vector => cases hv
    case array => cases hv
    case blob => cases hv
    all_goals
      obtain ⟨_, _, rfl⟩ := Option.map_eq_some_iff.mp hv
      rfl

end Paimon
