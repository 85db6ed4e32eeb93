import Paimon.Spec.BinaryRowBuilder

/-!
# Rows are read as they were written

The builder and the reader of `spec/binary_row.rs` meet at what a field takes up in a row (`Slot`): nothing but
its null bit, bytes in its eight bytes, or bytes behind the fixed part with their offset in the field.

* `slot`: what a nullable literal takes up;
* `Holds`: a row has a slot at a field;
* `writeAll_holds`: every field of a written row has its slot: a write leaves the other fields alone;
* `stored`: the literal a row gives back for one that was written;
* `fromDatums_getDatum`: so every field of a row of less than two gigabytes gives back its literal.
-/

namespace Paimon

open List

/-! ## reading a buffer that was written over -/

section
variable {data data' value bs : Bytes} {offset len : Nat}

theorem length_patch (h : offset + value.length ≤ data.length) :
    (patch data offset value).length = data.length := by
  unfold patch
  simp only [length_append, length_take, length_drop]
  omega

theorem getElem?_patch (h : offset + value.length ≤ data.length) (i : Nat) : (patch data offset value)[i]? =
      if offset ≤ i ∧ i < offset + value.length then value[i - offset]? else data[i]? := by
  unfold patch
  have htake : (data.take offset).length = offset := by
    rw [length_take]
    omega
  rw [append_assoc, getElem?_append, htake, getElem?_append, getElem?_take, getElem?_drop]
  split
  · next hlt => rw [if_neg (by omega)]
  · next hge =>
    split
    · next hin => rw [if_pos (by omega)]
    · next hout =>
      rw [if_neg (by omega)]
      congr 1
      omega

theorem readSlice_eq_some : readSlice data offset len = some bs ↔
    offset + len ≤ data.length ∧ bs.length = len ∧ ∀ k < len, data[offset + k]? = bs[k]? := by
  unfold readSlice
  constructor
  · intro h
    split at h
    · next hle =>
      obtain rfl := Option.some.inj h
      refine ⟨hle, ?_, fun k hk => ?_⟩
      · rw [length_take, length_drop]
        omega
      · rw [getElem?_take, if_pos hk, getElem?_drop]
    · cases h
  · rintro ⟨hle, hlen, hget⟩
    rw [if_pos hle, Option.some_inj]
    refine ext_getElem? fun k => ?_
    rw [getElem?_take]
    split
    · next hk => rw [getElem?_drop, hget k hk]
    · next hk => rw [getElem?_eq_none (by omega)]

theorem readSlice_patch_self (h : offset + value.length ≤ data.length) :
    readSlice (patch data offset value) offset value.length = some value := by
  refine readSlice_eq_some.mpr ⟨by rwa [length_patch h], rfl, fun k hk => ?_⟩
  rw [getElem?_patch h, if_pos (by omega), Nat.add_sub_cancel_left]

theorem readSlice_congr (h : readSlice data offset len = some bs) (hlen : data.length ≤ data'.length)
    (hget : ∀ k, offset ≤ k → k < offset + len → data'[k]? = data[k]?) : readSlice data' offset len = some bs := by
  obtain ⟨hle, hbs, hdata⟩ := readSlice_eq_some.mp h
  refine readSlice_eq_some.mpr ⟨by omega, hbs, fun k hk => ?_⟩
  rw [hget (offset + k) (by omega) (by omega), hdata k hk]

theorem readSlice_append {front : Bytes} (h : readSlice data offset len = some (front ++ bs)) :
    readSlice data offset front.length = some front := by
  obtain ⟨hle, hlen, hget⟩ := readSlice_eq_some.mp h
  rw [length_append] at hlen
  refine readSlice_eq_some.mpr ⟨by omega, rfl, fun k hk => ?_⟩
  rw [hget k (by omega), getElem?_append_left hk]

theorem take_drop_of_readSlice (h : readSlice data offset len = some bs) :
    offset + len ≤ data.length ∧ (data.drop offset).take len = bs := by
  unfold readSlice at h
  split at h
  · next hle => exact ⟨hle, Option.some.inj h⟩
  · cases h

end

/-! ## slots -/

inductive Slot where
  | null
  | inField (value : Bytes)
  | behind (value : Bytes) (reserved low : Nat)
deriving DecidableEq

namespace Slot

def size : Slot → Nat
  | .null => 0
  | .inField _ => 0
  | .behind _ reserved _ => reserved

def Fits : Slot → Prop
  | .null => True
  | .inField value => value.length ≤ 8
  | .behind value reserved _ => value.length ≤ reserved

def ofBytes (value : Bytes) : Slot :=
  if value.length ≤ 7 then
    .inField (value ++ List.replicate (7 - value.length) 0 ++ [UInt8.ofNat (0x80 ||| value.length)])
  else .behind value ((value.length + 7) / 8 * 8) value.length

def ofDecimal (unscaled : Int) : Slot :=
  let minimal := BinaryRowBuilder.minimalBytes (beBytes 16 (twosComplement 16 unscaled))
  .behind minimal 16 minimal.length

def ofTimestamp (precision : Nat) (millis nanos : Int) : Slot :=
  if precision ≤ 3 then .inField (intLeBytes 8 millis)
  else .behind (intLeBytes 8 millis) 8 (twosComplement 4 nanos)

def ofDatum (datum : Datum) (t : TypeRoot) : Slot :=
  match datum with
  | .bool v => .inField [if v then 1 else 0]
  | .tinyInt v => .inField (intLeBytes 1 v)
  | .smallInt v => .inField (intLeBytes 2 v)
  | .int v => .inField (intLeBytes 4 v)
  | .date v => .inField (intLeBytes 4 v)
  | .time v => .inField (intLeBytes 4 v)
  | .long v => .inField (intLeBytes 8 v)
  | .float bits => .inField (leBytes 4 bits.toNat)
  | .double bits => .inField (leBytes 8 bits.toNat)
  | .timestamp millis nanos => ofTimestamp (BinaryRowBuilder.timestampPrecision t) millis nanos
  | .localZonedTimestamp millis nanos => ofTimestamp (BinaryRowBuilder.localZonedPrecision t) millis nanos
  | .decimal unscaled precision _ =>
    if precision ≤ 18 then .inField (intLeBytes 8 unscaled) else ofDecimal unscaled
  | .string v => ofBytes (BinaryRowBuilder.textBytes v)
  | .bytes v => ofBytes v
  | .variant value metadata =>
    let bytes := BinaryRowBuilder.encodeVariantBytes value metadata
    .behind bytes ((bytes.length + 7) / 8 * 8) bytes.length

end Slot

def slot (datum : Option Datum) (t : TypeRoot) : Slot :=
  match datum with
  | some d => .ofDatum d t
  | none => .null

variable {value : Bytes} {width : Nat}

namespace Slot

theorem fits_ofBytes (value : Bytes) : (ofBytes value).Fits := by
  unfold ofBytes
  split
  · next h =>
    show (_ ++ _ ++ [_] : Bytes).length ≤ 8
    simp only [length_append, length_replicate, length_singleton]
    omega
  · show value.length ≤ _
    omega

theorem fits_ofDecimal (unscaled : Int) : (ofDecimal unscaled).Fits := by
  refine (minimalBytes_length_le _).trans ?_
  rw [beBytes, length_reverse, leBytes_length]

theorem fits_inField (h : value.length = width) (hw : width ≤ 8) :
    (inField value).Fits := h.trans_le hw

theorem fits_ofTimestamp (precision : Nat) (millis nanos : Int) : (ofTimestamp precision millis nanos).Fits := by
  unfold ofTimestamp
  split
  · exact fits_inField (intLeBytes_length 8 millis) (le_refl 8)
  · exact (intLeBytes_length 8 millis).le

theorem fits_ofDatum (d : Datum) (t : TypeRoot) : (ofDatum d t).Fits := by
  cases d with
  | bool v => exact fits_inField (length_singleton) (by decide)
  | tinyInt v => exact fits_inField (intLeBytes_length 1 v) (by decide)
  | smallInt v => exact fits_inField (intLeBytes_length 2 v) (by decide)
  | int v | date v | time v => exact fits_inField (intLeBytes_length 4 v) (by decide)
  | long v => exact fits_inField (intLeBytes_length 8 v) (by decide)
  | float bits => exact fits_inField (leBytes_length 4 _) (by decide)
  | double bits => exact fits_inField (leBytes_length 8 _) (by decide)
  | timestamp millis nanos | localZonedTimestamp millis nanos => exact fits_ofTimestamp _ millis nanos
  | decimal unscaled precision scale =>
    unfold ofDatum
    dsimp only
    split
    · exact fits_inField (intLeBytes_length 8 unscaled) (by decide)
    · exact fits_ofDecimal unscaled
  | string v => exact fits_ofBytes _
  | bytes v => exact fits_ofBytes v
  | variant value metadata =>
    show List.length _ ≤ _
    omega

end Slot

theorem fits_slot (datum : Option Datum) (t : TypeRoot) : (slot datum t).Fits := by
  cases datum with
  | none => exact trivial
  | some d => exact Slot.fits_ofDatum d t

/-! ## writing slots -/

namespace BinaryRowBuilder

def writeSlot (b : BinaryRowBuilder) (pos : Nat) : Slot → BinaryRowBuilder
  | .null => b.setNullAt pos
  | .inField value => b.writeField pos value
  | .behind value reserved low => b.writeVar pos value reserved low

theorem writeOption_eq (b : BinaryRowBuilder) (pos : Nat) (datum : Option Datum) (t : TypeRoot) :
    b.writeOption pos datum t = b.writeSlot pos (slot datum t) := by
  have hbytes : ∀ value, b.writeBytes pos value = b.writeSlot pos (.ofBytes value) := by
    intro value
    unfold writeBytes Slot.ofBytes
    split <;> rfl
  have htime : ∀ precision millis nanos,
      b.writeTimestamp pos precision millis nanos = b.writeSlot pos (.ofTimestamp precision millis nanos) := by
    intro precision millis nanos
    unfold writeTimestamp Slot.ofTimestamp
    split <;> rfl
  cases datum with
  | none => rfl
  | some d =>
    cases d with
    | timestamp | localZonedTimestamp => exact htime _ _ _
    | decimal unscaled precision scale =>
      show (if precision ≤ 18 then _ else _) = b.writeSlot pos (if precision ≤ 18 then _ else _)
      split <;> rfl
    | string | bytes => exact hbytes _
    | _ => rfl

end BinaryRowBuilder

/-- A row has a slot at a field.  Bytes behind the fixed part are found through the offset in the field. -/
def Holds (row : BinaryRow) (pos : Nat) : Slot → Prop
  | .null => row.isNullAt pos = true
  | .inField value => row.isNullAt pos = false ∧
    readSlice row.data (row.fieldOffset pos) value.length = some value
  | .behind value _ low => row.isNullAt pos = false ∧ ∃ start, calFixPartSizeInBytes row.arity ≤ start ∧
    readSlice row.data (row.fieldOffset pos) 8 = some (leBytes 8 (start * 2 ^ 32 + low)) ∧
    readSlice row.data start value.length = some value

theorem nullByte_lt {arity pos : Nat} (h : pos < arity) : (pos + 8) / 8 < calBitSetWidthInBytes arity := by
  unfold calBitSetWidthInBytes
  omega

variable {row : BinaryRow} {pos : Nat}

theorem isNullAt_eq {byte : UInt8} (h : row.data[(pos + 8) / 8]? = some byte) :
    row.isNullAt pos = byte.toNat.testBit ((pos + 8) % 8) := by
  unfold BinaryRow.isNullAt
  rw [h]

variable {row row' : BinaryRow}

theorem isNullAt_congr
    (h : row'.data[(pos + 8) / 8]? = row.data[(pos + 8) / 8]?) : row'.isNullAt pos = row.isNullAt pos := by
  unfold BinaryRow.isNullAt
  rw [h]

variable {s : Slot}

/-- **A slot stays** in a row that keeps the null bit, the field and what is behind the fixed part. -/
theorem Holds.congr (h : Holds row pos s) (hs : s.Fits)
    (harity : row'.arity = row.arity) (hlen : row.data.length ≤ row'.data.length)
    (hnull : row'.isNullAt pos = row.isNullAt pos)
    (hfield : ∀ k, row.fieldOffset pos ≤ k → k < row.fieldOffset pos + 8 → row'.data[k]? = row.data[k]?)
    (hbehind : ∀ k, calFixPartSizeInBytes row.arity ≤ k → k < row.data.length → row'.data[k]? = row.data[k]?) :
    Holds row' pos s := by
  have hoffset : row'.fieldOffset pos = row.fieldOffset pos := by
    unfold BinaryRow.fieldOffset
    rw [harity]
  cases s with
  | null => exact hnull.trans h
  | inField value =>
    obtain ⟨hclear, hread⟩ := h
    refine ⟨hnull.trans hclear, ?_⟩
    rw [hoffset]
    have hfits : value.length ≤ 8 := hs
    exact readSlice_congr hread hlen fun k hk hk' => hfield k hk (by omega)
  | behind value reserved low =>
    obtain ⟨hclear, start, hstart, hread, hvalue⟩ := h
    refine ⟨hnull.trans hclear, start, harity ▸ hstart, ?_, ?_⟩
    · rw [hoffset]
      exact readSlice_congr hread hlen hfield
    · have hle := (readSlice_eq_some.mp hvalue).1
      exact readSlice_congr hvalue hlen fun k hk hk' => hbehind k (by omega) (by omega)

variable {reserved low : Nat}

namespace BinaryRowBuilder

section
variable {b : BinaryRowBuilder} {pos : Nat}

def Allocated (b : BinaryRowBuilder) : Prop := calFixPartSizeInBytes b.arity ≤ b.data.length

theorem fieldOffset_le (h : b.Allocated) (hpos : pos < b.arity) : b.fieldOffset pos + 8 ≤ b.data.length := by
  unfold Allocated calFixPartSizeInBytes at h
  unfold fieldOffset
  omega

theorem fieldOffset_fixed (hpos : pos < b.arity) : b.fieldOffset pos + 8 ≤ calFixPartSizeInBytes b.arity := by
  unfold calFixPartSizeInBytes fieldOffset
  omega

theorem nullByte_lt_fieldOffset (pos : Nat) {j : Nat} (hj : j < b.arity) : (j + 8) / 8 < b.fieldOffset pos := by
  have := nullByte_lt hj
  unfold fieldOffset
  omega

/-- What writing a slot does to a buffer: it keeps the arity, appends the reserved bytes, and touches no null bit
but its own, no field but its own, and nothing behind the fixed part. -/
structure Writes (b b' : BinaryRowBuilder) (pos : Nat) (s : Slot) : Prop where
  arity : b'.arity = b.arity
  length : b'.data.length = b.data.length + s.size
  nulls : ∀ j < b.arity, j ≠ pos → b'.build.isNullAt j = b.build.isNullAt j
  fields : ∀ j < b.arity, j ≠ pos → ∀ k, b.fieldOffset j ≤ k → k < b.fieldOffset j + 8 → b'.data[k]? = b.data[k]?
  behind : ∀ k, calFixPartSizeInBytes b.arity ≤ k → k < b.data.length → b'.data[k]? = b.data[k]?
  holds : b.build.isNullAt pos = false → Holds b'.build pos s

theorem data_writeField (b : BinaryRowBuilder) (pos : Nat) (value : Bytes) :
    (b.writeField pos value).data = patch b.data (b.fieldOffset pos) value := rfl

theorem writes_inField (h : b.Allocated) (hpos : pos < b.arity) (hv : value.length ≤ 8) :
    Writes b (b.writeField pos value) pos (.inField value) := by
  have hroom := fieldOffset_le h hpos
  have hfix := fieldOffset_fixed hpos
  have hin : b.fieldOffset pos + value.length ≤ b.data.length := by omega
  have hnull : ∀ j < b.arity, (b.writeField pos value).build.isNullAt j = b.build.isNullAt j := fun j hj => by
    refine isNullAt_congr ?_
    show (patch _ _ _)[_]? = b.data[_]?
    have := nullByte_lt_fieldOffset pos hj
    rw [getElem?_patch hin, if_neg (by omega)]
  refine ⟨rfl, length_patch hin, fun j hj _ => hnull j hj, fun j hj hne k hk hk' => ?_, fun k hk hk' => ?_,
    fun hclear => ⟨(hnull pos hpos).trans hclear, readSlice_patch_self hin⟩⟩
  · rw [data_writeField, getElem?_patch hin, if_neg]
    unfold fieldOffset at hk hk' ⊢
    omega
  · rw [data_writeField, getElem?_patch hin, if_neg (by omega)]

theorem writes_null (h : b.Allocated) (hpos : pos < b.arity) : Writes b (b.setNullAt pos) pos .null := by
  have hbyte := nullByte_lt_fieldOffset pos hpos
  have hroom := fieldOffset_le h hpos
  set byte := b.data.getD ((pos + 8) / 8) 0 ||| UInt8.ofNat (2 ^ ((pos + 8) % 8)) with hb
  have hin : (pos + 8) / 8 + [byte].length ≤ b.data.length := by
    rw [length_singleton]
    omega
  set c : BinaryRowBuilder := { b with data := patch b.data ((pos + 8) / 8) [byte] } with hc
  have hclen : c.data.length = b.data.length := length_patch hin
  have hcalloc : c.Allocated := h.trans hclen.ge
  have hget : ∀ k, c.data[k]? = if k = (pos + 8) / 8 then some byte else b.data[k]? := fun k => by
    show (patch _ _ _)[k]? = _
    rw [getElem?_patch hin, length_singleton]
    by_cases hk : k = (pos + 8) / 8
    · rw [if_pos (by omega), if_pos hk, hk, Nat.sub_self]
      rfl
    · rw [if_neg (by omega), if_neg hk]
  have hbit : byte.toNat = (b.data.getD ((pos + 8) / 8) 0).toNat ||| 2 ^ ((pos + 8) % 8) := by
    have hlt : 2 ^ ((pos + 8) % 8) < 2 ^ 8 := Nat.pow_lt_pow_right (by decide) (by omega)
    rw [hb, UInt8.toNat_or, UInt8.toNat_ofNat', Nat.mod_eq_of_lt hlt]
  have hdata : b.data[(pos + 8) / 8]? = some (b.data.getD ((pos + 8) / 8) 0) := by
    rw [getD_eq_getElem?_getD, getElem?_eq_getElem (by omega)]
    rfl
  have hwrite : Writes c (b.setNullAt pos) pos (.inField (List.replicate 8 0)) :=
    writes_inField hcalloc hpos (by rw [length_replicate])
  have hkeep : ∀ j < b.arity, (b.setNullAt pos).build.isNullAt j = c.build.isNullAt j := fun j hj => by
    refine isNullAt_congr ?_
    show (patch _ _ _)[_]? = c.data[_]?
    have := nullByte_lt_fieldOffset (b := c) pos hj
    have hin' : c.fieldOffset pos + (List.replicate 8 (0 : UInt8)).length ≤ c.data.length := by
      rw [length_replicate]
      exact fieldOffset_le hcalloc hpos
    rw [getElem?_patch hin', if_neg (by omega)]
  refine ⟨rfl, hwrite.length.trans hclen, fun j hj hne => ?_, fun j hj hne k hk hk' => ?_, fun k hk hk' => ?_,
    fun _ => ?_⟩
  · -- another bit of the same byte stays too
    rw [hkeep j hj]
    by_cases heq : (j + 8) / 8 = (pos + 8) / 8
    · have hc : c.build.data[(j + 8) / 8]? = some byte := (hget _).trans (if_pos heq)
      have hold : b.build.data[(j + 8) / 8]? = some (b.data.getD ((pos + 8) / 8) 0) := heq.symm ▸ hdata
      rw [isNullAt_eq hc, isNullAt_eq hold, hbit, Nat.testBit_or, Nat.testBit_two_pow,
        decide_eq_false (by omega), Bool.or_false]
    · exact isNullAt_congr ((hget _).trans (if_neg heq))
  · rw [hwrite.fields j hj hne k hk hk', hget, if_neg]
    have := nullByte_lt_fieldOffset j hpos
    omega
  · have := fieldOffset_fixed hpos
    rw [hwrite.behind k hk (hclen ▸ hk'), hget, if_neg (by omega)]
  · show (b.setNullAt pos).build.isNullAt pos = true
    have hc : c.build.data[(pos + 8) / 8]? = some byte := (hget _).trans (if_pos rfl)
    rw [hkeep pos hpos, isNullAt_eq hc, hbit, Nat.testBit_or, Nat.testBit_two_pow_self, Bool.or_true]

theorem writes_behind (h : b.Allocated) (hpos : pos < b.arity)
    (hv : value.length ≤ reserved) :
    Writes b (b.writeVar pos value reserved low) pos (.behind value reserved low) := by
  set c : BinaryRowBuilder :=
    { b with data := b.data ++ value ++ List.replicate (reserved - value.length) 0 } with hc
  have hclen : c.data.length = b.data.length + reserved := by
    show (b.data ++ value ++ List.replicate _ _).length = _
    simp only [length_append, length_replicate]
    omega
  have hget : ∀ k < b.data.length, c.data[k]? = b.data[k]? := fun k hk => by
    show (b.data ++ value ++ _)[k]? = _
    rw [append_assoc, getElem?_append_left hk]
  have halloc : c.Allocated := by
    show calFixPartSizeInBytes b.arity ≤ c.data.length
    unfold Allocated at h
    omega
  set word := leBytes 8 (b.data.length * 2 ^ 32 + low) with hword
  have hwordlen : word.length = 8 := leBytes_length 8 _
  have hwrite : Writes c (b.writeVar pos value reserved low) pos (.inField word) :=
    writes_inField halloc hpos hwordlen.le
  have hnull : ∀ j < b.arity, c.build.isNullAt j = b.build.isNullAt j := fun j hj => by
    refine isNullAt_congr (hget _ ?_)
    have h₁ := nullByte_lt_fieldOffset pos hj
    have h₂ := fieldOffset_le h hpos
    omega
  refine ⟨rfl, hwrite.length.trans hclen, fun j hj hne => (hwrite.nulls j hj hne).trans (hnull j hj),
    fun j hj hne k hk hk' => ?_, fun k hk hk' => ?_, fun hclear => ?_⟩
  · have := fieldOffset_le h hj
    rw [hwrite.fields j hj hne k hk hk', hget k (by omega)]
  · rw [hwrite.behind k hk (by omega), hget k hk']
  · obtain ⟨hclear', hread⟩ := hwrite.holds ((hnull pos hpos).trans hclear)
    rw [hwordlen] at hread
    refine ⟨hclear', b.data.length, h, hread, ?_⟩
    -- behind the fixed part the appended bytes are as they were appended
    have happended : readSlice c.data b.data.length value.length = some value := by
      refine readSlice_eq_some.mpr ⟨by omega, rfl, fun k hk => ?_⟩
      show (b.data ++ value ++ _)[b.data.length + k]? = _
      rw [append_assoc, getElem?_append_right (by omega), Nat.add_sub_cancel_left, getElem?_append_left hk]
    unfold Allocated at h
    exact readSlice_congr happended hwrite.length.ge fun k hk hk' => hwrite.behind k (h.trans hk) (by omega)

theorem writes_slot (h : b.Allocated) (hpos : pos < b.arity) (hs : s.Fits) :
    Writes b (b.writeSlot pos s) pos s := by
  cases s with
  | null => exact writes_null h hpos
  | inField value => exact writes_inField h hpos hs
  | behind value reserved low => exact writes_behind h hpos hs

variable {b' : BinaryRowBuilder}

theorem Writes.keeps {s s' : Slot} (h : Writes b b' pos s) {j : Nat} (hj : j < b.arity)
    (hne : j ≠ pos) (hs' : s'.Fits) (hold : Holds b.build j s') : Holds b'.build j s' :=
  hold.congr hs' h.arity (by have := h.length; show b.data.length ≤ b'.data.length; omega) (h.nulls j hj hne)
    (h.fields j hj hne) h.behind

theorem Writes.allocated (h : Writes b b' pos s) (hb : b.Allocated) :
    b'.Allocated := by
  unfold Allocated at hb ⊢
  rw [h.arity, h.length]
  omega

/-- **Every field that is written has its slot, and the fields in front keep theirs.** -/
theorem writeAll_holds (datums : List (Option Datum × TypeRoot)) (hb : b.Allocated)
    (harity : pos + datums.length ≤ b.arity) (hclear : ∀ j, pos ≤ j → j < b.arity → b.build.isNullAt j = false) :
    (∀ i x, datums[i]? = some x → Holds (b.writeAll pos datums).build (pos + i) (slot x.1 x.2)) ∧
    (∀ j < pos, ∀ s : Slot, s.Fits → Holds b.build j s → Holds (b.writeAll pos datums).build j s) ∧
    (b.writeAll pos datums).arity = b.arity ∧
    (b.writeAll pos datums).data.length = b.data.length + (datums.map fun x => (slot x.1 x.2).size).sum := by
  induction datums generalizing b pos with
  | nil => exact ⟨fun i x h => absurd h (by simp), fun j _ s _ h => h, rfl, rfl⟩
  | cons x datums ih =>
    obtain ⟨datum, t⟩ := x
    rw [length_cons] at harity
    rw [writeAll, writeOption_eq]
    have hfits := fits_slot datum t
    have hw : Writes b (b.writeSlot pos (slot datum t)) pos (slot datum t) := writes_slot hb (by omega) hfits
    have hfit : pos + 1 + datums.length ≤ (b.writeSlot pos (slot datum t)).arity := by
      rw [hw.arity]
      omega
    obtain ⟨hrest, hfront, harity', hlen⟩ := ih (hw.allocated hb) hfit fun j hj hj' => by
      rw [hw.arity] at hj'
      rw [hw.nulls j hj' (by omega)]
      exact hclear j (by omega) hj'
    refine ⟨fun i x hx => ?_, fun j hj s hs hold => ?_, harity'.trans hw.arity, ?_⟩
    · cases i with
      | zero =>
        obtain rfl := Option.some.inj hx
        exact hfront pos (by omega) _ hfits (hw.holds (hclear pos (le_refl pos) (by omega)))
      | succ i =>
        rw [show pos + (i + 1) = pos + 1 + i by omega]
        exact hrest i x hx
    · exact hfront j (by omega) s hs (hw.keeps (by omega) (by omega) hs hold)
    · rw [hlen, hw.length, map_cons, sum_cons, Nat.add_assoc]

end

end BinaryRowBuilder

theorem new_clear (arity j : Nat) : (BinaryRowBuilder.new arity).build.isNullAt j = false := by
  unfold BinaryRow.isNullAt
  split
  · next byte h =>
    have hzero := eq_of_mem_replicate (mem_of_getElem? h)
    rw [hzero]
    exact Nat.zero_testBit _
  · rfl

namespace BinaryRow

variable {datums : List (Option Datum × TypeRoot)}

theorem fromDatums_spec (datums : List (Option Datum × TypeRoot)) :
    (∀ i x, datums[i]? = some x → Holds (fromDatums datums) i (slot x.1 x.2)) ∧
    (fromDatums datums).arity = datums.length ∧
    (fromDatums datums).data.length
      = calFixPartSizeInBytes datums.length + (datums.map fun x => (slot x.1 x.2).size).sum := by
  have halloc : (BinaryRowBuilder.new datums.length).Allocated := length_replicate.ge
  have hfit : 0 + datums.length ≤ (BinaryRowBuilder.new datums.length).arity := (Nat.zero_add _).le
  obtain ⟨hall, -, harity, hlen⟩ :=
    BinaryRowBuilder.writeAll_holds datums halloc hfit fun j _ _ => new_clear _ j
  refine ⟨fun i x hx => ?_, harity, hlen.trans ?_⟩
  · have := hall i x hx
    rwa [Nat.zero_add] at this
  · congr 1
    exact length_replicate

/-- **A row of literals is read back from its serialized form.** -/
theorem fromDatums_read (h : datums.length < 2 ^ 31) :
    fromSerializedBytes (fromDatums datums).toSerializedBytes = some (fromDatums datums) := by
  obtain ⟨-, harity, hlen⟩ := fromDatums_spec datums
  exact toSerializedBytes_read (harity ▸ h) (by rw [harity, hlen]; exact Nat.le_add_right _ _)

theorem fromDatums_congr {datums' : List (Option Datum × TypeRoot)}
    (h : datums.map (fun x => slot x.1 x.2) = datums'.map fun x => slot x.1 x.2) :
    fromDatums datums = fromDatums datums' := by
  have hwrite : ∀ (l l' : List (Option Datum × TypeRoot)) (b : BinaryRowBuilder) (pos : Nat),
      l.map (fun x => slot x.1 x.2) = l'.map (fun x => slot x.1 x.2) → b.writeAll pos l = b.writeAll pos l' := by
    intro l
    induction l with
    | nil =>
      intro l' b pos h
      rw [map_nil, eq_comm, map_eq_nil_iff] at h
      rw [h]
    | cons x l ih =>
      intro l' b pos h
      obtain ⟨x', l', rfl, hx, hl⟩ := map_eq_cons_iff.mp h.symm
      rw [BinaryRowBuilder.writeAll, BinaryRowBuilder.writeAll, BinaryRowBuilder.writeOption_eq,
        BinaryRowBuilder.writeOption_eq, hx]
      exact ih l' _ _ hl.symm
  have hlen : datums.length = datums'.length := by
    have := congrArg List.length h
    rwa [length_map, length_map] at this
  unfold fromDatums
  rw [hlen, hwrite datums datums' _ 0 h]

end BinaryRow

/-! ## reading slots -/

section
variable {row : BinaryRow} {pos : Nat}

theorem Holds.readNat (h : Holds row pos (.inField value))
    (hw : value.length = width) : row.readNat (row.fieldOffset pos) width = some (leNat value) := by
  unfold BinaryRow.readNat
  rw [← hw, h.2]
  rfl

theorem Holds.getSigned {v : Int} (hw : 0 < width) (h : Holds row pos (.inField (intLeBytes width v))) :
    row.getSigned pos width = some (v.bmod (2 ^ (8 * width))) := by
  unfold BinaryRow.getSigned
  rw [h.readNat (intLeBytes_length width v), intLeBytes, leNat_leBytes (twosComplement_lt width v), Option.map_some,
    toSigned_twosComplement_bmod hw]

theorem Holds.readWord (hlen : row.data.length < 2 ^ 31) (hlow : low < 2 ^ 32)
    (h : Holds row pos (.behind value reserved low)) :
    ∃ start, row.readNat (row.fieldOffset pos) 8 = some (start * 2 ^ 32 + low) ∧ start < 2 ^ 31 ∧
      readSlice row.data start value.length = some value := by
  obtain ⟨-, start, -, hword, hvalue⟩ := h
  have hle := (readSlice_eq_some.mp hvalue).1
  refine ⟨start, ?_, by omega, hvalue⟩
  unfold BinaryRow.readNat
  rw [hword, Option.map_some, leNat_leBytes]
  omega

theorem getBinary_of_word {raw start len : Nat} (hword : row.readNat (row.fieldOffset pos) 8 = some raw)
    (hplace : (if raw < 2 ^ 63 then (raw / 2 ^ 32, raw % 2 ^ 32) else (row.fieldOffset pos, raw / 2 ^ 56 % 2 ^ 7))
      = (start, len))
    (hvalue : readSlice row.data start len = some value) : row.getBinary pos = some value := by
  obtain ⟨hle, htake⟩ := take_drop_of_readSlice hvalue
  have hresolve : row.resolveVarLengthField pos = some (start, len) := by
    unfold BinaryRow.resolveVarLengthField
    rw [hword, Option.bind_eq_bind, Option.bind_some, hplace]
    exact if_pos hle
  unfold BinaryRow.getBinary
  rw [hresolve, ← htake]
  rfl

theorem Holds.getBinary_behind {reserved : Nat} (hlen : row.data.length < 2 ^ 31)
    (h : Holds row pos (.behind value reserved value.length)) : row.getBinary pos = some value := by
  have hvlen : value.length < 2 ^ 32 := by
    obtain ⟨-, start, -, -, hvalue⟩ := h
    have := (readSlice_eq_some.mp hvalue).1
    omega
  obtain ⟨start, hword, hstart, hvalue⟩ := h.readWord hlen hvlen
  refine getBinary_of_word hword ?_ hvalue
  rw [if_pos (by omega), Prod.mk.injEq]
  exact ⟨by omega, by omega⟩

theorem Holds.getBinary_inField (hv : value.length ≤ 7) (h : Holds row pos
      (.inField (value ++ List.replicate (7 - value.length) 0 ++ [UInt8.ofNat (0x80 ||| value.length)]))) :
    row.getBinary pos = some value := by
  set front := value ++ List.replicate (7 - value.length) 0 with hfront
  have hflen : front.length = 7 := by
    rw [hfront, length_append, length_replicate]
    omega
  have hmark : (UInt8.ofNat (0x80 ||| value.length)).toNat = 128 + value.length := by
    generalize value.length = n at hv ⊢
    interval_cases n <;> rfl
  have hsize : (front ++ [UInt8.ofNat (0x80 ||| value.length)]).length = 8 := by
    rw [length_append, hflen]
    rfl
  have hword := h.readNat hsize
  have hraw : leNat (front ++ [UInt8.ofNat (0x80 ||| value.length)])
      = leNat front + 2 ^ 56 * (128 + value.length) := by
    rw [leNat_append, hflen, leNat, leNat, hmark]
    omega
  have hlt : leNat front < 2 ^ 56 := by
    have := leNat_lt front
    rw [hflen] at this
    omega
  rw [hraw] at hword
  have hread : readSlice row.data (row.fieldOffset pos) value.length = some value := by
    have hall := h.2
    rw [hfront, append_assoc] at hall
    exact readSlice_append hall
  refine getBinary_of_word hword ?_ hread
  rw [if_neg (by omega), Prod.mk.injEq]
  exact ⟨rfl, by omega⟩

theorem Holds.getBinary (hlen : row.data.length < 2 ^ 31) (h : Holds row pos (.ofBytes value)) :
    row.getBinary pos = some value := by
  unfold Slot.ofBytes at h
  split at h
  · next hv => exact h.getBinary_inField hv
  · exact h.getBinary_behind hlen

theorem Holds.getString {text : Text} (hlen : row.data.length < 2 ^ 31)
    (h : Holds row pos (.ofBytes (BinaryRowBuilder.textBytes text))) : row.getString pos = some text := by
  have hbytes : (⟨⟨BinaryRowBuilder.textBytes text⟩⟩ : ByteArray) = text.utf8Encode := by
    refine ByteArray.ext ?_
    rw [List.utf8Encode, data_toByteArray]
    rfl
  unfold BinaryRow.getString
  rw [h.getBinary hlen]
  simp only [bind, Option.bind, hbytes, List.utf8Decode?_utf8Encode]
  rfl

end

/-! ### decimals -/

/-- the value of big-endian two's complement bytes -/
def signExtended (bs : Bytes) : Int := (if 128 ≤ (bs.headD 0).toNat then -1 else 0) * 256 ^ bs.length + beNat bs

theorem signExtended_cons (b : UInt8) (bs : Bytes) :
    signExtended (b :: bs) = (if 128 ≤ b.toNat then -1 else 0) * 256 ^ (bs.length + 1) + beNat (b :: bs) := rfl

theorem beNat_cons (b : UInt8) (bs : Bytes) : beNat (b :: bs) = b.toNat * 256 ^ bs.length + beNat bs := by
  induction bs using List.reverseRecOn with
  | nil => simp [beNat]
  | append_singleton bs c ih =>
    rw [← cons_append, beNat_append, ih, beNat_append, length_append, length_singleton]
    ring

theorem signExtended_minimalBytes (bs : Bytes) : signExtended (BinaryRowBuilder.minimalBytes bs) = signExtended bs := by
  refine minimalBytes_keeps signExtended (fun b next rest h => ?_) bs
  rw [signExtended_cons, signExtended_cons, beNat_cons b, length_cons]
  rw [Bool.or_eq_true, Bool.and_eq_true, Bool.and_eq_true, beq_iff_eq, beq_iff_eq, decide_eq_true_iff,
    decide_eq_true_iff] at h
  obtain ⟨rfl, hnext⟩ | ⟨rfl, hnext⟩ := h
  · rw [if_neg (not_le.mpr hnext), if_neg (by decide)]
    simp
  · rw [if_pos hnext, if_pos (by decide)]
    have h255 : (0xFF : UInt8).toNat = 255 := rfl
    rw [h255]
    push_cast
    ring

theorem foldl_bmod (bs : Bytes) (start : Int) :
    (bs.foldl (fun v b => Int.bmod (v * 256 + b.toNat) (2 ^ 128)) start).bmod (2 ^ 128)
      = (start * 256 ^ bs.length + beNat bs).bmod (2 ^ 128) := by
  induction bs generalizing start with
  | nil => simp [beNat]
  | cons b bs ih =>
    rw [foldl_cons, ih, beNat_cons, length_cons]
    have hstep : (Int.bmod (start * 256 + b.toNat) (2 ^ 128) * 256 ^ bs.length + (beNat bs : Int)).bmod (2 ^ 128)
        = ((start * 256 + b.toNat) * 256 ^ bs.length + (beNat bs : Int)).bmod (2 ^ 128) := by
      rw [← Int.bmod_add_bmod, Int.bmod_mul_bmod, Int.bmod_add_bmod]
    rw [hstep]
    congr 1
    push_cast
    ring

theorem foldl_is_bmod (bs : Bytes) (hne : bs ≠ []) (start : Int) :
    (bs.foldl (fun v b => Int.bmod (v * 256 + b.toNat) (2 ^ 128)) start)
      = (start * 256 ^ bs.length + beNat bs).bmod (2 ^ 128) := by
  rw [← foldl_bmod]
  obtain ⟨front, last, rfl⟩ := eq_nil_or_concat bs |>.resolve_left hne
  rw [concat_eq_append, foldl_append, foldl_cons, foldl_nil, Int.bmod_bmod]

theorem decimalOfBytes_eq {bs : Bytes} (hne : bs ≠ []) :
    BinaryRow.decimalOfBytes bs = some ((signExtended bs).bmod (2 ^ 128)) := by
  cases bs with
  | nil => exact absurd rfl hne
  | cons first rest =>
    unfold BinaryRow.decimalOfBytes
    dsimp only
    rw [foldl_is_bmod _ hne]
    rfl

theorem decimal_read (unscaled : Int) :
    BinaryRow.decimalOfBytes (BinaryRowBuilder.minimalBytes (beBytes 16 (twosComplement 16 unscaled)))
      = some (unscaled.bmod (2 ^ 128)) := by
  have hlen : (beBytes 16 (twosComplement 16 unscaled)).length = 16 := by
    rw [beBytes, length_reverse, leBytes_length]
  have hne : beBytes 16 (twosComplement 16 unscaled) ≠ [] := ne_nil_of_length_pos (by rw [hlen]; decide)
  rw [decimalOfBytes_eq (minimalBytes_ne_nil hne), signExtended_minimalBytes, signExtended, hlen, beBytes, beNat_reverse,
    leNat_leBytes (twosComplement_lt 16 unscaled)]
  congr 1
  -- whatever the sign byte says is a multiple of the modulus
  have hcast : (twosComplement 16 unscaled : Int) = unscaled % ((2 ^ 128 : Nat) : Int) := by
    rw [twosComplement_cast]
    norm_num
  have hbase : (256 : Int) ^ 16 = ((2 ^ 128 : Nat) : Int) := by norm_num
  rw [hcast, hbase, add_comm, Int.add_mul_bmod_self_right, Int.emod_bmod]

/-! ## literals -/

/-- the literal a row gives back for one that was written at a type -/
def stored (t : TypeRoot) : Datum → Datum
  | .tinyInt v => .tinyInt (v.bmod (2 ^ (8 * 1)))
  | .smallInt v => .smallInt (v.bmod (2 ^ (8 * 2)))
  | .int v => .int (v.bmod (2 ^ (8 * 4)))
  | .date v => .date (v.bmod (2 ^ (8 * 4)))
  | .time v => .time (v.bmod (2 ^ (8 * 4)))
  | .long v => .long (v.bmod (2 ^ (8 * 8)))
  | .timestamp millis nanos => .timestamp (millis.bmod (2 ^ (8 * 8)))
      (if BinaryRowBuilder.timestampPrecision t ≤ 3 then 0 else nanos.bmod (2 ^ (8 * 4)))
  | .localZonedTimestamp millis nanos => .localZonedTimestamp (millis.bmod (2 ^ (8 * 8)))
      (if BinaryRowBuilder.localZonedPrecision t ≤ 3 then 0 else nanos.bmod (2 ^ (8 * 4)))
  | .decimal unscaled precision scale =>
    match t with
    | .decimal columnPrecision columnScale =>
      .decimal (unscaled.bmod (if columnPrecision ≤ 18 then 2 ^ (8 * 8) else 2 ^ 128)) columnPrecision columnScale
    | _ => .decimal unscaled precision scale
  | d => d

/-- A literal of the kind of the column that is written the way the column is read: the precision of a DECIMAL
literal chooses the same representation as that of the column. -/
structure Storable (t : TypeRoot) (d : Datum) : Prop where
  kind : t.rowKind = some d.kind
  notVariant : d.kind ≠ .variant
  decimal : ∀ unscaled precision scale, d = .decimal unscaled precision scale →
    ∃ columnPrecision columnScale, t = .decimal columnPrecision columnScale ∧
      (precision ≤ 18 ↔ columnPrecision ≤ 18)

theorem Holds.getTimestamp {pos precision : Nat} {millis nanos : Int}
    (hlen : row.data.length < 2 ^ 31) (h : Holds row pos (.ofTimestamp precision millis nanos)) :
    row.isNullAt pos = false ∧ row.getTimestampRaw pos precision
      = some (millis.bmod (2 ^ (8 * 8)), if precision ≤ 3 then 0 else nanos.bmod (2 ^ (8 * 4))) := by
  unfold Slot.ofTimestamp at h
  unfold BinaryRow.getTimestampRaw
  split at h
  · next hp =>
    have hlong : row.getLong pos = some (millis.bmod (2 ^ (8 * 8))) := h.getSigned (by decide)
    rw [if_pos hp, if_pos hp, hlong]
    exact ⟨h.1, rfl⟩
  · next hp =>
    have hlow := twosComplement_lt 4 nanos
    obtain ⟨start, hword, -, hvalue⟩ := h.readWord hlen (by omega)
    rw [if_neg hp, if_neg hp, hword]
    have hdiv : (start * 2 ^ 32 + twosComplement 4 nanos) / 2 ^ 32 = start := by omega
    have hmod : (start * 2 ^ 32 + twosComplement 4 nanos) % 2 ^ 32 = twosComplement 4 nanos := by omega
    have hmillis : row.readNat start 8 = some (twosComplement 8 millis) := by
      unfold BinaryRow.readNat
      rw [intLeBytes_length] at hvalue
      rw [hvalue, intLeBytes, Option.map_some, leNat_leBytes (twosComplement_lt 8 millis)]
    refine ⟨h.1, ?_⟩
    rw [Option.bind_eq_bind, Option.bind_some, hdiv, hmod, hmillis, Option.bind_some]
    have h64 : toSigned 64 (twosComplement 8 millis) = millis.bmod (2 ^ (8 * 8)) :=
      toSigned_twosComplement_bmod (by decide) millis
    have h32 : toSigned 32 (twosComplement 4 nanos) = nanos.bmod (2 ^ (8 * 4)) :=
      toSigned_twosComplement_bmod (by decide) nanos
    rw [h64, h32]
    rfl

variable {variantOk : Bytes → Bytes → Bool} {t : TypeRoot} {d : Datum}

/-- **A field gives back the literal in its slot.** -/
theorem Holds.getDatum
    (hd : Storable t d) (hlen : row.data.length < 2 ^ 31) (h : Holds row pos (.ofDatum d t)) :
    row.getDatum variantOk pos t = some (some (stored t d)) := by
  have hvalue : row.isNullAt pos = false → row.getValue variantOk pos t = some (stored t d) →
      row.getDatum variantOk pos t = some (some (stored t d)) := by
    intro hnull hvalue
    unfold BinaryRow.getDatum
    rw [hnull, hvalue]
    rfl
  have hkind := hd.kind
  have hbytes : ∀ {bytes : Bytes}, Holds row pos (.ofBytes bytes) → row.isNullAt pos = false := fun h => by
    unfold Slot.ofBytes at h
    split at h <;> exact h.1
  -- only text, bytes and decimals leave a choice of the type
  cases d <;> cases t <;> try cases hkind
  case bool.boolean v =>
    refine hvalue h.1 ?_
    unfold BinaryRow.getValue BinaryRow.getBoolean
    rw [h.readNat length_singleton]
    cases v <;> rfl
  case tinyInt.tinyInt | smallInt.smallInt | int.int | date.date | time.time | long.bigInt =>
    refine hvalue h.1 ?_
    unfold BinaryRow.getValue
    exact congrArg (Option.map _) (h.getSigned (by decide))
  case float.float bits | double.double bits =>
    refine hvalue h.1 ?_
    simp only [BinaryRow.getValue, BinaryRow.getFloat, BinaryRow.getDouble]
    rw [h.readNat (leBytes_length _ _), leNat_leBytes bits.isLt, Option.map_some, Option.map_some,
      BitVec.ofNat_toNat, BitVec.setWidth_eq]
    rfl
  case timestamp.timestamp | localZonedTimestamp.localZonedTimestamp =>
    obtain ⟨hnull, hread⟩ := Holds.getTimestamp hlen h
    refine hvalue hnull ?_
    unfold BinaryRow.getValue
    exact congrArg (Option.map _) hread
  case decimal.decimal unscaled precision scale columnPrecision columnScale =>
    obtain ⟨_, _, ⟨⟩, hclass⟩ := hd.decimal unscaled precision scale rfl
    unfold Slot.ofDatum at h
    dsimp only at h
    have hread : row.isNullAt pos = false ∧ row.getDecimalUnscaled pos columnPrecision
        = some (unscaled.bmod (if columnPrecision ≤ 18 then 2 ^ (8 * 8) else 2 ^ 128)) := by
      unfold BinaryRow.getDecimalUnscaled
      split at h
      · next hp =>
        rw [if_pos (hclass.mp hp), if_pos (hclass.mp hp)]
        exact ⟨h.1, h.getSigned (by decide)⟩
      · next hp =>
        have hcolumn : ¬ columnPrecision ≤ 18 := fun h => hp (hclass.mpr h)
        rw [if_neg hcolumn, if_neg hcolumn, Holds.getBinary_behind hlen h, Option.bind_some, decimal_read]
        exact ⟨h.1, rfl⟩
    exact hvalue hread.1 (congrArg (Option.map fun u => Datum.decimal u columnPrecision columnScale) hread.2)
  case string.char | string.varChar =>
    exact hvalue (hbytes h) (congrArg (Option.map Datum.string) (Holds.getString hlen h))
  case bytes.binary | bytes.varBinary =>
    exact hvalue (hbytes h) (congrArg (Option.map Datum.bytes) (Holds.getBinary hlen h))
  case variant.variant => exact absurd rfl hd.notVariant

/-- **Every field of a row of literals gives back its literal.** -/
theorem fromDatums_getDatum {datums : List (Option Datum × TypeRoot)}
    (hlen : (BinaryRow.fromDatums datums).data.length < 2 ^ 31) {i : Nat} {datum : Option Datum}
    (hi : datums[i]? = some (datum, t)) (hd : ∀ d, datum = some d → Storable t d) :
    (BinaryRow.fromDatums datums).getDatum variantOk i t = some (datum.map (stored t)) := by
  have hold := (BinaryRow.fromDatums_spec datums).1 i (datum, t) hi
  cases datum with
  | none =>
    unfold BinaryRow.getDatum
    rw [show BinaryRow.isNullAt _ i = true from hold]
    rfl
  | some d => exact Holds.getDatum (hd d rfl) hlen hold

theorem intLeBytes_bmod (width : Nat) (v : Int) : intLeBytes width (v.bmod (2 ^ (8 * width))) = intLeBytes width v := by
  unfold intLeBytes
  rw [twosComplement_bmod]

/-- **What is given back is written like what was written.** -/
theorem ofDatum_stored (hd : Storable t d) :
    Slot.ofDatum (stored t d) t = Slot.ofDatum d t := by
  have htime : ∀ (precision : Nat) (millis nanos : Int),
      Slot.ofTimestamp precision (millis.bmod (2 ^ (8 * 8)))
        (if precision ≤ 3 then 0 else nanos.bmod (2 ^ (8 * 4))) = Slot.ofTimestamp precision millis nanos := by
    intro precision millis nanos
    unfold Slot.ofTimestamp
    rw [intLeBytes_bmod]
    split
    · rfl
    · rw [twosComplement_bmod]
  cases d with
  | tinyInt v => exact congrArg Slot.inField (intLeBytes_bmod 1 v)
  | smallInt v => exact congrArg Slot.inField (intLeBytes_bmod 2 v)
  | int v | date v | time v => exact congrArg Slot.inField (intLeBytes_bmod 4 v)
  | long v => exact congrArg Slot.inField (intLeBytes_bmod 8 v)
  | timestamp millis nanos | localZonedTimestamp millis nanos => exact htime _ millis nanos
  | decimal unscaled precision scale =>
    obtain ⟨columnPrecision, columnScale, rfl, hclass⟩ := hd.decimal unscaled precision scale rfl
    unfold stored Slot.ofDatum
    dsimp only
    by_cases hp : precision ≤ 18
    · rw [if_pos (hclass.mp hp), if_pos (hclass.mp hp), if_pos hp, intLeBytes_bmod]
    · have hcolumn : ¬ columnPrecision ≤ 18 := fun h => hp (hclass.mpr h)
      rw [if_neg hcolumn, if_neg hcolumn, if_neg hp]
      unfold Slot.ofDecimal
      rw [twosComplement_bmod 16]
  | _ => rfl

/-! ## whole rows -/

structure StorableRow (datums : List (Option Datum × TypeRoot)) : Prop where
  small : (BinaryRow.fromDatums datums).data.length < 2 ^ 31
  storable : ∀ d t, (some d, t) ∈ datums → Storable t d

def storedField (x : Option Datum × TypeRoot) : Option Datum := x.1.map (stored x.2)

variable {xs ys : List (Option Datum × TypeRoot)}

theorem StorableRow.read (h : StorableRow xs) :
    fromSerializedBytes (BinaryRow.fromDatums xs).toSerializedBytes = some (BinaryRow.fromDatums xs) := by
  apply BinaryRow.fromDatums_read
  have hlen := (BinaryRow.fromDatums_spec xs).2.2
  have hsmall := h.small
  unfold calFixPartSizeInBytes at hlen
  omega

theorem StorableRow.getDatum (h : StorableRow xs) (variantOk : Bytes → Bytes → Bool) {i : Nat}
    {x : Option Datum × TypeRoot} (hi : xs[i]? = some x) :
    (BinaryRow.fromDatums xs).getDatum variantOk i x.2 = some (storedField x) := by
  refine fromDatums_getDatum h.small hi fun d hd => h.storable d x.2 ?_
  rw [← hd]
  exact mem_of_getElem? hi

theorem StorableRow.slots (h : StorableRow xs) :
    xs.map (fun x => slot x.1 x.2) = (xs.map fun x => (storedField x, x.2)).map fun x => slot x.1 x.2 := by
  rw [map_map]
  refine map_congr_left fun x hx => ?_
  obtain ⟨_ | d, t⟩ := x
  · rfl
  · exact (ofDatum_stored (h.storable d t hx)).symm

def dayRow (day : Int) : List (Option Datum × TypeRoot) := [(some (.date day), .date)]

end Paimon
