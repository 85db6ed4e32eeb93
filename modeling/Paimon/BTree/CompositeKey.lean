import Paimon.BTree.KeySerde
import Paimon.Lib.TupleBounds

/-!
# Keys of an index on several columns

`btree/composite_key.rs`: a row kind byte, a bitmap of the NULL components, then the components one
after the other, with a length before those of variable width.  A cursor reads the components back
from the bytes of a key and rejects bytes that are no key of the columns.

* `serialize`, `compareKeys`: a tuple as a key, and the comparison of two keys;
* `Cursor.next`, `finish`: reading a key;
* `TupleOk types values`: a tuple of values of the columns, each of which may be NULL;
* `places values`: the components as places in one linear order, NULL first.

A cursor over the key of a tuple yields the tuple (`Reads.next`), so keys compare as tuples do, in
the order of `TupleBounds` (`compareKeys_eq`).
-/

namespace Paimon.BTree

open List

/-! ## writing -/

/-- a component as bytes, `none` being NULL -/
abbrev Component := Option Bytes

def invalidKey (message : String) : Error := .dataInvalid s!"Invalid composite BTree key: {message}"

def outOfBounds : Error := .unexpectedError "index out of bounds"

structure CompositeKeyCodec where
  types : List TypeRoot

def variableWidth : TypeRoot → Bool
  | .char _ | .varChar _ | .binary _ | .varBinary _ => true
  | .decimal precision _ => 18 < precision
  | _ => false

/-- all NaNs are one value -/
def serializeComponent (t : TypeRoot) (value : Datum) : Bytes :=
  match value with
  | .float bits =>
    if Ieee.isNan Ieee.infinity32 bits then leBytes 4 0x7fc00000 else serializeDatum value t
  | .double bits =>
    if Ieee.isNan Ieee.infinity64 bits then leBytes 8 0x7ff8000000000000 else serializeDatum value t
  | _ => serializeDatum value t

def headerLen (arity : Nat) : Nat := 1 + (arity + 7) / 8

def setNull (bytes : Bytes) (i : Nat) : Bytes :=
  bytes.set (1 + i / 8) (bytes.getD (1 + i / 8) 0 ||| UInt8.ofNat (2 ^ (i % 8)))

def nullAt (key : Bytes) (i : Nat) : Bool := (key.getD (1 + i / 8) 0).toNat.testBit (i % 8)

/-- the components from number `i` on, after the bytes written so far -/
def serializeFrom (i : Nat) (bytes : Bytes) : List (TypeRoot × Option Datum) → Result Bytes
  | [] => .ok bytes
  | (t, value) :: rest =>
    if supportedType t = false then .error (invalidKey "unsupported non-scalar component type")
    else
      match value with
      | none => serializeFrom (i + 1) (setNull bytes i) rest
      | some value =>
        if datumMatchesType value t = false then
          .error (.configInvalid "Datum is incompatible with DataType")
        else
          let component := serializeComponent t value
          if variableWidth t = true then
            if 2 ^ 31 ≤ component.length then .error (invalidKey "component too large")
            else serializeFrom (i + 1) (bytes ++ (encodeVarInt component.length ++ component)) rest
          else serializeFrom (i + 1) (bytes ++ component) rest

/-! ## reading -/

/-- `compare_component` of two components of one type: NULL comes first -/
def compareComponents (t : TypeRoot) (a b : Component) : Result Ordering :=
  match a, b with
  | none, none => .ok .eq
  | none, some _ => .ok .lt
  | some _, none => .ok .gt
  | some a, some b =>
    match t with
    | .float => do
      let canonical (bits : BitVec (8 * 4)) : BitVec (8 * 4) :=
        if Ieee.isNan Ieee.infinity32 bits then 0x7fc00000#32 else bits
      let a ← floatKey 4 a "FLOAT"
      let b ← floatKey 4 b "FLOAT"
      return Ieee.totalCmp (canonical a) (canonical b)
    | .double => do
      let canonical (bits : BitVec (8 * 8)) : BitVec (8 * 8) :=
        if Ieee.isNan Ieee.infinity64 bits then 0x7ff8000000000000#64 else bits
      let a ← floatKey 8 a "DOUBLE"
      let b ← floatKey 8 b "DOUBLE"
      return Ieee.totalCmp (canonical a) (canonical b)
    | t => keyComparator t a b

structure Cursor where
  key : Bytes
  position : Nat
  offset : Nat

def timestampLen (key : Bytes) (offset : Nat) : Result Nat := do
  let (nanos, consumed) ← tryDecodeVarInt key (offset + 8)
  if 0 ≤ nanos ∧ nanos < 1000000 then return 8 + consumed
  else .error (invalidKey "invalid timestamp nanoseconds")

/-- where the component of a type starts and how long it is -/
def componentSpan (t : TypeRoot) (key : Bytes) (offset : Nat) : Result (Nat × Nat) :=
  if variableWidth t then do
    let (len, consumed) ← tryDecodeVarInt key offset
    if len < 0 then .error (invalidKey "negative component length")
    else return (offset + consumed, len.toNat)
  else
    match t with
    | .boolean | .tinyInt => .ok (offset, 1)
    | .smallInt => .ok (offset, 2)
    | .int | .date | .time _ | .float => .ok (offset, 4)
    | .bigInt | .double | .decimal _ _ => .ok (offset, 8)
    | .timestamp precision | .localZonedTimestamp precision =>
      if 3 < precision then (timestampLen key offset).map fun len => (offset, len)
      else .ok (offset, 8)
    | _ => .error (invalidKey "unsupported non-scalar component type")

namespace CompositeKeyCodec

variable (codec : CompositeKeyCodec)

def compareComponent (i : Nat) (a b : Component) : Result Ordering :=
  match codec.types[i]? with
  | none => .error outOfBounds
  | some t => compareComponents t a b

def cursor (key : Bytes) : Result Cursor :=
  if key.length < headerLen codec.types.length then .error (invalidKey "truncated header")
  else .ok ⟨key, 0, headerLen codec.types.length⟩

def nextComponent (c : Cursor) : Result (Component × Cursor) :=
  match codec.types[c.position]? with
  | none => .error (invalidKey "read past tuple arity")
  | some t =>
    if nullAt c.key c.position then .ok (none, { c with position := c.position + 1 })
    else do
      let (start, len) ← componentSpan t c.key c.offset
      match readSlice c.key start len with
      | none => .error (invalidKey "truncated component")
      | some component =>
        -- a component that does not compare with itself is no value of the type
        let _ ← compareComponents t (some component) (some component)
        return (some component, ⟨c.key, c.position + 1, start + len⟩)

/-- the components that are left are read as well, so that a foreign key is found out -/
def finishFrom : Nat → Cursor → Result Unit
  | 0, c =>
    if c.offset = c.key.length then .ok ()
    else .error (invalidKey "trailing bytes or incompatible schema")
  | left + 1, c => do
    let (_, c) ← codec.nextComponent c
    finishFrom left c

def finish (c : Cursor) : Result Unit := codec.finishFrom (codec.types.length - c.position) c

def validateKey (key : Bytes) : Result Unit := do
  let c ← codec.cursor key
  codec.finish c

def serialize (values : List (Option Datum)) : Result Bytes :=
  if values.length ≠ codec.types.length ∨ values = [] then
    .error (invalidKey "tuple arity differs from index fields")
  else do
    let bytes ← serializeFrom 0 (List.replicate (headerLen values.length) 0) (codec.types.zip values)
    codec.validateKey bytes
    return bytes

/-- `left` components are still to compare -/
def compareFrom : Nat → Nat → Cursor → Cursor → Result (Ordering × Cursor × Cursor)
  | 0, _, a, b => .ok (.eq, a, b)
  | left + 1, i, a, b => do
    let (ca, a) ← codec.nextComponent a
    let (cb, b) ← codec.nextComponent b
    let order ← codec.compareComponent i ca cb
    if order ≠ .eq then return (order, a, b) else compareFrom left (i + 1) a b

def compareKeys (a b : Bytes) : Result Ordering := do
  let a ← codec.cursor a
  let b ← codec.cursor b
  let (order, a, b) ← codec.compareFrom codec.types.length 0 a b
  codec.finish a
  codec.finish b
  return order

end CompositeKeyCodec

/-! ## tuples -/

def ComponentOk (t : TypeRoot) (value : Option Datum) : Prop := ∀ d, value = some d → KeyOk t d

def TupleOk (types : List TypeRoot) (values : List (Option Datum)) : Prop :=
  List.Forall₂ ComponentOk types values

abbrev ComponentPlace := WithBot (Compare.LexList ℚ)

instance : Inhabited ComponentPlace := ⟨⊥⟩

def componentPlace : Option Datum → ComponentPlace
  | none => ⊥
  | some d => (d.rank : WithBot (Compare.LexList ℚ))

def places (values : List (Option Datum)) : List ComponentPlace := values.map componentPlace

/-- columns of an index: scalar types, no floats -/
def IndexTypes (types : List TypeRoot) : Prop :=
  ∀ t ∈ types, supportedType t = true ∧ t.isFloat = false

variable {t : TypeRoot} {d : Datum}

theorem serializeComponent_eq (ht : t.isFloat = false) (hd : KeyOk t d) :
    serializeComponent t d = serializeDatum d t := by
  cases hd <;> first | rfl | cases ht

theorem compareComponents_some (ht : t.isFloat = false) (a b : Bytes) :
    compareComponents t (some a) (some b) = keyComparator t a b := by
  cases t <;> first | rfl | cases ht

/-- **Components compare as their values do, NULL first.** -/
theorem compareComponents_eq (ht : t.isFloat = false) {a b : Option Datum} (ha : ComponentOk t a)
    (hb : ComponentOk t b) :
    compareComponents t (a.map (serializeComponent t)) (b.map (serializeComponent t))
      = .ok (compare (componentPlace a) (componentPlace b)) := by
  have hcoe : StrictMono fun r : Compare.LexList ℚ => (r : ComponentPlace) :=
    fun _ _ h => WithBot.coe_lt_coe.mpr h
  cases a with
  | none =>
    cases b with
    | none => exact congrArg Except.ok (compare_eq_iff_eq.mpr rfl).symm
    | some b => exact congrArg Except.ok (compare_lt_iff_lt.mpr (WithBot.bot_lt_coe b.rank)).symm
  | some a =>
    cases b with
    | none => exact congrArg Except.ok (compare_gt_iff_gt.mpr (WithBot.bot_lt_coe a.rank)).symm
    | some b =>
      show compareComponents t (some _) (some _) = _
      rw [compareComponents_some ht, serializeComponent_eq ht (ha a rfl),
        serializeComponent_eq ht (hb b rfl), keyComparator_eq ht (ha a rfl) (hb b rfl)]
      exact congrArg Except.ok (Compare.map_eq hcoe a.rank b.rank).symm

/-! ## the bytes of a key -/

def piece (t : TypeRoot) : Option Datum → Bytes
  | none => []
  | some d =>
    if variableWidth t = true then
      encodeVarInt (serializeComponent t d).length ++ serializeComponent t d
    else serializeComponent t d

def body (values : List (TypeRoot × Option Datum)) : Bytes := values.flatMap fun v => piece v.1 v.2

theorem setNull_length (bytes : Bytes) (i : Nat) : (setNull bytes i).length = bytes.length :=
  length_set

variable {bytes : Bytes}

theorem nullAt_setNull {i j : Nat} (hi : 1 + i / 8 < bytes.length) :
    nullAt (setNull bytes i) j = true ↔ nullAt bytes j = true ∨ i = j := by
  unfold nullAt setNull
  by_cases hbyte : i / 8 = j / 8
  · have hget : (bytes.set (1 + i / 8) (bytes.getD (1 + i / 8) 0 ||| UInt8.ofNat (2 ^ (i % 8)))).getD
        (1 + j / 8) 0 = bytes.getD (1 + j / 8) 0 ||| UInt8.ofNat (2 ^ (i % 8)) := by
      rw [← hbyte, getD_eq_getElem?_getD, getElem?_set_self hi]
      rfl
    have hpow : (UInt8.ofNat (2 ^ (i % 8))).toNat = 2 ^ (i % 8) := by
      have hlt : 2 ^ (i % 8) < 2 ^ 8 := Nat.pow_lt_pow_right (by omega) (Nat.mod_lt _ (by omega))
      rw [UInt8.toNat_ofNat']
      exact Nat.mod_eq_of_lt hlt
    rw [hget, UInt8.toNat_or, hpow, Nat.testBit_or, Bool.or_eq_true, Nat.testBit_two_pow, decide_eq_true_iff]
    refine or_congr_right ⟨fun h => ?_, fun h => by rw [h]⟩
    omega
  · have hget : (bytes.set (1 + i / 8) (bytes.getD (1 + i / 8) 0 ||| UInt8.ofNat (2 ^ (i % 8)))).getD
        (1 + j / 8) 0 = bytes.getD (1 + j / 8) 0 := by
      rw [getD_eq_getElem?_getD, getElem?_set_ne (by omega), getD_eq_getElem?_getD]
    rw [hget]
    refine ⟨.inl, fun h => h.resolve_right fun h => ?_⟩
    exact hbyte (by rw [h])

theorem nullAt_append {more : Bytes} {j : Nat} (hj : 1 + j / 8 < bytes.length) :
    nullAt (bytes ++ more) j = nullAt bytes j := by
  unfold nullAt
  rw [getD_append _ _ _ _ hj]

variable {key : Bytes} {i : Nat}

theorem serializeFrom_cons {value : Option Datum} {rest : List (TypeRoot × Option Datum)}
    (h : serializeFrom i bytes ((t, value) :: rest) = .ok key) :
    (∀ d, value = some d → variableWidth t = true → (serializeComponent t d).length < 2 ^ 31) ∧
      (value = none ∧ serializeFrom (i + 1) (setNull bytes i) rest = .ok key ∨
        value ≠ none ∧ serializeFrom (i + 1) (bytes ++ piece t value) rest = .ok key) := by
  cases value with
  | none =>
    rw [serializeFrom] at h
    split at h
    · cases h
    · exact ⟨nofun, .inl ⟨rfl, h⟩⟩
  | some d =>
    rw [serializeFrom] at h
    split at h
    · cases h
    split at h
    · cases h
    dsimp only at h
    split at h
    · next hvar =>
      split at h
      · cases h
      · next hlen =>
        refine ⟨?_, .inr ⟨nofun, ?_⟩⟩
        · intro d' hd _
          obtain rfl := Option.some.inj hd
          exact Nat.lt_of_not_le hlen
        · unfold piece
          dsimp only
          rw [if_pos hvar]
          exact h
    · next hfix =>
      refine ⟨fun _ _ hvar => absurd hvar hfix, .inr ⟨nofun, ?_⟩⟩
      unfold piece
      dsimp only
      rw [if_neg hfix]
      exact h

variable {values : List (TypeRoot × Option Datum)} {head : Nat}

theorem serializeFrom_body (h : serializeFrom i bytes values = .ok key)
    (hhead : ∀ j < i + values.length, 1 + j / 8 < head) (hlen : head ≤ bytes.length) :
    key.drop head = bytes.drop head ++ body values := by
  induction values generalizing i bytes with
  | nil =>
    obtain rfl := Except.ok.inj h
    exact (append_nil _).symm
  | cons v values ih =>
    obtain ⟨t, value⟩ := v
    have hrest : ∀ j < i + 1 + values.length, 1 + j / 8 < head := by
      intro j hj
      apply hhead
      rw [length_cons]
      omega
    obtain ⟨-, ⟨rfl, hnext⟩ | ⟨-, hnext⟩⟩ := serializeFrom_cons h
    · rw [ih hnext hrest (by rw [setNull_length]; exact hlen)]
      congr 1
      exact drop_set_of_lt (hhead i (by rw [length_cons]; omega))
    · rw [ih hnext hrest (by rw [length_append]; omega), drop_append_of_le_length hlen, append_assoc]
      rfl

theorem serializeFrom_nulls (h : serializeFrom i bytes values = .ok key)
    (hhead : ∀ j < i + values.length, 1 + j / 8 < head) (hlen : head ≤ bytes.length) {j : Nat}
    (hj : 1 + j / 8 < head) :
    nullAt key j = true ↔ nullAt bytes j = true ∨ ∃ k t, j = i + k ∧ values[k]? = some (t, none) := by
  induction values generalizing i bytes with
  | nil =>
    obtain rfl := Except.ok.inj h
    refine ⟨.inl, fun h => h.resolve_right ?_⟩
    rintro ⟨k, t, -, hk⟩
    cases hk
  | cons v values ih =>
    obtain ⟨t, value⟩ := v
    have hrest : ∀ j < i + 1 + values.length, 1 + j / 8 < head := by
      intro j hj
      apply hhead
      rw [length_cons]
      omega
    have hi : 1 + i / 8 < bytes.length :=
      Nat.lt_of_lt_of_le (hhead i (by rw [length_cons]; omega)) hlen
    -- component `k` of the rest is component `k + 1`
    have hshift : (∃ k t, j = i + 1 + k ∧ values[k]? = some (t, none)) ↔
        ∃ k t', j = i + (k + 1) ∧ ((t, value) :: values)[k + 1]? = some (t', none) := by
      refine exists_congr fun k => exists_congr fun t' => and_congr_left fun _ => ?_
      omega
    obtain ⟨-, ⟨rfl, hnext⟩ | ⟨hsome, hnext⟩⟩ := serializeFrom_cons h
    · rw [ih hnext hrest (by rw [setNull_length]; exact hlen), nullAt_setNull hi, hshift, or_assoc]
      refine or_congr_right ⟨?_, ?_⟩
      · rintro (rfl | ⟨k, t', hk⟩)
        · exact ⟨0, t, rfl, rfl⟩
        · exact ⟨k + 1, t', hk⟩
      · rintro ⟨k, t', rfl, hk⟩
        cases k with
        | zero => exact .inl rfl
        | succ k => exact .inr ⟨k, t', rfl, hk⟩
    · rw [ih hnext hrest (by rw [length_append]; omega), nullAt_append (Nat.lt_of_lt_of_le hj hlen), hshift]
      refine or_congr_right ⟨?_, ?_⟩
      · rintro ⟨k, t', hk⟩
        exact ⟨k + 1, t', hk⟩
      · rintro ⟨k, t', rfl, hk⟩
        cases k with
        | zero =>
          injection hk with hk
          injection hk with _ hk
          exact absurd hk hsome
        | succ k => exact ⟨k, t', rfl, hk⟩

theorem serializeFrom_small (h : serializeFrom i bytes values = .ok key)
    (hmem : (t, some d) ∈ values) (hvar : variableWidth t = true) :
    (serializeComponent t d).length < 2 ^ 31 := by
  induction values generalizing i bytes with
  | nil => cases hmem
  | cons v values ih =>
    obtain ⟨t', value⟩ := v
    obtain ⟨hsmall, hcases⟩ := serializeFrom_cons h
    rcases mem_cons.mp hmem with heq | hmem
    · injection heq with ht hd
      subst ht
      exact hsmall d hd.symm hvar
    · rcases hcases with ⟨-, h⟩ | ⟨-, h⟩
      · exact ih h hmem
      · exact ih h hmem

structure IsKey (types : List TypeRoot) (values : List (Option Datum)) (key : Bytes) : Prop where
  tuple : TupleOk types values
  long : headerLen types.length ≤ key.length
  components : key.drop (headerLen types.length) = body (types.zip values)
  nulls : ∀ (i : Nat) (t : TypeRoot) (v : Option Datum), (types.zip values)[i]? = some (t, v) →
    (nullAt key i = true ↔ v = none)
  small : ∀ (t : TypeRoot) (d : Datum), (t, some d) ∈ types.zip values → variableWidth t = true →
    (serializeComponent t d).length < 2 ^ 31

theorem serializeFrom_length (h : serializeFrom i bytes values = .ok key) : bytes.length ≤ key.length := by
  induction values generalizing i bytes with
  | nil =>
    obtain rfl := Except.ok.inj h
    exact le_refl _
  | cons v values ih =>
    obtain ⟨t, value⟩ := v
    obtain ⟨-, ⟨-, hnext⟩ | ⟨-, hnext⟩⟩ := serializeFrom_cons h
    · have hle := ih hnext
      rwa [setNull_length] at hle
    · have hle := ih hnext
      rw [length_append] at hle
      omega

theorem nullAt_replicate (n j : Nat) : nullAt (List.replicate n 0) j = false := by
  have hget : (List.replicate n (0 : UInt8)).getD (1 + j / 8) 0 = 0 := by
    rw [getD_eq_getElem?_getD, getElem?_replicate]
    split <;> rfl
  unfold nullAt
  rw [hget]
  exact Nat.zero_testBit _

variable {values : List (Option Datum)} {types : List TypeRoot}

theorem serializeFrom_isKey (hvalues : TupleOk types values)
    (hbytes : serializeFrom 0 (List.replicate (headerLen values.length) 0) (types.zip values) = .ok bytes) :
    IsKey types values bytes := by
  have hlen : types.length = values.length := hvalues.length_eq
  have hzip : (types.zip values).length = values.length := by
    rw [length_zip, hlen, Nat.min_self]
  have hhead : ∀ j < 0 + (types.zip values).length, 1 + j / 8 < headerLen values.length := by
    intro j hj
    rw [hzip] at hj
    unfold headerLen
    omega
  have hreplicate : headerLen values.length
      ≤ (List.replicate (headerLen values.length) (0 : UInt8)).length := by
    rw [length_replicate]
  rw [← hlen] at hhead hreplicate hbytes
  refine ⟨hvalues, ?_, ?_, ?_, ?_⟩
  · have hle := serializeFrom_length hbytes
    rwa [length_replicate] at hle
  · rw [serializeFrom_body hbytes hhead hreplicate, drop_replicate, Nat.sub_self]
    rfl
  · intro i t v hi
    have hlt : i < (types.zip values).length := (List.getElem?_eq_some_iff.mp hi).1
    rw [serializeFrom_nulls hbytes hhead hreplicate (hhead i (by omega)), nullAt_replicate]
    constructor
    · rintro (hno | ⟨k, t', rfl, hk⟩)
      · cases hno
      · rw [Nat.zero_add, hk] at hi
        injection hi with hi
        injection hi with _ hv
        exact hv.symm
    · rintro rfl
      exact .inr ⟨i, t, (Nat.zero_add i).symm, hi⟩
  · intro t d hmem hvar
    exact serializeFrom_small hbytes hmem hvar

/-- **What `serialize` returns holds the tuple.** -/
theorem CompositeKeyCodec.serialize_isKey {codec : CompositeKeyCodec}
    (hvalues : TupleOk codec.types values) (h : codec.serialize values = .ok key) :
    IsKey codec.types values key := by
  unfold CompositeKeyCodec.serialize at h
  split at h
  · cases h
  obtain ⟨bytes, hbytes, h⟩ := bind_ok h
  obtain ⟨-, -, h⟩ := bind_ok h
  obtain rfl := Except.ok.inj h
  exact serializeFrom_isKey hvalues hbytes

/-! ## reading a key back -/

variable {offset : Nat} {part rest : Bytes}

theorem drop_add_of_drop (h : key.drop offset = part ++ rest) : key.drop (offset + part.length) = rest := by
  rw [← drop_drop, h, drop_left]

theorem add_le_of_drop (hle : offset ≤ key.length) (h : key.drop offset = part ++ rest) :
    offset + part.length ≤ key.length := by
  have hlen := congrArg List.length h
  rw [length_drop, length_append] at hlen
  omega

theorem readSlice_of_drop (hle : offset ≤ key.length) (h : key.drop offset = part ++ rest) :
    readSlice key offset part.length = some part := by
  unfold readSlice
  rw [if_pos (add_le_of_drop hle h), h, take_left]

variable {rest : Bytes}

theorem componentSpan_fixed (ht : t.isFloat = false) (hd : KeyOk t d)
    (hfix : variableWidth t = false) (h : key.drop offset = serializeComponent t d ++ rest) :
    componentSpan t key offset = .ok (offset, (serializeComponent t d).length) := by
  rw [serializeComponent_eq ht hd] at h ⊢
  have hstamp : ∀ {p : Nat} {m n : Int}, 0 ≤ n ∧ n < 1000000 → key.drop offset = timestampKey p m n ++ rest →
      (if 3 < p then (timestampLen key offset).map fun len => (offset, len)
        else (.ok (offset, 8) : Result (Nat × Nat))) = .ok (offset, (timestampKey p m n).length) := by
    intro p m n hn h
    unfold timestampKey at h ⊢
    rw [length_append, intLeBytes_length]
    split
    · next hp =>
      rw [if_pos hp, append_assoc] at h
      have hnanos := drop_add_of_drop h
      rw [intLeBytes_length] at hnanos
      unfold timestampLen
      rw [tryDecodeVarInt_encode hn.1 (by omega) hnanos]
      show Except.map _ (if _ then _ else _) = _
      rw [if_pos hn]
      rfl
    · rfl
  unfold componentSpan
  rw [if_neg (by rw [hfix]; exact Bool.false_ne_true)]
  cases hd with
  | float | double => cases ht
  | char | varChar | binary | varBinary => exact absurd hfix.symm Bool.false_ne_true
  | timestamp hm hn hc | localZonedTimestamp hm hn hc => exact hstamp hn h
  | @decimal p s q u hu hc =>
    have hp : p ≤ 18 := Nat.le_of_not_lt (of_decide_eq_false hfix)
    show Except.ok (offset, 8)
      = .ok (offset, (if p ≤ 18 then intLeBytes 8 u else encodeJavaBigInteger u).length)
    rw [if_pos hp, intLeBytes_length]
  | _ => rfl

theorem componentSpan_ok (ht : t.isFloat = false) (hd : KeyOk t d)
    (hsmall : variableWidth t = true → (serializeComponent t d).length < 2 ^ 31)
    (hle : offset ≤ key.length) (h : key.drop offset = piece t (some d) ++ rest) :
    ∃ start, componentSpan t key offset = .ok (start, (serializeComponent t d).length) ∧
      start ≤ key.length ∧ key.drop start = serializeComponent t d ++ rest := by
  unfold piece at h
  dsimp only at h
  by_cases hvar : variableWidth t = true
  · rw [if_pos hvar, append_assoc] at h
    have hlen := hsmall hvar
    refine ⟨_, ?_, add_le_of_drop hle h, drop_add_of_drop h⟩
    unfold componentSpan
    rw [if_pos hvar, tryDecodeVarInt_encode (Int.natCast_nonneg _) (by exact_mod_cast hlen) h]
    have hnonneg : ¬ ((serializeComponent t d).length : Int) < 0 := by omega
    simp only [bind, Except.bind, if_neg hnonneg, Int.toNat_natCast]
    rfl
  · rw [if_neg hvar] at h
    exact ⟨offset, componentSpan_fixed ht hd (by rwa [Bool.not_eq_true] at hvar) h, hle, h⟩

/-- the cursor has read `i` components of the key -/
structure Reads (types : List TypeRoot) (values : List (Option Datum)) (key : Bytes) (c : Cursor)
    (i : Nat) : Prop where
  sameKey : c.key = key
  position : c.position = i
  inside : c.offset ≤ key.length
  rest : key.drop c.offset = body ((types.zip values).drop i)

variable {v : Option Datum} {order : Ordering}

section
variable {types : List TypeRoot} {values : List (Option Datum)} {key : Bytes}

theorem IsKey.cursor (h : IsKey types values key) :
    ∃ c, CompositeKeyCodec.cursor ⟨types⟩ key = .ok c ∧ Reads types values key c 0 := by
  exact ⟨_, if_neg (Nat.not_lt.mpr h.long), rfl, rfl, h.long, h.components⟩

variable {t : TypeRoot}

theorem TupleOk.component (h : TupleOk types values)
    (hi : (types.zip values)[i]? = some (t, v)) : ComponentOk t v := by
  have hmem := mem_of_getElem? hi
  exact forall₂_zip h hmem

variable {c : Cursor}

theorem nextComponent_null (ht : types[c.position]? = some t) (hnull : nullAt c.key c.position = true) :
    CompositeKeyCodec.nextComponent ⟨types⟩ c = .ok (none, { c with position := c.position + 1 }) := by
  unfold CompositeKeyCodec.nextComponent
  simp only [ht, hnull, if_true]

theorem nextComponent_value (ht : types[c.position]? = some t)
    (hnull : nullAt c.key c.position = false) {start len : Nat}
    (hspan : componentSpan t c.key c.offset = .ok (start, len)) {component : Bytes}
    (hslice : readSlice c.key start len = some component)
    (hself : compareComponents t (some component) (some component) = .ok order) :
    CompositeKeyCodec.nextComponent ⟨types⟩ c
      = .ok (some component, ⟨c.key, c.position + 1, start + len⟩) := by
  unfold CompositeKeyCodec.nextComponent
  simp only [ht, hnull, hspan, bind, Except.bind, hslice, hself]
  rfl

/-- **A cursor yields the components of the tuple.** -/
theorem Reads.next (hc : Reads types values key c i)
    (hkey : IsKey types values key) (htypes : IndexTypes types)
    (hi : (types.zip values)[i]? = some (t, v)) :
    ∃ c', CompositeKeyCodec.nextComponent ⟨types⟩ c = .ok (v.map (serializeComponent t), c') ∧
      Reads types values key c' (i + 1) := by
  have ht : types[i]? = some t := (getElem?_zip_eq_some.mp hi).1
  have hfloat := (htypes t (mem_of_getElem? ht)).2
  have hok := hkey.tuple.component hi
  -- what is left begins with the bytes of this component
  have hrest : key.drop c.offset = piece t v ++ body ((types.zip values).drop (i + 1)) := by
    rw [hc.rest, drop_eq_getElem?_toList_append, hi]
    rfl
  have hpos : types[c.position]? = some t := by rw [hc.position]; exact ht
  have hbit : nullAt c.key c.position = true ↔ v = none := by
    rw [hc.sameKey, hc.position]
    exact hkey.nulls i t v hi
  cases v with
  | none =>
    refine ⟨_, nextComponent_null hpos (hbit.mpr rfl), hc.sameKey, ?_, hc.inside, hrest⟩
    rw [← hc.position]
  | some d =>
    have hd := hok d rfl
    obtain ⟨start, hspan, hin, hstart⟩ := componentSpan_ok hfloat hd
      (hkey.small t d (mem_of_getElem? hi)) hc.inside hrest
    have hself := compareComponents_eq hfloat hok hok
    have hnull : nullAt c.key c.position = false :=
      Bool.eq_false_iff.mpr fun hnull => nomatch hbit.mp hnull
    have hslice := readSlice_of_drop hin hstart
    rw [← hc.sameKey] at hspan hslice
    refine ⟨_, nextComponent_value hpos hnull hspan hslice hself, hc.sameKey, ?_, ?_, ?_⟩
    · rw [← hc.position]
    · exact add_le_of_drop hin hstart
    · exact drop_add_of_drop hstart

theorem Reads.finishFrom (hc : Reads types values key c i)
    (hkey : IsKey types values key) (htypes : IndexTypes types) (left : Nat)
    (hleft : i + left = types.length) : CompositeKeyCodec.finishFrom ⟨types⟩ left c = .ok () := by
  have hlen : (types.zip values).length = types.length := by
    rw [length_zip, hkey.tuple.length_eq, Nat.min_self]
  induction left generalizing c i with
  | zero =>
    have hend := hc.rest
    have hall : (types.zip values).drop i = [] :=
      drop_eq_nil_of_le (Nat.le_of_eq (hlen.trans hleft.symm))
    rw [hall] at hend
    have hle : key.length ≤ c.offset := drop_eq_nil_iff.mp hend
    refine if_pos ?_
    rw [hc.sameKey]
    exact Nat.le_antisymm hc.inside hle
  | succ left ih =>
    obtain ⟨⟨t, v⟩, hi⟩ : ∃ x, (types.zip values)[i]? = some x :=
      ⟨_, getElem?_eq_getElem (by rw [hlen]; omega)⟩
    obtain ⟨c', hnext, hc'⟩ := hc.next hkey htypes hi
    rw [CompositeKeyCodec.finishFrom, hnext]
    exact ih hc' (by omega)

theorem Reads.finish (hc : Reads types values key c i)
    (hkey : IsKey types values key) (htypes : IndexTypes types) (hi : i ≤ types.length) :
    CompositeKeyCodec.finish ⟨types⟩ c = .ok () := by
  refine hc.finishFrom hkey htypes _ ?_
  rw [hc.position]
  exact Nat.add_sub_cancel' hi

end

/-! ## keys compare as tuples -/

theorem zip_getElem? (h : TupleOk types values) (hi : i < types.length) :
    ∃ t v, types[i]? = some t ∧ values[i]? = some v ∧ (types.zip values)[i]? = some (t, v) := by
  have hv : i < values.length := h.length_eq ▸ hi
  refine ⟨types[i], values[i], getElem?_eq_getElem hi, getElem?_eq_getElem hv, ?_⟩
  exact getElem?_zip_eq_some.mpr ⟨getElem?_eq_getElem hi, getElem?_eq_getElem hv⟩

theorem places_drop (h : values[i]? = some v) :
    places (values.drop i) = componentPlace v :: places (values.drop (i + 1)) := by
  rw [drop_eq_getElem?_toList_append, h]
  rfl

section
variable {types : List TypeRoot} {a b : List (Option Datum)} {ka kb : Bytes}

theorem compareComponent_eq (htypes : IndexTypes types) {t : TypeRoot} {i : Nat}
    (ht : types[i]? = some t) {v w : Option Datum} (hv : ComponentOk t v) (hw : ComponentOk t w) :
    CompositeKeyCodec.compareComponent ⟨types⟩ i (v.map (serializeComponent t))
      (w.map (serializeComponent t)) = .ok (compare (componentPlace v) (componentPlace w)) := by
  unfold CompositeKeyCodec.compareComponent
  dsimp only
  rw [ht]
  exact compareComponents_eq (htypes t (mem_of_getElem? ht)).2 hv hw

theorem then_of_ne {o o' : Ordering} (h : o ≠ .eq) : o.then o' = o := by
  cases o
  · rfl
  · exact absurd rfl h
  · rfl

theorem compareFrom_step {left i : Nat} {ca cb ca' cb' : Cursor} {va vb : Component}
    (ha : CompositeKeyCodec.nextComponent ⟨types⟩ ca = .ok (va, ca'))
    (hb : CompositeKeyCodec.nextComponent ⟨types⟩ cb = .ok (vb, cb'))
    (horder : CompositeKeyCodec.compareComponent ⟨types⟩ i va vb = .ok order) :
    CompositeKeyCodec.compareFrom ⟨types⟩ (left + 1) i ca cb = if order ≠ .eq then .ok (order, ca', cb')
        else CompositeKeyCodec.compareFrom ⟨types⟩ left (i + 1) ca' cb' := by
  rw [CompositeKeyCodec.compareFrom]
  simp only [ha, hb, horder, bind, Except.bind]
  rfl

theorem compareFrom_eq (htypes : IndexTypes types) (ha : IsKey types a ka) (hb : IsKey types b kb)
    (left : Nat) (hleft : i + left = types.length) {ca cb : Cursor}
    (hca : Reads types a ka ca i) (hcb : Reads types b kb cb i) :
    ∃ ca' cb' j, j ≤ types.length ∧ Reads types a ka ca' j ∧ Reads types b kb cb' j ∧
      CompositeKeyCodec.compareFrom ⟨types⟩ left i ca cb
        = .ok (compare (TupleBounds.ofTuple (places (a.drop i)))
            (TupleBounds.ofTuple (places (b.drop i))), ca', cb') := by
  induction left generalizing i ca cb with
  | zero =>
    refine ⟨ca, cb, i, by omega, hca, hcb, ?_⟩
    have hnil : ∀ {v : List (Option Datum)}, TupleOk types v → v.drop i = [] := by
      intro v hv
      refine drop_eq_nil_of_le ?_
      rw [← hv.length_eq]
      omega
    rw [hnil ha.tuple, hnil hb.tuple, compare_eq_iff_eq.mpr rfl]
    rfl
  | succ left ih =>
    have hi : i < types.length := by omega
    obtain ⟨t, v, ht, hv, hzv⟩ := zip_getElem? ha.tuple hi
    obtain ⟨t', w, ht', hw, hzw⟩ := zip_getElem? hb.tuple hi
    obtain rfl : t = t' := Option.some.inj (ht.symm.trans ht')
    obtain ⟨ca', hnexta, hca'⟩ := hca.next ha htypes hzv
    obtain ⟨cb', hnextb, hcb'⟩ := hcb.next hb htypes hzw
    have horder := compareComponent_eq htypes ht (ha.tuple.component hzv) (hb.tuple.component hzw)
    rw [compareFrom_step hnexta hnextb horder, places_drop hv, places_drop hw, TupleBounds.tuple_cons]
    by_cases heq : compare (componentPlace v) (componentPlace w) = .eq
    · rw [if_neg (not_not.mpr heq), heq]
      exact ih (by omega) hca' hcb'
    · refine ⟨ca', cb', i + 1, hi, hca', hcb', ?_⟩
      rw [if_pos heq]
      rw [then_of_ne heq]

/-- **Keys compare as tuples do, component by component with NULL first.** -/
theorem compareKeys_eq (htypes : IndexTypes types) (ha : IsKey types a ka) (hb : IsKey types b kb) :
    CompositeKeyCodec.compareKeys ⟨types⟩ ka kb
      = .ok (compare (TupleBounds.ofTuple (places a)) (TupleBounds.ofTuple (places b))) := by
  obtain ⟨ca, hca, hreada⟩ := ha.cursor
  obtain ⟨cb, hcb, hreadb⟩ := hb.cursor
  obtain ⟨ca', cb', j, hj, hreada', hreadb', hcompare⟩ :=
    compareFrom_eq htypes ha hb types.length (Nat.zero_add _) hreada hreadb
  have hfa := hreada'.finish ha htypes hj
  have hfb := hreadb'.finish hb htypes hj
  unfold CompositeKeyCodec.compareKeys
  simp only [hca, hcb, bind, Except.bind, hcompare, hfa, hfb]
  rfl

end

end Paimon.BTree
