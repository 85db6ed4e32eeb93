import Paimon.BTree.CompositePredicate

/-!
# Keys are an order isomorphism

`btree/key_serde.rs` and `btree/composite_key.rs` over the types without floats: normalized literals
have the order of their keys, and equal keys are equal as bytes.  A composite key validates, and reading
it returns the components.

* `serializeDatum_inj`: values of one rank have the same bytes;
* `Normalizes`: a tuple whose components are literals in the layout of their columns;
* `tupleCmp`: the order of tuples, component by component with NULL first;
* `readKey`: what a cursor reads from a key;
* `key_encoding_order_isomorphism`: the main result.
-/

namespace Paimon.BTree

open List

/-! ## one column -/

theorem rat_singleton_inj {a b : ℚ} (h : Compare.toLexList [a] = Compare.toLexList [b]) : a = b :=
  (List.cons.inj h).1

theorem int_singleton_inj {a b : Int} (h : Compare.toLexList [(a : ℚ)] = Compare.toLexList [(b : ℚ)]) :
    a = b :=
  Int.cast_injective (rat_singleton_inj h)

theorem nat_map_inj {α : Type} {f : α → Nat} (hf : Function.Injective f) {l l' : List α}
    (h : Compare.toLexList ((l.map f).map (Nat.cast : Nat → ℚ)) =
      Compare.toLexList ((l'.map f).map (Nat.cast : Nat → ℚ))) : l = l' :=
  map_injective_iff.mpr hf (map_injective_iff.mpr Nat.cast_injective h)

/-- **Values of one rank have the same key.** -/
theorem serializeDatum_inj {t : TypeRoot} (ht : t.isFloat = false) {a b : Datum} (ha : KeyOk t a)
    (hb : KeyOk t b) (h : a.rank = b.rank) : serializeDatum a t = serializeDatum b t := by
  cases ha with
  | @boolean v =>
    cases hb with
    | @boolean w =>
      have hvw := rat_singleton_inj h
      cases v <;> cases w <;> first | rfl | exact absurd hvw (by decide)
  | tinyInt | smallInt | int | bigInt | date | time =>
    cases hb
    rw [int_singleton_inj h]
  | float | double => cases ht
  | char | varChar =>
    cases hb
    rw [nat_map_inj (fun a b hab => Char.toNat_inj.mp hab) h]
  | binary | varBinary =>
    cases hb
    rw [nat_map_inj (fun a b hab => UInt8.toNat_inj.mp hab) h]
  | @decimal p s q u =>
    cases hb with
    | @decimal _ _ q' v =>
      have huv : decimalValue u s = decimalValue v s := rat_singleton_inj h
      unfold decimalValue at huv
      have hpos : (10 : ℚ) ^ s ≠ 0 := by positivity
      obtain rfl : u = v := Int.cast_injective ((div_left_inj' hpos).mp huv)
      rfl
  | timestamp | localZonedTimestamp =>
    cases hb
    obtain ⟨hm, hn⟩ := List.cons.inj h
    rw [Int.cast_injective hm, int_singleton_inj hn]

structure Literal (t : TypeRoot) (l l' : Datum) : Prop where
  ofType : datumMatchesType l t = true
  sized : Sized l
  accepted : normalizeKeyLiteral l t = some l'

section
variable {t : TypeRoot} {a b a' b' : Datum}

theorem Literal.keyOk (ht : supportedType t = true) (h : Literal t a a') : KeyOk t a' ∧ a'.rank = a.rank :=
  let ⟨hok, hrank, _⟩ := normalizeKeyLiteral_eq ht h.ofType h.sized h.accepted
  ⟨hok, hrank⟩

theorem Literal.datumCmp (ht : supportedType t = true) (hfloat : t.isFloat = false) (ha : Literal t a a')
    (hb : Literal t b b') : datumCmp a b = some (compare a.rank b.rank) := by
  have hka := literalKind_of_matches ht ha.ofType
  have hkb := literalKind_of_matches ht hb.ofType
  rw [datumCmp_eq (kind_ordered hfloat hka), if_pos (Option.some.inj (hka.symm.trans hkb))]

theorem Literal.keyComparator (ht : supportedType t = true) (hfloat : t.isFloat = false)
    (ha : Literal t a a') (hb : Literal t b b') :
    keyComparator t (serializeDatum a' t) (serializeDatum b' t) = .ok (compare a.rank b.rank) := by
  obtain ⟨hoka, hra⟩ := ha.keyOk ht
  obtain ⟨hokb, hrb⟩ := hb.keyOk ht
  rw [keyComparator_eq hfloat hoka hokb, hra, hrb]

theorem Literal.eq_iff (ht : supportedType t = true) (hfloat : t.isFloat = false) (ha : Literal t a a')
    (hb : Literal t b b') :
    compare a.rank b.rank = .eq ↔ serializeDatum a' t = serializeDatum b' t := by
  obtain ⟨hoka, hra⟩ := ha.keyOk ht
  obtain ⟨hokb, hrb⟩ := hb.keyOk ht
  constructor
  · intro h
    refine serializeDatum_inj hfloat hoka hokb ?_
    rw [hra, hrb]
    exact compare_eq_iff_eq.mp h
  · intro h
    have hself := ha.keyComparator ht hfloat ha
    have hboth := ha.keyComparator ht hfloat hb
    rw [← h] at hboth
    rw [← Except.ok.inj (hself.symm.trans hboth)]
    exact compare_eq_iff_eq.mpr rfl

end

/-! ## several columns -/

/-- the components are literals of their columns, or NULL -/
inductive Normalizes : List TypeRoot → List (Option Datum) → List (Option Datum) → Prop
  | nil : Normalizes [] [] []
  | null {t ts as as'} : Normalizes ts as as' → Normalizes (t :: ts) (none :: as) (none :: as')
  | value {t ts a a' as as'} : Literal t a a' → Normalizes ts as as' →
      Normalizes (t :: ts) (some a :: as) (some a' :: as')

def componentCmp : Option Datum → Option Datum → Option Ordering
  | none, none => some .eq
  | none, some _ => some .lt
  | some _, none => some .gt
  | some a, some b => Paimon.datumCmp a b

/-- the first components that differ decide -/
def tupleCmp : List (Option Datum) → List (Option Datum) → Option Ordering
  | a :: as, b :: bs =>
    match componentCmp a b with
    | some .eq => tupleCmp as bs
    | order => order
  | _, _ => some .eq

def readFrom (codec : CompositeKeyCodec) : Nat → Cursor → Result (List Component × Cursor)
  | 0, c => .ok ([], c)
  | left + 1, c =>
    codec.nextComponent c >>= fun (component, c) =>
      readFrom codec left c >>= fun (rest, c) => .ok (component :: rest, c)

/-- the components of a key, which has to end behind them -/
def readKey (codec : CompositeKeyCodec) (key : Bytes) : Result (List Component) :=
  codec.cursor key >>= fun c =>
    readFrom codec codec.types.length c >>= fun (read, c) =>
      codec.finish c >>= fun _ => .ok read

section
variable {types : List TypeRoot} {as as' bs bs' : List (Option Datum)} {ka kb : Bytes}

theorem Normalizes.tupleOk (htypes : IndexTypes types) (h : Normalizes types as as') :
    TupleOk types as' ∧ places as' = places as := by
  induction h with
  | nil => exact ⟨.nil, rfl⟩
  | null _ ih =>
    obtain ⟨hok, hplaces⟩ := ih (forall_mem_cons.mp htypes).2
    refine ⟨.cons (fun d hd => by cases hd) hok, ?_⟩
    exact congrArg (⊥ :: ·) hplaces
  | value hl _ ih =>
    obtain ⟨hok, hplaces⟩ := ih (forall_mem_cons.mp htypes).2
    obtain ⟨hkey, hrank⟩ := hl.keyOk (htypes _ mem_cons_self).1
    refine ⟨.cons (fun d hd => Option.some.inj hd ▸ hkey) hok, ?_⟩
    show _ :: places _ = _ :: places _
    rw [hplaces]
    exact congrArg (fun r : Compare.LexList ℚ => (r : ComponentPlace) :: _) hrank

/-- **Tuples compare as their places do.** -/
theorem Normalizes.tupleCmp_eq (htypes : IndexTypes types) (ha : Normalizes types as as')
    (hb : Normalizes types bs bs') :
    tupleCmp as bs = some (compare (TupleBounds.ofTuple (places as)) (TupleBounds.ofTuple (places bs))) := by
  have hcoe : StrictMono fun r : Compare.LexList ℚ => (r : ComponentPlace) :=
    fun _ _ h => WithBot.coe_lt_coe.mpr h
  -- a component that differs decides, an equal one hands over to the rest
  have hcons : ∀ (a b : Option Datum) (as bs : List (Option Datum)),
      componentCmp a b = some (compare (componentPlace a) (componentPlace b)) →
      tupleCmp as bs = some (compare (TupleBounds.ofTuple (places as)) (TupleBounds.ofTuple (places bs))) →
      tupleCmp (a :: as) (b :: bs) = some (compare (TupleBounds.ofTuple (places (a :: as)))
        (TupleBounds.ofTuple (places (b :: bs)))) := by
    intro a b as bs hhead htail
    show _ = some (compare (TupleBounds.ofTuple (componentPlace a :: places as))
      (TupleBounds.ofTuple (componentPlace b :: places bs)))
    rw [tupleCmp, hhead, TupleBounds.tuple_cons]
    cases compare (componentPlace a) (componentPlace b) with
    | lt => rfl
    | eq => exact htail
    | gt => rfl
  induction ha generalizing bs bs' with
  | nil =>
    cases hb
    exact congrArg some (compare_eq_iff_eq.mpr rfl).symm
  | null _ ih =>
    have htypes' : IndexTypes _ := (forall_mem_cons.mp htypes).2
    cases hb with
    | null hb => exact hcons _ _ _ _ (congrArg some (compare_eq_iff_eq.mpr rfl).symm) (ih htypes' hb)
    | value hl hb =>
      exact hcons _ _ _ _ (congrArg some (compare_lt_iff_lt.mpr (WithBot.bot_lt_coe _)).symm) (ih htypes' hb)
  | value hl _ ih =>
    have htypes' : IndexTypes _ := (forall_mem_cons.mp htypes).2
    obtain ⟨hsupported, hfloat⟩ := htypes _ mem_cons_self
    cases hb with
    | null hb =>
      exact hcons _ _ _ _ (congrArg some (compare_gt_iff_gt.mpr (WithBot.bot_lt_coe _)).symm) (ih htypes' hb)
    | value hl' hb =>
      refine hcons _ _ _ _ ?_ (ih htypes' hb)
      show Paimon.datumCmp _ _ = _
      rw [hl.datumCmp hsupported hfloat hl']
      exact congrArg some (Compare.map_eq hcoe _ _).symm

theorem serializeFrom_congr (htypes : IndexTypes types) (ha : Normalizes types as as')
    (hb : Normalizes types bs bs') (heq : places as = places bs) (i : Nat) (bytes : Bytes) :
    serializeFrom i bytes (types.zip as') = serializeFrom i bytes (types.zip bs') := by
  induction ha generalizing bs bs' i bytes with
  | nil =>
    cases hb
    rfl
  | null _ ih =>
    have htypes' : IndexTypes _ := (forall_mem_cons.mp htypes).2
    cases hb with
    | null hb =>
      rw [zip_cons_cons, zip_cons_cons, serializeFrom, serializeFrom, ih htypes' hb (List.cons.inj heq).2]
    | value hl hb => exact absurd (List.cons.inj heq).1 (WithBot.bot_ne_coe)
  | @value t _ a a' _ _ hl _ ih =>
    have htypes' : IndexTypes _ := (forall_mem_cons.mp htypes).2
    obtain ⟨hsupported, hfloat⟩ := htypes t mem_cons_self
    cases hb with
    | null hb => exact absurd (List.cons.inj heq).1 (WithBot.coe_ne_bot)
    | @value _ _ b b' _ _ hl' hb =>
      obtain ⟨hhead, htail⟩ := List.cons.inj heq
      have hrank : a.rank = b.rank := WithBot.coe_injective hhead
      obtain ⟨hoka, -⟩ := hl.keyOk hsupported
      obtain ⟨hokb, -⟩ := hl'.keyOk hsupported
      have hbytes : serializeComponent t a' = serializeComponent t b' := by
        rw [serializeComponent_eq hfloat hoka, serializeComponent_eq hfloat hokb]
        exact (hl.eq_iff hsupported hfloat hl').mp (compare_eq_iff_eq.mpr hrank)
      rw [zip_cons_cons, zip_cons_cons, serializeFrom, serializeFrom, hoka.matches, hokb.matches, hbytes]
      simp only [ih htypes' hb htail]

theorem serialize_congr (htypes : IndexTypes types) (ha : Normalizes types as as')
    (hb : Normalizes types bs bs') (heq : places as = places bs) :
    CompositeKeyCodec.serialize ⟨types⟩ as' = CompositeKeyCodec.serialize ⟨types⟩ bs' := by
  have hla := ((ha.tupleOk htypes).1).length_eq
  have hlb := ((hb.tupleOk htypes).1).length_eq
  have hnil : as' = [] ↔ bs' = [] := by
    rw [← length_eq_zero_iff, ← length_eq_zero_iff, ← hla, ← hlb]
  unfold CompositeKeyCodec.serialize
  simp only [hnil, ← hla, ← hlb, serializeFrom_congr htypes ha hb heq]

variable {values : List (Option Datum)}

/-- **A cursor reads the components of a key.** -/
theorem Reads.readFrom {key : Bytes} (hkey : IsKey types values key)
    (htypes : IndexTypes types) (left : Nat) {c : Cursor} {i : Nat} (hc : Reads types values key c i)
    (hleft : i + left = types.length) :
    ∃ c', BTree.readFrom ⟨types⟩ left c = .ok
        (((types.zip values).drop i).map fun p => p.2.map (serializeComponent p.1), c') ∧
      Reads types values key c' types.length := by
  have hlen : (types.zip values).length = types.length := by
    rw [length_zip, hkey.tuple.length_eq, Nat.min_self]
  induction left generalizing c i with
  | zero =>
    obtain rfl : i = types.length := by omega
    refine ⟨c, ?_, hc⟩
    rw [drop_eq_nil_of_le hlen.le]
    rfl
  | succ left ih =>
    obtain ⟨t, v, -, -, hi⟩ := zip_getElem? hkey.tuple (show i < types.length by omega)
    obtain ⟨c', hnext, hc'⟩ := hc.next hkey htypes hi
    obtain ⟨c'', hread, hc''⟩ := ih hc' (by omega)
    refine ⟨c'', ?_, hc''⟩
    rw [BTree.readFrom, hnext, drop_eq_getElem?_toList_append, hi]
    simp only [bind, Except.bind, hread]
    rfl

theorem IsKey.reads_back {key : Bytes} (hkey : IsKey types values key) (htypes : IndexTypes types) :
    CompositeKeyCodec.validateKey ⟨types⟩ key = .ok () ∧ BTree.readKey ⟨types⟩ key =
        .ok ((types.zip values).map fun p => p.2.map (serializeComponent p.1)) := by
  obtain ⟨c, hcursor, hc⟩ := hkey.cursor
  obtain ⟨c', hread, hc'⟩ := hc.readFrom hkey htypes types.length (Nat.zero_add _)
  have hfinish := hc.finish hkey htypes (Nat.zero_le _)
  have hfinish' := hc'.finish hkey htypes (le_refl _)
  rw [drop_zero] at hread
  constructor
  · unfold CompositeKeyCodec.validateKey
    rw [hcursor]
    exact hfinish
  · unfold BTree.readKey
    simp only [hcursor, bind, Except.bind, hread, hfinish']

theorem serializeFrom_ok {values : List (TypeRoot × Option Datum)}
    (hvalues : ∀ p ∈ values, supportedType p.1 = true ∧ ComponentOk p.1 p.2 ∧
      ∀ d, p.2 = some d → variableWidth p.1 = true → (serializeComponent p.1 d).length < 2 ^ 31)
    (i : Nat) (bytes : Bytes) : ∃ key, serializeFrom i bytes values = .ok key := by
  induction values generalizing i bytes with
  | nil => exact ⟨bytes, rfl⟩
  | cons p values ih =>
    obtain ⟨t, value⟩ := p
    obtain ⟨hsupported, hok, hsmall⟩ := hvalues (t, value) mem_cons_self
    have ih := ih (forall_mem_cons.mp hvalues).2
    cases value with
    | none =>
      rw [serializeFrom, hsupported, if_neg Bool.true_eq_false_eq_False]
      exact ih _ _
    | some d =>
      rw [serializeFrom, hsupported, if_neg Bool.true_eq_false_eq_False]
      simp only [(hok d rfl).matches, Bool.true_eq_false, if_false]
      split
      · next hvar =>
        have hlt : ¬ 2 ^ 31 ≤ (serializeComponent t d).length := Nat.not_le.mpr (hsmall d rfl hvar)
        rw [if_neg hlt]
        exact ih _ _
      · exact ih _ _

theorem serialize_ok (htypes : IndexTypes types) (hne : types ≠ []) (hvalues : TupleOk types values)
    (hsmall : ∀ p ∈ types.zip values, ∀ d, p.2 = some d → variableWidth p.1 = true →
      (serializeComponent p.1 d).length < 2 ^ 31) :
    ∃ key, CompositeKeyCodec.serialize ⟨types⟩ values = .ok key := by
  have hlen := hvalues.length_eq
  obtain ⟨key, hkey⟩ := serializeFrom_ok
    (fun p (hp : p ∈ types.zip values) => ⟨(htypes p.1 (of_mem_zip hp).1).1, forall₂_zip hvalues hp, hsmall p hp⟩) 0
    (List.replicate (headerLen values.length) 0)
  refine ⟨key, ?_⟩
  have hvalid := ((serializeFrom_isKey hvalues hkey).reads_back htypes).1
  have harity : ¬ (values.length ≠ types.length ∨ values = []) := by
    rintro (h | rfl)
    · exact h hlen.symm
    · exact hne (length_eq_zero_iff.mp hlen)
  unfold CompositeKeyCodec.serialize
  rw [if_neg harity]
  simp only [hkey, bind, Except.bind, hvalid]
  rfl

end

/-- **Main result.**  Keys of literals of a column compare without failing, as the literals do, and equal
literals have the same bytes.  A tuple of such literals is written unless a component is too large; its key
validates, reading it returns the components, and two keys compare as the tuples do, component by component
with NULL first. -/
theorem key_encoding_order_isomorphism :
    (∀ (t : TypeRoot) (a b a' b' : Datum), supportedType t = true → t.isFloat = false →
      Literal t a a' → Literal t b b' →
      ∃ order, datumCmp a b = some order ∧
        keyComparator t (serializeDatum a' t) (serializeDatum b' t) = .ok order ∧
        (order = .eq ↔ serializeDatum a' t = serializeDatum b' t)) ∧
    ∀ (types : List TypeRoot) (as as' : List (Option Datum)), IndexTypes types → types ≠ [] →
      Normalizes types as as' →
      ((∀ p ∈ types.zip as', ∀ d, p.2 = some d → variableWidth p.1 = true →
          (serializeComponent p.1 d).length < 2 ^ 31) →
        ∃ key, CompositeKeyCodec.serialize ⟨types⟩ as' = .ok key) ∧
      ∀ ka, CompositeKeyCodec.serialize ⟨types⟩ as' = .ok ka →
        CompositeKeyCodec.validateKey ⟨types⟩ ka = .ok () ∧
        readKey ⟨types⟩ ka = .ok ((types.zip as').map fun p => p.2.map (serializeComponent p.1)) ∧
        ∀ bs bs' kb, Normalizes types bs bs' → CompositeKeyCodec.serialize ⟨types⟩ bs' = .ok kb →
          ∃ order, tupleCmp as bs = some order ∧
            CompositeKeyCodec.compareKeys ⟨types⟩ ka kb = .ok order ∧ (order = .eq → ka = kb) := by
  constructor
  · intro t a b a' b' ht hfloat ha hb
    exact ⟨_, ha.datumCmp ht hfloat hb, ha.keyComparator ht hfloat hb, ha.eq_iff ht hfloat hb⟩
  · intro types as as' htypes hne ha
    obtain ⟨hoka, hpa⟩ := ha.tupleOk htypes
    refine ⟨serialize_ok htypes hne hoka, fun ka hka => ?_⟩
    have hkeya := CompositeKeyCodec.serialize_isKey hoka hka
    obtain ⟨hvalid, hcomponents⟩ := hkeya.reads_back htypes
    refine ⟨hvalid, hcomponents, fun bs bs' kb hb hkb => ?_⟩
    obtain ⟨hokb, hpb⟩ := hb.tupleOk htypes
    have hkeyb := CompositeKeyCodec.serialize_isKey hokb hkb
    refine ⟨_, ha.tupleCmp_eq htypes hb, ?_, fun heq => ?_⟩
    · rw [compareKeys_eq htypes hkeya hkeyb, hpa, hpb]
    · have hplaces : places as = places bs := by
        have htuples := compare_eq_iff_eq.mp heq
        exact TupleBounds.ofTuple_injective htuples
      rw [serialize_congr htypes ha hb hplaces] at hka
      exact Except.ok.inj (hka.symm.trans hkb)

/-- -2.00 and 1.5 in a column DECIMAL(20, 2), alone and behind a NULL -/
theorem key_encoding_decimals : (∃ order, datumCmp (.decimal (-200) 5 2) (.decimal 15 2 1) = some order ∧
      keyComparator (.decimal 20 2) (serializeDatum (.decimal (-200) 20 2) (.decimal 20 2))
        (serializeDatum (.decimal 150 20 2) (.decimal 20 2)) = .ok order ∧
      (order = .eq ↔ serializeDatum (.decimal (-200) 20 2) (.decimal 20 2) =
        serializeDatum (.decimal 150 20 2) (.decimal 20 2))) ∧
    ∃ key, CompositeKeyCodec.serialize ⟨[.int, .decimal 20 2]⟩ [none, some (.decimal 150 20 2)] = .ok key ∧
      readKey ⟨[.int, .decimal 20 2]⟩ key = .ok [none, some [0, 150]] := by
  have hlow : Literal (.decimal 20 2) (.decimal (-200) 5 2) (.decimal (-200) 20 2) :=
    ⟨rfl, by unfold Sized FitsBytes; decide, by decide +kernel⟩
  have hhigh : Literal (.decimal 20 2) (.decimal 15 2 1) (.decimal 150 20 2) :=
    ⟨rfl, by unfold Sized FitsBytes; decide, by decide +kernel⟩
  refine ⟨key_encoding_order_isomorphism.1 _ _ _ _ _ rfl rfl hlow hhigh, ?_⟩
  have htypes : IndexTypes [.int, .decimal 20 2] := by
    unfold IndexTypes
    decide
  have htuple := key_encoding_order_isomorphism.2 [.int, .decimal 20 2] [none, some (.decimal 15 2 1)]
    [none, some (.decimal 150 20 2)] htypes (by decide) (.null (.value hhigh .nil))
  obtain ⟨key, hkey⟩ := htuple.1 (by decide +kernel)
  refine ⟨key, hkey, (htuple.2 key hkey).2.1.trans ?_⟩
  decide +kernel

end Paimon.BTree
