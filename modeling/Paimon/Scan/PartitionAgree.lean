import Paimon.Predicate.Trees
import Paimon.Scan.PartitionFilter
import Paimon.Spec.BinaryRowRoundTrip

/-!
# A set of partitions accepts what its predicate accepts

A predicate with equalities on every partition field becomes the set of the rows that can satisfy it, as bytes
(`PartitionFilter::from_predicate`).  On rows the builder writes the two agree: values that are equal are written
as the same bytes.

* `eq_of_datumEq`: literals of one type that compare as equal are equal, floats apart;
* `TrueOn`, `collect_trueOn`: candidates and residuals together say what the predicate says;
* `candidate_evalRow`: an equality holds for the candidates;
* `fromDatums_candidates`: the row of the candidates a row satisfies is the row;
* `partition_filter_agrees`: so the filter and the predicate agree.

A DECIMAL literal is written by its own precision and read by that of the column; the results are about literals
for which the two choose the same representation (`DecimalsFit`).
-/

namespace Paimon.Scan

open List

open Predicate (Leaves forall_mem_pair)

/-- no DECIMAL of an equality is written in the other representation -/
def DecimalsFit : Predicate → Prop :=
  Leaves fun _ _ dataType op literals => (op = .eq ∨ op = .isIn) → ∀ l ∈ literals, ∀ unscaled precision scale,
    l = .decimal unscaled precision scale → ∀ columnPrecision columnScale,
      dataType.root = .decimal columnPrecision columnScale → (precision ≤ 18 ↔ columnPrecision ≤ 18)

def rootsOf (fields : List DataField) : List TypeRoot := fields.map fun f => f.dataType.root

def partitionRow (fields : List DataField) (datums : List (Option Datum)) : BinaryRow :=
  BinaryRow.fromDatums (datums.zip (rootsOf fields))

/-- a value for each field, in a row whose offsets fit their four bytes -/
structure Canonical (fields : List DataField) (datums : List (Option Datum)) : Prop where
  length : datums.length = fields.length
  storable : ∀ (i : Nat) (f : DataField) (d : Datum), fields[i]? = some f → datums[i]? = some (some d) →
    Storable f.dataType.root d
  small : (partitionRow fields datums).data.length < 2 ^ 31

def NoFloats (fields : List DataField) : Prop := ∀ f ∈ fields, f.dataType.root.isFloat = false

/-! ## equal values are written alike -/

variable {a b : Datum}

theorem rank_inj (hkind : a.kind = b.kind) (hord : a.kind.ordered = true) (hrank : a.rank = b.rank)
    (hdec : ∀ u p s u' p' s', a = .decimal u p s → b = .decimal u' p' s' → p = p' ∧ s = s') : a = b := by
  have hcast : Function.Injective fun v : Int => (v : ℚ) := Int.cast_injective
  have hmap : ∀ {α : Type} {f : α → Nat}, Function.Injective f → ∀ {l l' : List α},
      (l.map f).map (Nat.cast : Nat → ℚ) = (l'.map f).map Nat.cast → l = l' := fun hf _ _ h =>
    map_injective_iff.mpr hf (map_injective_iff.mpr Nat.cast_injective h)
  cases a with
  | bool v =>
    cases b <;> cases hkind
    next w =>
    have h : (if v then 1 else 0 : ℚ) = if w then 1 else 0 := (List.cons.inj hrank).1
    cases v <;> cases w <;> first | rfl | norm_num at h
  | string v =>
    cases b <;> cases hkind
    exact congrArg Datum.string (hmap (fun _ _ => Char.toNat_inj.mp) hrank)
  | bytes v =>
    cases b <;> cases hkind
    exact congrArg Datum.bytes (hmap (fun _ _ => UInt8.toNat_inj.mp) hrank)
  | decimal u p s =>
    cases b <;> cases hkind
    next u' p' s' =>
    obtain ⟨rfl, rfl⟩ := hdec u p s u' p' s' rfl rfl
    have h : decimalValue u s = decimalValue u' s := (List.cons.inj hrank).1
    have hpos : (10 : ℚ) ^ s ≠ 0 := by positivity
    unfold decimalValue at h
    rw [hcast ((div_left_inj' hpos).mp h)]
  | timestamp | localZonedTimestamp =>
    cases b <;> cases hkind
    next m' n' =>
    obtain ⟨hm, htail⟩ := List.cons.inj hrank
    rw [hcast hm, hcast (List.cons.inj htail).1]
  | float | double | variant => cases hord
  | _ =>
    cases b <;> cases hkind
    rw [hcast (List.cons.inj hrank).1]

/-- values of a type of fixed precision and scale -/
def OfColumn (t : TypeRoot) (d : Datum) : Prop :=
  t.rowKind = some d.kind ∧ d.kind ≠ .variant ∧ ∀ u p s, d = .decimal u p s → t = .decimal p s

variable {t : TypeRoot} {d : Datum}

theorem ordered_of_notFloat (hfloat : t.isFloat = false) (hkind : t.rowKind = some d.kind)
    (hvar : d.kind ≠ .variant) : d.kind.ordered = true := by
  cases d with
  | float bits | double bits => cases t <;> first | (cases hkind; done) | cases hfloat
  | variant value metadata => exact absurd rfl hvar
  | _ => rfl

/-- **Values of one column that compare as equal are equal.** -/
theorem eq_of_datumEq (hfloat : t.isFloat = false) (ha : OfColumn t a)
    (hb : OfColumn t b) (h : a.place = b.place) : a = b := by
  obtain ⟨hka, hva, hda⟩ := ha
  obtain ⟨hkb, hvb, hdb⟩ := hb
  have horda := ordered_of_notFloat hfloat hka hva
  have hordb := ordered_of_notFloat hfloat hkb hvb
  rw [place_of_ordered horda, place_of_ordered hordb] at h
  refine rank_inj (Option.some.inj (hka.symm.trans hkb)) horda h fun u p s u' p' s' hda' hdb' => ?_
  have heq := (hda u p s hda').symm.trans (hdb u' p' s' hdb')
  cases heq
  exact ⟨rfl, rfl⟩

theorem kind_stored (t : TypeRoot) (d : Datum) : (stored t d).kind = d.kind := by
  cases d <;> try rfl
  unfold stored
  cases t <;> rfl

theorem ofColumn_stored (hd : Storable t d) : OfColumn t (stored t d) := by
  refine ⟨(kind_stored t d).symm ▸ hd.kind, (kind_stored t d).symm ▸ hd.notVariant, fun u p s h => ?_⟩
  cases d with
  | decimal u' p' s' =>
    obtain ⟨columnPrecision, columnScale, rfl, -⟩ := hd.decimal u' p' s' rfl
    cases h
    rfl
  | _ => cases h

variable {d l : Datum}

theorem size_eq (hfloat : t.isFloat = false) (hd : Storable t d) (hl : Storable t l)
    (h : (stored t d).place = l.place) : (Slot.ofDatum l t).size = (Slot.ofDatum d t).size := by
  have hkind : d.kind = l.kind := Option.some.inj (hd.kind.symm.trans hl.kind)
  cases d with
  | decimal u p s =>
    cases l <;> cases hkind
    next u' p' s' =>
    obtain ⟨columnPrecision, columnScale, rfl, hclass⟩ := hd.decimal u p s rfl
    obtain ⟨columnPrecision', columnScale', heq, hclass'⟩ := hl.decimal u' p' s' rfl
    cases heq
    unfold Slot.ofDatum
    dsimp only
    by_cases hp : columnPrecision ≤ 18
    · rw [if_pos (hclass.mpr hp), if_pos (hclass'.mpr hp)]
      rfl
    · rw [if_neg fun h => hp (hclass.mp h), if_neg fun h => hp (hclass'.mp h)]
      rfl
  | string v | bytes v =>
    cases l <;> cases hkind
    have heq := eq_of_datumEq hfloat (ofColumn_stored hd) ⟨hl.kind, hl.notVariant, fun u p s h => by cases h⟩ h
    rw [← heq]
    rfl
  | timestamp | localZonedTimestamp =>
    cases l <;> cases hkind
    unfold Slot.ofDatum Slot.ofTimestamp
    dsimp only
    split <;> rfl
  | variant value metadata => exact absurd rfl hd.notVariant
  | _ => cases l <;> first | rfl | cases hkind

/-! ## what the candidates and residuals say -/

/-- a candidate comes from an equality on its field -/
def FromLeaf (fields : List DataField) (i : Nat) (c : FieldCandidates) : Prop :=
  ∃ column op literals, c.predicate = .leaf column i c.dataType op literals ∧
    candidateValues op literals = some c.values ∧ LeafTyped fields i c.dataType op literals ∧
    DecimalsFit c.predicate

def AllFromLeaves (fields : List DataField) (st : Collected) : Prop :=
  ∀ (i : Nat) (c : FieldCandidates), st.1[i]? = some (some c) → FromLeaf fields i c

def TrueOn (row : BinaryRow) (st : Collected) : Prop :=
  (∀ (i : Nat) (c : FieldCandidates), st.1[i]? = some (some c) → evalRow row c.predicate = .ok true) ∧
  ∀ r ∈ st.2, evalRow row r = .ok true

variable {op : PredicateOperator} {literals : List Datum} {dataType : DataType}

section
variable {fields : List DataField} {row : BinaryRow} {st : Collected} {p : Predicate}

theorem trueOn_residual : TrueOn row (st.1, st.2 ++ [p]) ↔ TrueOn row st ∧ evalRow row p = .ok true := by
  unfold TrueOn
  simp only [mem_append, mem_singleton, or_imp, forall_and, forall_eq]
  tauto

theorem trueOn_collectLeaf {index : Nat} :
    TrueOn row (collectLeaf p index dataType op literals st) ↔ TrueOn row st ∧ evalRow row p = .ok true := by
  unfold collectLeaf
  split
  · exact trueOn_residual
  · next previous hprevious =>
    split
    · exact trueOn_residual
    · next values _ =>
      obtain ⟨hindex, -⟩ := List.getElem?_eq_some_iff.mp hprevious
      have hset : ∀ i, (st.1.set index (some ⟨p, dataType, values⟩))[i]?
          = if index = i then some (some ⟨p, dataType, values⟩) else st.1[i]? := fun i => by
        rw [getElem?_set, if_pos hindex]
      unfold TrueOn
      dsimp only
      simp only [hset, mem_append, Option.mem_toList, Option.map_eq_some_iff]
      -- what stood at the field before is now among the residuals
      constructor
      · rintro ⟨hcandidates, hresiduals⟩
        refine ⟨⟨fun i c hc => ?_, fun r hr => hresiduals r (.inl hr)⟩, hcandidates index _ (if_pos rfl)⟩
        by_cases hi : index = i
        · subst hi
          rw [hprevious] at hc
          exact hresiduals _ (.inr ⟨c, Option.some.inj hc, rfl⟩)
        · exact hcandidates i c (by rw [if_neg hi]; exact hc)
      · rintro ⟨⟨hcandidates, hresiduals⟩, hp⟩
        refine ⟨fun i c hc => ?_, fun r hr => ?_⟩
        · split at hc
          · cases hc
            exact hp
          · exact hcandidates i c hc
        · obtain hr | ⟨c, rfl, rfl⟩ := hr
          · exact hresiduals r hr
          · exact hcandidates index c hprevious

theorem trueOn_collectChildren {children : List Predicate}
    (h : ∀ c ∈ children, ∀ st, TrueOn row (collectEqCandidates c st) ↔ TrueOn row st ∧ evalRow row c = .ok true) :
    TrueOn row (collectChildren children st) ↔ TrueOn row st ∧ evalAll row children = .ok true := by
  rw [evalAll_true_iff]
  induction children generalizing st with
  | nil => simp [collectChildren]
  | cons child children ih =>
    rw [collectChildren, ih (forall_mem_cons.mp h).2, h child mem_cons_self, forall_mem_cons, and_assoc]

/-- **What is collected says what the predicate says.** -/
theorem collect_trueOn (p : Predicate) (st : Collected) :
    TrueOn row (collectEqCandidates p st) ↔ TrueOn row st ∧ evalRow row p = .ok true := by
  induction p generalizing st with
  | leaf column index dataType op literals =>
    rw [collectEqCandidates]
    exact trueOn_collectLeaf
  | and children ih =>
    rw [collectEqCandidates, evalRow]
    exact trueOn_collectChildren ih
  | or | not | alwaysTrue | alwaysFalse => exact trueOn_residual

theorem allFromLeaves_collect (hp : Typed fields p) (hdec : DecimalsFit p) (hst : AllFromLeaves fields st) :
    AllFromLeaves fields (collectEqCandidates p st) := by
  induction hp generalizing st with
  | @leaf column index dataType op literals h =>
    rw [collectEqCandidates]
    unfold collectLeaf
    split
    · exact hst
    · split
      · exact hst
      · next values hvalues =>
        intro i c hc
        dsimp only at hc
        rw [getElem?_set] at hc
        split at hc
        · next hi =>
          subst hi
          split at hc
          · cases hc
            exact ⟨column, op, literals, rfl, hvalues, h, hdec⟩
          · cases hc
        · exact hst i c hc
  | @and children _ ih =>
    rw [collectEqCandidates]
    cases hdec with
    | and hdec =>
      induction children generalizing st with
      | nil => exact hst
      | cons child children ihc =>
        rw [collectChildren]
        exact ihc (fun c hc => ‹∀ c ∈ child :: children, Typed fields c› c (mem_cons_of_mem child hc))
          (forall_mem_cons.mp ih).2
          (ih child mem_cons_self (hdec child mem_cons_self) hst)
          (forall_mem_cons.mp hdec).2
  | or | not | alwaysTrue | alwaysFalse => exact hst

end

variable {i : Nat}

/-- **An equality holds on a value that is one of its candidates.** -/
theorem candidate_evalRow {row : BinaryRow} {column : String}
    {values : List (Option Datum)} {value : Option Datum}
    (hvalues : candidateValues op literals = some values) (hv : extractDatum row i dataType.root = .ok value) :
    evalRow row (.leaf column i dataType op literals) = .ok true ↔ ∃ v ∈ values, sameValue value v = true := by
  rw [evalRow, hv]
  dsimp only
  unfold candidateValues at hvalues
  split at hvalues
  · cases hvalues
    cases value <;> simp [evalLeaf, evalValue, sameValue]
  · next l rest =>
    cases hvalues
    cases value with
    | none => simp [evalLeaf, sameValue]
    | some d =>
      simp only [evalLeaf, evalValue, Except.ok.injEq, any_eq_true, mem_map]
      constructor
      · rintro ⟨l, hl, h⟩
        exact ⟨some l, ⟨l, hl, rfl⟩, h⟩
      · rintro ⟨v, ⟨l, hl, rfl⟩, h⟩
        exact ⟨l, hl, h⟩
  · cases hvalues
    cases value <;> simp [evalLeaf, sameValue]
  · cases hvalues

/-! ## rows of candidates -/

variable {f : DataField}

section
variable {fields : List DataField} {datums : List (Option Datum)} {u : Option Datum}

theorem zip_rootsOf (hf : fields[i]? = some f)
    (hu : datums[i]? = some u) : (datums.zip (rootsOf fields))[i]? = some (u, f.dataType.root) := by
  rw [getElem?_zip_eq_some, rootsOf, getElem?_map, hf]
  exact ⟨hu, rfl⟩

theorem Canonical.extract (h : Canonical fields datums)
    (hf : fields[i]? = some f) (hu : datums[i]? = some u) :
    extractDatum (partitionRow fields datums) i f.dataType.root = .ok (u.map (stored f.dataType.root)) := by
  unfold extractDatum partitionRow
  rw [fromDatums_getDatum h.small (zip_rootsOf hf hu) fun d hd => h.storable i f d hf (hd ▸ hu)]

theorem Canonical.value (h : Canonical fields datums) (hf : fields[i]? = some f) :
    ∃ u, datums[i]? = some u := by
  obtain ⟨hi, -⟩ := List.getElem?_eq_some_iff.mp hf
  exact ⟨_, getElem?_eq_getElem (h.length ▸ hi)⟩

theorem partitionRow_read (hfields : fields.length < 2 ^ 31) (datums : List (Option Datum)) :
    fromSerializedBytes (partitionRow fields datums).toSerializedBytes = some (partitionRow fields datums) := by
  refine BinaryRow.fromDatums_read ?_
  rw [length_zip, rootsOf, length_map]
  omega

theorem Canonical.decodes (h : Canonical fields datums) : Decodes fields (partitionRow fields datums) := by
  intro i f hf
  obtain ⟨u, hu⟩ := h.value hf
  exact ⟨_, h.extract hf hu⟩

/-- a literal with the value of a field, of a kind and precision the field takes -/
def SameAsField (fields : List DataField) (i : Nat) (u lit : Option Datum) : Prop :=
  ∀ f, fields[i]? = some f → sameValue (u.map (stored f.dataType.root)) lit = true ∧
    ∀ l, lit = some l → Storable f.dataType.root l

theorem sameValue_some {v lit : Option Datum} (hv : v = some d) (h : sameValue v lit = true) :
    ∃ l, lit = some l ∧ datumEq d l = true := by
  subst hv
  cases lit with
  | none => cases h
  | some l => exact ⟨l, rfl, h⟩

theorem place_of_sameValue (hd : Storable t d) (h : datumEq (stored t d) l = true) :
    (stored t d).place = l.place := by
  have hvar : (stored t d).kind ≠ .variant := (kind_stored t d).symm ▸ hd.notVariant
  exact (comparable_of_cmp hvar (beq_iff_eq.mp h)).eq_iff.mp h

variable {lits : List (Option Datum)}

/-- **The row of candidates that a row satisfies is that row.** -/
theorem fromDatums_candidates (hfloat : NoFloats fields) (h : Canonical fields datums)
    (hlen : lits.length = fields.length)
    (hsame : ∀ i u lit, datums[i]? = some u → lits[i]? = some lit → SameAsField fields i u lit)
    (hencoded : ∀ i f lit, fields[i]? = some f → lits[i]? = some lit →
      ∃ value, extractDatum (partitionRow fields lits) i f.dataType.root = .ok value ∧ sameValue value lit = true) :
    partitionRow fields lits = partitionRow fields datums := by
  have hroots : (rootsOf fields).length = fields.length := length_map _
  have hzip : ∀ l : List (Option Datum), l.length = fields.length → (l.zip (rootsOf fields)).length = fields.length :=
    fun l hl => by rw [length_zip, hl, hroots, Nat.min_self]
  -- a statement for every field is one for the whole row
  have hmap : ∀ {β : Type} (g : Option Datum × TypeRoot → β),
      (∀ (i : Nat) (f : DataField) (u lit : Option Datum), fields[i]? = some f → datums[i]? = some u →
        lits[i]? = some lit → g (lit, f.dataType.root) = g (u, f.dataType.root)) →
      (lits.zip (rootsOf fields)).map g = (datums.zip (rootsOf fields)).map g := by
    intro β g hg
    refine ext_getElem? fun i => ?_
    rw [getElem?_map, getElem?_map]
    by_cases hi : i < fields.length
    · have hf := getElem?_eq_getElem hi
      have hu := getElem?_eq_getElem (h.length.symm ▸ hi : i < datums.length)
      have hlit := getElem?_eq_getElem (hlen.symm ▸ hi : i < lits.length)
      rw [zip_rootsOf hf hu, zip_rootsOf hf hlit, Option.map_some, Option.map_some, hg i _ _ _ hf hu hlit]
    · rw [getElem?_eq_none (by rw [hzip lits hlen]; omega),
        getElem?_eq_none (by rw [hzip datums h.length]; omega)]
  have hfieldFloat : ∀ (i : Nat) (f : DataField), fields[i]? = some f → f.dataType.root.isFloat = false := fun i f hf =>
    hfloat f (mem_of_getElem? hf)
  -- so long a row it is
  have hsmall : (partitionRow fields lits).data.length < 2 ^ 31 := by
    have hsize : (partitionRow fields lits).data.length = (partitionRow fields datums).data.length := by
      unfold partitionRow
      rw [(BinaryRow.fromDatums_spec _).2.2, (BinaryRow.fromDatums_spec _).2.2, hzip lits hlen,
        hzip datums h.length, hmap (fun x => (slot x.1 x.2).size) fun i f u lit hf hu hlit => ?_]
      obtain ⟨hvalue, hstorable⟩ := hsame i u lit hu hlit f hf
      cases u with
      | none =>
        cases lit with
        | none => rfl
        | some l => cases hvalue
      | some d =>
        obtain ⟨l, rfl, heq⟩ := sameValue_some rfl hvalue
        have hd := h.storable i f d hf hu
        exact size_eq (hfieldFloat i f hf) hd (hstorable l rfl) (place_of_sameValue hd heq)
    rw [hsize]
    exact h.small
  refine BinaryRow.fromDatums_congr (hmap (fun x => slot x.1 x.2) fun i f u lit hf hu hlit => ?_)
  obtain ⟨hvalue, hstorable⟩ := hsame i u lit hu hlit f hf
  cases u with
  | none =>
    cases lit with
    | none => rfl
    | some l => cases hvalue
  | some d =>
    obtain ⟨l, rfl, heq⟩ := sameValue_some rfl hvalue
    have hd := h.storable i f d hf hu
    have hl := hstorable l rfl
    -- the candidate was read back as it is, so it is stored as the value of the field
    obtain ⟨value, hread, hback⟩ := hencoded i f (some l) hf hlit
    have hget : extractDatum (partitionRow fields lits) i f.dataType.root = .ok (some (stored f.dataType.root l)) := by
      unfold extractDatum partitionRow
      rw [fromDatums_getDatum hsmall (zip_rootsOf hf hlit) fun d' hd' => hstorable d' hd']
      rfl
    rw [hget] at hread
    obtain rfl := Except.ok.inj hread
    have hplace : (stored f.dataType.root l).place = (stored f.dataType.root d).place :=
      (place_of_sameValue hl hback).trans (place_of_sameValue hd heq).symm
    have hstored := eq_of_datumEq (hfieldFloat i f hf) (ofColumn_stored hl) (ofColumn_stored hd) hplace
    show Slot.ofDatum l _ = Slot.ofDatum d _
    rw [← ofDatum_stored hl, hstored, ofDatum_stored hd]

end

/-! ## the filter and the predicate -/

variable {fields : List DataField} {c : FieldCandidates}

theorem FromLeaf.storable (hc : FromLeaf fields i c)
    (hf : fields[i]? = some f) {l : Datum} (hl : some l ∈ c.values)
    (hkind : f.dataType.root.rowKind = some l.kind ∧ l.kind ≠ .variant) : Storable f.dataType.root l := by
  obtain ⟨column, op, literals, hpredicate, hvalues, htyped, hdec⟩ := hc
  obtain ⟨f', hf', hroot⟩ := htyped.field
  obtain rfl := Option.some.inj (hf.symm.trans hf')
  have hmem : (op = .eq ∨ op = .isIn) ∧ l ∈ literals := by
    unfold candidateValues at hvalues
    split at hvalues
    · have := (Option.some.inj hvalues) ▸ hl
      rw [mem_singleton, Option.some_inj] at this
      exact ⟨.inl rfl, this ▸ mem_cons_self⟩
    · have := (Option.some.inj hvalues) ▸ hl
      obtain ⟨l', hl', heq⟩ := mem_map.mp this
      exact ⟨.inr rfl, Option.some.inj heq ▸ hl'⟩
    · have := (Option.some.inj hvalues) ▸ hl
      cases mem_singleton.mp this
    · cases hvalues
  refine ⟨hkind.1, hkind.2, fun u p s hdecimal => ?_⟩
  subst hdecimal
  obtain ⟨columnPrecision, columnScale, ht⟩ :
      ∃ columnPrecision columnScale, f.dataType.root = .decimal columnPrecision columnScale := by
    have hk := hkind.1
    cases hroot' : f.dataType.root <;> rw [hroot'] at hk <;> first | exact ⟨_, _, rfl⟩ | cases hk
  rw [hpredicate] at hdec
  cases hdec with
  | leaf hdec =>
    exact ⟨columnPrecision, columnScale, ht, hdec hmem.1 _ hmem.2 u p s rfl _ _ (hroot.trans ht)⟩

variable {combo : List Nat}

theorem admits_eq_some {candidates : List FieldCandidates} {residuals : List Predicate}
    {bytes : Bytes} : admits fields candidates residuals combo = some (some bytes) ↔
      encodedAsIs (partitionRow fields (combination candidates combo)) candidates (combination candidates combo) = true ∧
      evalAll (partitionRow fields (combination candidates combo)) residuals = .ok true ∧
      (partitionRow fields (combination candidates combo)).toSerializedBytes = bytes := by
  unfold admits partitionRow rootsOf
  dsimp only
  split
  · next henc =>
    split
    · next hall => simp [henc, hall]
    · next hall => simp [hall]
    · next hall => simp [hall]
  · next henc => simp [henc]

section
variable {fields : List DataField} {candidates : List FieldCandidates} {residuals : List Predicate}
  (hlen : candidates.length = fields.length)
  (hleaf : ∀ (i : Nat) (c : FieldCandidates), candidates[i]? = some c → FromLeaf fields i c)
include hlen hleaf

omit hlen in
theorem field_of_leaves (i : Nat) (c : FieldCandidates) (hc : candidates[i]? = some c) : c.values ≠ [] ∧
    ∃ f : DataField, fields[i]? = some f ∧ c.dataType.root = f.dataType.root := by
  obtain ⟨column, op, literals, -, hvalues, htyped, -⟩ := hleaf i c hc
  exact ⟨candidateValues_ne_nil hvalues, htyped.field⟩

theorem candidate_of_field (hf : fields[i]? = some f) :
    ∃ c, candidates[i]? = some c ∧ c.dataType.root = f.dataType.root := by
  obtain ⟨hi, -⟩ := List.getElem?_eq_some_iff.mp hf
  have hc := getElem?_eq_getElem (hlen.symm ▸ hi : i < candidates.length)
  obtain ⟨-, f', hf', hroot⟩ := field_of_leaves hleaf i _ hc
  obtain rfl := Option.some.inj (hf.symm.trans hf')
  exact ⟨_, hc, hroot⟩

theorem combination_mem (hcombo : combo ∈ Odometer.visited (candidates.map fun c => c.values.length))
    (hc : candidates[i]? = some c) :
    ∃ lit ∈ c.values, (combination candidates combo)[i]? = some lit := by
  have hfield := field_of_leaves hleaf
  rw [Odometer.visited_eq (sizes_pos hlen hfield)] at hcombo
  have hdigits := Odometer.mem_choices.mp hcombo
  obtain ⟨hi, hci⟩ := List.getElem?_eq_some_iff.mp hc
  have hlenc : combo.length = candidates.length := by rw [hdigits.length_eq, length_map]
  have hjlt : combo[i] < c.values.length := by
    have := hdigits.get (i := i) (hlenc ▸ hi) (by rw [length_map]; exact hi)
    simpa [hci] using this
  refine ⟨c.values[combo[i]], getElem_mem hjlt, ?_⟩
  rw [combination_get hlen hfield hc (getElem?_eq_getElem (hlenc ▸ hi)), getD_eq_getElem?_getD,
    getElem?_eq_getElem hjlt]
  rfl

theorem exists_combination {P : Nat → Option Datum → Prop}
    (h : ∀ (i : Nat) (c : FieldCandidates), candidates[i]? = some c → ∃ lit ∈ c.values, P i lit) :
    ∃ combo ∈ Odometer.visited (candidates.map fun c => c.values.length),
      (combination candidates combo).length = fields.length ∧
      ∀ (i : Nat) (lit : Option Datum), (combination candidates combo)[i]? = some lit →
        ∃ c, candidates[i]? = some c ∧ lit ∈ c.values ∧ P i lit := by
  have hfield := field_of_leaves hleaf
  have hdigit : ∀ i : Nat, ∃ j : Nat, ∀ c : FieldCandidates, candidates[i]? = some c →
      ∃ lit, c.values[j]? = some lit ∧ P i lit := by
    intro i
    cases hc : candidates[i]? with
    | none => exact ⟨0, fun c hc' => by cases hc'⟩
    | some c =>
      obtain ⟨lit, hlit, hP⟩ := h i c hc
      obtain ⟨j, hj⟩ := getElem?_of_mem hlit
      refine ⟨j, fun c' hc' => ?_⟩
      cases hc'
      exact ⟨lit, hj, hP⟩
  choose digit hdigit using hdigit
  set combo := (List.range candidates.length).map digit with hcombo
  refine ⟨combo, ?_, ?_, fun i lit hlit => ?_⟩
  · rw [Odometer.visited_eq (sizes_pos hlen hfield)]
    refine Odometer.mem_choices.mpr (forall₂_iff_get.mpr ⟨by simp [hcombo], fun i hi hi' => ?_⟩)
    rw [length_map] at hi'
    obtain ⟨lit, hlit, -⟩ := hdigit i candidates[i] (getElem?_eq_getElem hi')
    obtain ⟨hlt, -⟩ := List.getElem?_eq_some_iff.mp hlit
    simpa [hcombo] using hlt
  · unfold combination
    rw [length_zipWith, hcombo, length_map, length_range, Nat.min_self, hlen]
  · have hi : i < candidates.length := by
      obtain ⟨hi, -⟩ := List.getElem?_eq_some_iff.mp hlit
      unfold combination at hi
      rw [length_zipWith] at hi
      omega
    have hc := getElem?_eq_getElem hi
    obtain ⟨lit', hlit', hP⟩ := hdigit i _ hc
    have hj : combo[i]? = some (digit i) := by
      rw [hcombo, getElem?_map, getElem?_range hi]
      rfl
    rw [combination_get hlen hfield hc hj, getD_eq_getElem?_getD, hlit'] at hlit
    obtain rfl : lit' = lit := Option.some.inj hlit
    exact ⟨_, hc, mem_of_getElem? hlit', hP⟩

variable {results : List (Option Bytes)}
  (hruns : (Odometer.visited (candidates.map fun c => c.values.length)).mapM
    (admits fields candidates residuals) = some results)
  {datums : List (Option Datum)}
include hruns

theorem holds_of_mem (hfields : fields.length < 2 ^ 31)
    (hmem : (partitionRow fields datums).toSerializedBytes ∈ results.filterMap id) :
    (∀ c ∈ candidates, evalRow (partitionRow fields datums) c.predicate = .ok true) ∧
    ∀ r ∈ residuals, evalRow (partitionRow fields datums) r = .ok true := by
  obtain ⟨o, ho, hoeq⟩ := mem_filterMap.mp hmem
  obtain rfl : o = some _ := hoeq
  obtain ⟨combo, hcombo, hrun⟩ := Traverse.mem_left (Traverse.option_mapM.mp hruns) ho
  obtain ⟨henc, hresiduals, hbytes⟩ := admits_eq_some.mp hrun
  -- the bytes are those of one row only
  have hrows : partitionRow fields (combination candidates combo) = partitionRow fields datums := by
    have hread := partitionRow_read hfields (combination candidates combo)
    rw [hbytes, partitionRow_read hfields datums] at hread
    exact (Option.some.inj hread).symm
  rw [hrows] at henc hresiduals
  refine ⟨fun c hc => ?_, evalAll_true_iff.mp hresiduals⟩
  obtain ⟨i, hi⟩ := getElem?_of_mem hc
  obtain ⟨lit, hlit, hget⟩ := combination_mem hlen hleaf hcombo hi
  obtain ⟨value, hvalue, hsame⟩ := encodedAsIs_get henc hi hget
  obtain ⟨column, op, literals, hpredicate, hvalues, -, -⟩ := hleaf i c hi
  rw [hpredicate]
  exact (candidate_evalRow hvalues hvalue).mpr ⟨lit, hlit, hsame⟩

theorem mem_of_holds (hfloat : NoFloats fields) (hrow : Canonical fields datums)
    (hcandidates : ∀ c ∈ candidates, evalRow (partitionRow fields datums) c.predicate = .ok true)
    (hresiduals : ∀ r ∈ residuals, evalRow (partitionRow fields datums) r = .ok true) :
    (partitionRow fields datums).toSerializedBytes ∈ results.filterMap id := by
  have hfield := field_of_leaves hleaf
  have hall := Traverse.option_mapM.mp hruns
  have hadmits : ∀ combo ∈ Odometer.visited (candidates.map fun c => c.values.length),
      ∃ o, admits fields candidates residuals combo = some o := fun combo hcombo =>
    (Traverse.mem_right hall hcombo).imp fun _ h => h.2
  -- for each field, a candidate that the row satisfies
  obtain ⟨combo, hcombo, hlits, hchosen⟩ := exists_combination hlen hleaf
    (P := fun i lit => ∀ u, datums[i]? = some u → ∀ f, fields[i]? = some f →
      sameValue (u.map (stored f.dataType.root)) lit = true) fun i c hc => by
    obtain ⟨column, op, literals, hpredicate, hvalues, htyped, -⟩ := hleaf i c hc
    obtain ⟨f, hf, hroot⟩ := htyped.field
    obtain ⟨u, hu⟩ := hrow.value hf
    have hread : extractDatum (partitionRow fields datums) i c.dataType.root
        = .ok (u.map (stored f.dataType.root)) := by
      rw [hroot]
      exact hrow.extract hf hu
    have htrue := hcandidates c (mem_of_getElem? hc)
    rw [hpredicate] at htrue
    obtain ⟨lit, hlit, hsame⟩ := (candidate_evalRow hvalues hread).mp htrue
    refine ⟨lit, hlit, fun u' hu' f' hf' => ?_⟩
    obtain rfl := Option.some.inj (hu.symm.trans hu')
    obtain rfl := Option.some.inj (hf.symm.trans hf')
    exact hsame
  obtain ⟨o, ho⟩ := hadmits combo hcombo
  have henc := admits_encoded hlen hfield ho
  have hrows : partitionRow fields (combination candidates combo) = partitionRow fields datums := by
    refine fromDatums_candidates hfloat hrow hlits (fun i u lit hu hlit f hf => ?_) fun i f lit hf hlit => ?_
    · obtain ⟨c, hc, hmem, hsame⟩ := hchosen i lit hlit
      refine ⟨hsame u hu f hf, fun l hl => ?_⟩
      subst hl
      obtain ⟨hk, hvar, -⟩ := candidates_clean hlen hfield hadmits hc hf l hmem
      exact (hleaf i c hc).storable hf hmem ⟨hk, hvar⟩
    · obtain ⟨c, hc, hroot⟩ := candidate_of_field hlen hleaf hf
      rw [← hroot]
      exact encodedAsIs_get henc hc hlit
  have hadmits : admits fields candidates residuals combo
      = some (some (partitionRow fields datums).toSerializedBytes) := by
    refine admits_eq_some.mpr ⟨henc, ?_, congrArg BinaryRow.toSerializedBytes hrows⟩
    rw [hrows]
    exact evalAll_true_iff.mpr hresiduals
  obtain ⟨o', ho', hrun'⟩ := Traverse.mem_right hall hcombo
  rw [hadmits] at hrun'
  exact mem_filterMap.mpr ⟨o', ho', (Option.some.inj hrun').symm⟩

end

variable {p : Predicate}

/-- **On canonical rows the filter of a predicate is the predicate.** -/
theorem fromPredicate_agrees (hfields : fields.length < 2 ^ 31) (hfloat : NoFloats fields)
    (hp : Typed fields p) (hdec : DecimalsFit p) {datums : List (Option Datum)}
    (hrow : Canonical fields datums) :
    (fromPredicate p fields).matchesEntry (partitionRow fields datums).toSerializedBytes
      = evalRow (partitionRow fields datums) p := by
  have hpred : (PartitionFilter.predicate p).matchesEntry (partitionRow fields datums).toSerializedBytes
      = evalRow (partitionRow fields datums) p := by
    unfold PartitionFilter.matchesEntry
    rw [partitionRow_read hfields]
  unfold fromPredicate
  split
  · exact hpred
  set start : Collected := (fields.map fun _ => none, []) with hstart
  have hnone : ∀ (i : Nat) (c : FieldCandidates), start.1[i]? ≠ some (some c) := by
    intro i c hc
    rw [hstart, getElem?_map] at hc
    obtain ⟨f, -, hf⟩ := Option.map_eq_some_iff.mp hc
    cases hf
  have hok : CollectedOk fields (collectEqCandidates p start) :=
    collectEqCandidates_ok hp ⟨length_map _, fun i c hc => absurd hc (hnone i c)⟩
  have hleaves : AllFromLeaves fields (collectEqCandidates p start) :=
    allFromLeaves_collect hp hdec fun i c hc => absurd hc (hnone i c)
  have htrue : TrueOn (partitionRow fields datums) (collectEqCandidates p start) ↔ _ := collect_trueOn p start
  have hempty : TrueOn (partitionRow fields datums) start :=
    ⟨fun i c hc => absurd hc (hnone i c), forall_mem_nil _⟩
  rw [and_iff_right hempty] at htrue
  generalize collectEqCandidates p start = st at hok hleaves htrue
  obtain ⟨found, residuals⟩ := st
  dsimp only
  split
  · exact hpred
  next candidates hcands =>
  split
  · exact hpred
  next results hruns =>
  split
  · exact hpred
  next bounds _ =>
  have hfound := mapM_id_some hcands
  have hget : ∀ i : Nat, found[i]? = candidates[i]?.map some := fun i => by rw [hfound, getElem?_map]
  have hlen : candidates.length = fields.length := by
    rw [← hok.length, hfound, length_map]
  have hleaf : ∀ (i : Nat) (c : FieldCandidates), candidates[i]? = some c → FromLeaf fields i c := fun i c hc =>
    hleaves i c (by rw [hget, hc]; rfl)
  -- in the set iff the predicate holds, and it has a value
  have hiff : (partitionRow fields datums).toSerializedBytes ∈ results.filterMap id ↔
      evalRow (partitionRow fields datums) p = .ok true := by
    rw [← htrue]
    constructor
    · intro hmem
      obtain ⟨hcandidates, hresiduals⟩ := holds_of_mem hlen hleaf hruns hfields hmem
      refine ⟨fun i c hc => ?_, hresiduals⟩
      rw [hget] at hc
      obtain ⟨c', hc', hsome⟩ := Option.map_eq_some_iff.mp hc
      cases hsome
      exact hcandidates c (mem_of_getElem? hc')
    · rintro ⟨hcandidates, hresiduals⟩
      refine mem_of_holds hlen hleaf hruns hfloat hrow (fun c hc => ?_) hresiduals
      obtain ⟨i, hi⟩ := getElem?_of_mem hc
      exact hcandidates i c (by rw [hget, hi]; rfl)
  obtain ⟨b, hb⟩ := evalRow_ok hrow.decodes hp
  unfold PartitionFilter.matchesEntry
  dsimp only
  rw [hb] at hiff ⊢
  congr 1
  rw [Bool.eq_iff_iff, contains_iff_mem, hiff, Except.ok.injEq]

/-! ## manifests -/

theorem nanFree_of_noFloats (hfloat : NoFloats fields) (hp : Typed fields p) : NanFree p := by
  induction hp with
  | @leaf column index dataType op literals h =>
    refine .leaf fun _ l hl => ?_
    obtain ⟨f, hf, hroot⟩ := h.field
    have hkind := h.kinds l hl
    have hnot := hfloat f (mem_of_getElem? hf)
    rw [← hroot] at hnot
    cases l with
    | float bits | double bits =>
      generalize dataType.root = t at hkind hnot
      cases t <;> first | (cases hkind; done) | cases hnot
    | _ => rfl
  | and _ ih => exact .and ih
  | or _ ih => exact .or ih
  | not _ ih => exact .not ih
  | alwaysTrue => exact .alwaysTrue
  | alwaysFalse => exact .alwaysFalse

theorem setNanFree_of_noFloats (hfloat : NoFloats fields) (partitions : List Bytes) :
    SetNanFree fields partitions := by
  intro bytes _ values hvalues d hd
  obtain ⟨row, -, hlen, hget⟩ := partitionValues_get hvalues
  obtain ⟨i, hi⟩ := getElem?_of_mem hd
  obtain ⟨hlt, -⟩ := List.getElem?_eq_some_iff.mp hi
  have hf := getElem?_eq_getElem (hlen ▸ hlt : i < fields.length)
  have hread := hget i _ hf
  rw [getD_eq_getElem?_getD, hi, Option.getD_some] at hread
  obtain ⟨hkind, hvar⟩ := extractDatum_kind hread
  exact notNan_of_ordered (ordered_of_notFloat (hfloat _ (mem_of_getElem? hf)) hkind hvar)

theorem matchesEntry_of_manifest (hfields : fields.length < 2 ^ 31)
    {filter : PartitionFilter} (hbuilt : Built fields filter) {files : Int} {stats : BinaryTableStats}
    {partition : Bytes} (hcov : PartitionCovered fields files stats partition)
    (h : filter.matchesManifest files stats fields = false) : filter.matchesEntry partition = .ok false := by
  have hpass : filter.passes partition ≠ true := fun hpass => by
    rw [matchesManifest_sound hfields hbuilt hcov hpass] at h
    cases h
  unfold PartitionFilter.passes at hpass
  cases hentry : filter.matchesEntry partition with
  | error e =>
    rw [hentry] at hpass
    exact absurd rfl hpass
  | ok b =>
    rw [hentry] at hpass
    cases b with
    | true => exact absurd rfl hpass
    | false => rfl

end Paimon.Scan
