import Paimon.Lib.Traverse
import Paimon.Table.RowRange

/-!
# Row ranges as sets of rows

Lists of row ranges stand for sets of row ids (`rows`).  The loops of `table/source.rs` and
`table/global_index_scanner/row_ranges.rs` are the set operations:

* `mergeRowRanges`: the canonical list of a set: `Merged`, and the only such list (`merged_unique`);
* `excludeRowRanges`: difference;
* `RowRangeIndex.intersectedRanges`, `intersectSortedRanges`: intersection with an interval and with another
  list;
* `bitmapToRanges`: the canonical list of a bitmap, whose iterator hands out runs of values.

`RowRange::new` asserts `from <= to`; a function that may run into the assertion returns an `Option`.
-/

namespace Paimon

open List

variable {r q : RowRange} {q : RowRange}

namespace RowRange

/-- `RowRange::new`: `none` is the failed assertion -/
def new (fromId toId : Int) : Option RowRange :=
  if h : fromId ≤ toId then some ⟨fromId, toId, h⟩ else none

def intersectInclusive (r : RowRange) (fileStart fileEnd : Int) : Option RowRange :=
  new (max r.fromId fileStart) (min r.toId fileEnd)

theorem new_of_le {a b : Int} (h : a ≤ b) : new a b = some ⟨a, b, h⟩ := dif_pos h

theorem intersectInclusive_of_le {s e : Int} (h : max s r.fromId ≤ min e r.toId) :
    r.intersectInclusive s e = some ⟨max s r.fromId, min e r.toId, h⟩ := by
  unfold intersectInclusive
  rw [max_comm, min_comm, new_of_le h]

theorem intersectInclusive_ends {s e : Int} (h : r.intersectInclusive s e = some q) :
    q.fromId = max r.fromId s ∧ q.toId = min r.toId e := by
  obtain ⟨hle, h⟩ := Option.dite_none_right_eq_some.mp h
  obtain rfl := Option.some.inj h
  exact ⟨rfl, rfl⟩

def InI64 (r : RowRange) : Prop := -2 ^ 63 ≤ r.fromId ∧ r.toId ≤ i64Max

def rows (ranges : List RowRange) : Set Int := {x | ∃ r ∈ ranges, r.fromId ≤ x ∧ x ≤ r.toId}

/-- in ascending order, with at least one missing row between any two -/
def Merged (ranges : List RowRange) : Prop := ranges.Pairwise fun a b => a.toId + 1 < b.fromId

variable {a b r : RowRange} {l l' ranges : List RowRange} {x : Int}

@[simp] theorem mem_rows : x ∈ rows ranges ↔ ∃ r ∈ ranges, r.fromId ≤ x ∧ x ≤ r.toId := Iff.rfl

@[simp] theorem rows_nil : rows [] = ∅ := by
  ext x
  simp

theorem mem_rows_cons : x ∈ rows (a :: l) ↔ (a.fromId ≤ x ∧ x ≤ a.toId) ∨ x ∈ rows l := by
  simp

theorem mem_rows_append : x ∈ rows (l ++ l') ↔ x ∈ rows l ∨ x ∈ rows l' := by
  simp only [mem_rows, mem_append, or_and_right, exists_or]

theorem mem_rows_singleton : x ∈ rows [a] ↔ a.fromId ≤ x ∧ x ≤ a.toId := by simp

theorem rows_perm (h : l.Perm l') : rows l = rows l' := by
  ext x
  simp only [mem_rows, h.mem_iff]

theorem Merged.apart (h : Merged ranges) : Apart ranges :=
  List.Pairwise.imp (fun hab => by omega) h

theorem Merged.separated (h : Merged ranges) (hq : q ∈ ranges) (hr : r ∈ ranges)
    (hne : q ≠ r) : q.toId + 1 < r.fromId ∨ r.toId + 1 < q.fromId := by
  have hsymm : ranges.Pairwise fun a b => a.toId + 1 < b.fromId ∨ b.toId + 1 < a.fromId :=
    List.Pairwise.imp (fun hab => Or.inl hab) h
  have : Std.Symm fun a b : RowRange => a.toId + 1 < b.fromId ∨ b.toId + 1 < a.fromId :=
    ⟨fun _ _ h => h.symm⟩
  exact hsymm.forall hq hr hne

theorem Merged.maximal (h : Merged ranges) (hr : r ∈ ranges) :
    r.fromId - 1 ∉ rows ranges ∧ r.toId + 1 ∉ rows ranges := by
  constructor
  all_goals
    rintro ⟨q, hq, h₁, h₂⟩
    have hne : q ≠ r := by
      rintro rfl
      omega
    have hsep := h.separated hq hr hne
    have := q.le
    have := r.le
    omega

/-! ## one canonical list -/

theorem mem_of_head (h : Merged (a :: l)) (hx : x ∈ rows l) : a.toId + 1 < x := by
  obtain ⟨q, hq, hfrom, -⟩ := hx
  have := (pairwise_cons.mp h).1 q hq
  omega

theorem head_le (h' : Merged (b :: l')) (heq : rows (a :: l) = rows (b :: l')) :
    b.fromId ≤ a.fromId ∧ (a.fromId = b.fromId → a.toId ≤ b.toId) := by
  have ha := a.le
  have hb := b.le
  constructor
  · have hmem : a.fromId ∈ rows (b :: l') := heq ▸ mem_rows_cons.mpr (.inl ⟨le_refl _, ha⟩)
    rcases mem_rows_cons.mp hmem with h₁ | h₁
    · exact h₁.1
    · have := mem_of_head h' h₁
      omega
  · intro hfrom
    by_contra hlt
    have hmem : b.toId + 1 ∈ rows (b :: l') :=
      heq ▸ mem_rows_cons.mpr (.inl ⟨by omega, by omega⟩)
    exact (h'.maximal mem_cons_self).2 hmem

theorem rows_tail (h : Merged (a :: l)) : rows l = rows (a :: l) \ Set.Icc a.fromId a.toId := by
  ext x
  rw [Set.mem_sdiff, mem_rows_cons, Set.mem_Icc]
  constructor
  · intro hx
    have := mem_of_head h hx
    exact ⟨.inr hx, fun h' => by omega⟩
  · rintro ⟨h₁ | h₁, h₂⟩
    · exact absurd h₁ h₂
    · exact h₁

/-- **A set of rows has at most one merged list.** -/
theorem merged_unique (h : Merged l) (h' : Merged l') (heq : rows l = rows l') : l = l' := by
  induction l generalizing l' with
  | nil =>
    cases l' with
    | nil => rfl
    | cons b l' =>
      have hmem : b.fromId ∈ rows [] := heq ▸ mem_rows_cons.mpr (.inl ⟨le_refl _, b.le⟩)
      simp at hmem
  | cons a l ih =>
    cases l' with
    | nil =>
      have hmem : a.fromId ∈ rows [] := heq ▸ mem_rows_cons.mpr (.inl ⟨le_refl _, a.le⟩)
      simp at hmem
    | cons b l' =>
      obtain ⟨h₁, h₂⟩ := head_le h' heq
      obtain ⟨h₃, h₄⟩ := head_le h heq.symm
      have hfrom : a.fromId = b.fromId := le_antisymm h₃ h₁
      have hto : a.toId = b.toId := le_antisymm (h₂ hfrom) (h₄ hfrom.symm)
      have hab : a = b := by
        obtain ⟨af, at', _⟩ := a
        obtain ⟨bf, bt, _⟩ := b
        obtain rfl : af = bf := hfrom
        obtain rfl : at' = bt := hto
        rfl
      subst hab
      have htail : rows l = rows l' := by rw [rows_tail h, rows_tail h', heq]
      rw [ih (pairwise_cons.mp h).2 (pairwise_cons.mp h').2 htail]

end RowRange

open RowRange

/-! ## merging -/

section Merge

variable {ranges : List RowRange}

theorem rows_mergeSorted (current : RowRange) (rest : List RowRange)
    (h : (current :: rest).Pairwise fun a b => a.fromId ≤ b.fromId) :
    rows (mergeSorted current rest) = rows (current :: rest) := by
  induction rest generalizing current with
  | nil => rfl
  | cons q rest ih =>
    obtain ⟨hcur, hrest⟩ := pairwise_cons.mp h
    have hq := hcur q mem_cons_self
    rw [mergeSorted]
    split
    · next hle =>
      have hsorted : ∀ h, ((⟨current.fromId, max current.toId q.toId, h⟩ : RowRange) :: rest).Pairwise
          fun a b => a.fromId ≤ b.fromId := fun _ =>
        pairwise_cons.mpr ⟨(forall_mem_cons.mp hcur).2, (pairwise_cons.mp hrest).2⟩
      rw [ih _ (hsorted _)]
      ext x
      rw [mem_rows_cons, mem_rows_cons, mem_rows_cons, ← or_assoc]
      refine or_congr_left ?_
      have hsat : satSucc current.toId ≤ current.toId + 1 := by
        unfold satSucc
        split <;> omega
      show current.fromId ≤ x ∧ x ≤ max current.toId q.toId ↔ _
      have := current.le
      have := q.le
      omega
    · ext x
      rw [mem_rows_cons, mem_rows_cons, ih q hrest]

theorem mergeSorted_merged {current : RowRange} {rest : List RowRange}
    (h : (current :: rest).Pairwise fun a b => a.fromId ≤ b.fromId)
    (hi64 : ∀ r ∈ rest, r.InI64) : Merged (mergeSorted current rest) := by
  refine (mergeSorted_gaps h).imp fun {a b} hab => ?_
  obtain ⟨q, hq, hgap, hle⟩ := hab
  -- a range up to `i64::MAX` touches every later one
  have hmax := (hi64 q hq).2
  have hqle := q.le
  unfold satSucc at hgap
  split at hgap <;> omega

theorem pairwise_sortByFrom (ranges : List RowRange) :
    (ranges.insertionSort fun a b => a.fromId ≤ b.fromId).Pairwise fun a b => a.fromId ≤ b.fromId := by
  have : Std.Total fun a b : RowRange => a.fromId ≤ b.fromId := ⟨fun a b => le_total _ _⟩
  have : IsTrans RowRange fun a b => a.fromId ≤ b.fromId := ⟨fun a b c => le_trans⟩
  exact pairwise_insertionSort _ ranges

theorem mergeRowRanges_merged (hi64 : ∀ r ∈ ranges, r.InI64) : Merged (mergeRowRanges ranges) := by
  unfold mergeRowRanges
  split
  · next h =>
    match ranges, h with
    | [], _ => exact .nil
    | [a], _ => exact pairwise_singleton _ _
  split
  · next h => exact pairwise_of_rangesApart h
  have hs := pairwise_sortByFrom ranges
  have hp := perm_insertionSort (fun a b : RowRange => a.fromId ≤ b.fromId) ranges
  split
  · exact .nil
  · next current rest heq =>
    rw [heq] at hs hp
    exact mergeSorted_merged hs fun r hr => hi64 r (hp.mem_iff.mp (mem_cons_of_mem current hr))

@[simp] theorem rows_mergeRowRanges (ranges : List RowRange) :
    rows (mergeRowRanges ranges) = rows ranges := by
  unfold mergeRowRanges
  split
  · rfl
  split
  · rfl
  have hs := pairwise_sortByFrom ranges
  have hp := perm_insertionSort (fun a b : RowRange => a.fromId ≤ b.fromId) ranges
  split
  · next heq =>
    rw [heq] at hp
    exact rows_perm hp
  · next current rest heq =>
    rw [heq] at hs hp
    rw [rows_mergeSorted current rest hs]
    exact rows_perm hp

end Merge

/-! ## difference -/

/-- the loop over the cuts for one segment: what remains of it from `cursor` on -/
def excludeFrom (seg : RowRange) (cursor : Int) : List RowRange → List RowRange
  | [] => if h : cursor ≤ seg.toId then [⟨cursor, seg.toId, h⟩] else []
  | cut :: cuts =>
    if cut.toId < cursor ∨ seg.toId < cut.fromId then excludeFrom seg cursor cuts
    else
      -- the gap before this cut
      (if h : cursor < cut.fromId then [⟨cursor, cut.fromId - 1, Int.le_sub_one_of_lt h⟩] else []) ++
        -- a cut that reaches the end of the segment leaves nothing (`exhausted`)
        if seg.toId ≤ cut.toId then []
        else excludeFrom seg (max cursor (cut.toId + 1)) cuts

def excludeRowRanges (base subtract : List RowRange) : List RowRange :=
  (mergeRowRanges base).flatMap fun seg => excludeFrom seg seg.fromId (mergeRowRanges subtract)

variable {r : RowRange}

section Exclude

variable {seg : RowRange} {cursor x : Int} {cuts : List RowRange}

theorem mem_rows_gap {c : Int} :
    x ∈ rows (if h : cursor < c then [⟨cursor, c - 1, Int.le_sub_one_of_lt h⟩] else []) ↔
      cursor ≤ x ∧ x < c := by
  split
  · rw [mem_rows_singleton]
    dsimp only
    omega
  · simp only [rows_nil, Set.mem_empty_iff_false, false_iff]
    omega

theorem rows_excludeFrom (hcuts : Apart cuts) :
    rows (excludeFrom seg cursor cuts) = Set.Icc cursor seg.toId \ rows cuts := by
  induction cuts generalizing cursor with
  | nil =>
    ext x
    rw [excludeFrom]
    split
    · simp
    · simp only [rows_nil, Set.mem_empty_iff_false, Set.sdiff_empty, Set.mem_Icc, false_iff]
      omega
  | cons cut cuts ih =>
    obtain ⟨hcut, hcuts'⟩ := pairwise_cons.mp hcuts
    ext x
    rw [excludeFrom, Set.mem_sdiff, mem_rows_cons, Set.mem_Icc]
    split
    · rw [ih hcuts', Set.mem_sdiff, Set.mem_Icc]
      constructor
      · rintro ⟨h₁, h₂⟩
        exact ⟨h₁, fun h => h.elim (fun h => by omega) h₂⟩
      · rintro ⟨h₁, h₂⟩
        exact ⟨h₁, fun h => h₂ (.inr h)⟩
    · next hmeets =>
      -- behind the cut come the other cuts, none of them in the gap before it
      have hlater : x ≤ cut.toId → x ∉ rows cuts := by
        rintro hle ⟨q, hq, hfrom, -⟩
        have := hcut q hq
        omega
      have := cut.le
      rw [mem_rows_append, mem_rows_gap]
      split
      · simp only [rows_nil, Set.mem_empty_iff_false, or_false]
        constructor
        · intro h
          exact ⟨by omega, fun h' => h'.elim (fun h' => by omega) (hlater (by omega))⟩
        · rintro ⟨h₁, h₂⟩
          have : ¬ (cut.fromId ≤ x ∧ x ≤ cut.toId) := fun h => h₂ (.inl h)
          omega
      · rw [ih hcuts', Set.mem_sdiff, Set.mem_Icc]
        constructor
        · rintro (h | ⟨h₁, h₂⟩)
          · exact ⟨by omega, fun h' => h'.elim (fun h' => by omega) (hlater (by omega))⟩
          · exact ⟨by omega, fun h' => h'.elim (fun h' => by omega) h₂⟩
        · rintro ⟨h₁, h₂⟩
          have hout : ¬ (cut.fromId ≤ x ∧ x ≤ cut.toId) := fun h => h₂ (.inl h)
          by_cases hx : x < cut.fromId
          · exact .inl (by omega)
          · exact .inr ⟨by omega, fun h => h₂ (.inr h)⟩

theorem excludeFrom_within (hcuts : Apart cuts) (hr : r ∈ excludeFrom seg cursor cuts) :
    cursor ≤ r.fromId ∧ r.toId ≤ seg.toId := by
  have hin : ∀ x, r.fromId ≤ x → x ≤ r.toId → cursor ≤ x ∧ x ≤ seg.toId := by
    intro x h₁ h₂
    have hx : x ∈ rows (excludeFrom seg cursor cuts) := ⟨r, hr, h₁, h₂⟩
    rw [rows_excludeFrom hcuts] at hx
    exact hx.1
  exact ⟨(hin r.fromId (le_refl _) r.le).1, (hin r.toId r.le (le_refl _)).2⟩

theorem excludeFrom_apart (hcuts : Apart cuts) : Apart (excludeFrom seg cursor cuts) := by
  induction cuts generalizing cursor with
  | nil =>
    rw [excludeFrom]
    split
    · exact pairwise_singleton _ _
    · exact .nil
  | cons cut cuts ih =>
    have hcuts' := (pairwise_cons.mp hcuts).2
    rw [excludeFrom]
    split
    · exact ih hcuts'
    · refine pairwise_append.mpr ⟨?_, ?_, ?_⟩
      · split
        · exact pairwise_singleton _ _
        · exact .nil
      · split
        · exact .nil
        · exact ih hcuts'
      · intro a ha b hb
        split at ha
        · obtain rfl := mem_singleton.mp ha
          split at hb
          · cases hb
          · have := (excludeFrom_within hcuts' hb).1
            have := cut.le
            dsimp only
            omega
        · cases ha

variable {f : RowRange → List RowRange} {base : List RowRange}

theorem rows_flatMap :
    x ∈ rows (base.flatMap f) ↔ ∃ seg ∈ base, x ∈ rows (f seg) := by
  simp only [mem_rows, mem_flatMap]
  constructor
  · rintro ⟨r, ⟨seg, hseg, hr⟩, h⟩
    exact ⟨seg, hseg, r, hr, h⟩
  · rintro ⟨seg, hseg, r, hr, h⟩
    exact ⟨r, ⟨seg, hseg, hr⟩, h⟩

theorem apart_flatMap (hbase : Apart base)
    (hapart : ∀ seg ∈ base, Apart (f seg))
    (hwithin : ∀ seg ∈ base, ∀ r ∈ f seg, seg.fromId ≤ r.fromId ∧ r.toId ≤ seg.toId) :
    Apart (base.flatMap f) := by
  refine pairwise_flatMap.mpr ⟨hapart, ?_⟩
  refine hbase.imp_of_mem fun {a b} ha hb hab p hp q hq => ?_
  have := (hwithin a ha p hp).2
  have := (hwithin b hb q hq).1
  omega

theorem excludeRowRanges_apart (base subtract : List RowRange) : Apart (excludeRowRanges base subtract) :=
  apart_flatMap (mergeRowRanges_apart base) (fun _ _ => excludeFrom_apart (mergeRowRanges_apart subtract))
    (fun _ _ _ hr => excludeFrom_within (mergeRowRanges_apart subtract) hr)

theorem rows_excludeRowRanges (base subtract : List RowRange) :
    rows (excludeRowRanges base subtract) = rows base \ rows subtract := by
  ext x
  rw [excludeRowRanges, rows_flatMap]
  simp only [rows_excludeFrom (mergeRowRanges_apart subtract), rows_mergeRowRanges, Set.mem_sdiff]
  rw [← rows_mergeRowRanges base]
  constructor
  · rintro ⟨seg, hseg, h₁, h₂⟩
    exact ⟨⟨seg, hseg, h₁⟩, h₂⟩
  · rintro ⟨⟨seg, hseg, h₁⟩, h₂⟩
    exact ⟨seg, hseg, h₁, h₂⟩

end Exclude

/-! ## intersection -/

namespace RowRangeIndex

/-- `from_sorted_ranges`: the ranges are canonical already -/
def fromSortedRanges (ranges : List RowRange) (h : Merged ranges) : RowRangeIndex := ⟨ranges, h.apart⟩

def intersectedRanges (index : RowRangeIndex) (start stop : Int) : Option (List RowRange) :=
  let left := index.lowerBound start
  match index.ranges[left]? with
  | none => some []
  | some first =>
    if stop < first.fromId then some []
    else
      let right := if index.ranges.length ≤ index.lowerBound stop then index.ranges.length - 1
        else index.lowerBound stop
      -- the first range, clipped from the left
      (RowRange.new (max start first.fromId) (min stop first.toId)).bind fun head =>
        -- the ranges in the middle
        let middle := if left + 1 < right then (index.ranges.drop (left + 1)).take (right - (left + 1)) else []
        if right = left then some (head :: middle)
        else
          -- the last range, clipped from the right
          match index.ranges[right]? with
          | none => none
          | some last =>
            if last.fromId ≤ stop then
              (RowRange.new (max start last.fromId) (min stop last.toId)).map fun tail =>
                head :: middle ++ [tail]
            else some (head :: middle)

variable {index : RowRangeIndex} {start stop : Int}

theorem ends_before {i : Nat} (hi : i < index.ranges.length) (h : i < index.lowerBound start) :
    index.ranges[i].toId < start := by
  have hb := Bisect.bisect_lt (@ends_sorted index start) h
  rw [getElem?_eq_getElem hi, Option.any_some, decide_eq_true_iff] at hb
  exact hb

theorem ends_from {i : Nat} (hi : i < index.ranges.length) (h : index.lowerBound start ≤ i) :
    start ≤ index.ranges[i].toId := by
  have hb := Bisect.bisect_ge (@ends_sorted index start) h hi
  rw [getElem?_eq_getElem hi, Option.any_some, decide_eq_false_iff_not] at hb
  omega

theorem to_lt_from {i j : Nat} (hj : j < index.ranges.length) (hij : i < j) :
    index.ranges[i].toId < index.ranges[j].fromId :=
  pairwise_iff_getElem.mp index.apart i j (hij.trans hj) hj hij

variable {part : List RowRange}

theorem filterMap_outside (h : ∀ r ∈ part, r.toId < start ∨ stop < r.fromId) :
    part.filterMap (·.intersectInclusive start stop) = [] := by
  rw [filterMap_eq_nil_iff]
  intro r hr
  refine dif_neg ?_
  have := h r hr
  omega

theorem filterMap_clipped (h : r.intersectInclusive start stop = some q) :
    (r :: part).filterMap (·.intersectInclusive start stop) =
      q :: part.filterMap (·.intersectInclusive start stop) :=
  filterMap_cons_some h

theorem filterMap_missed (h : r.intersectInclusive start stop = none) :
    (r :: part).filterMap (·.intersectInclusive start stop) =
      part.filterMap (·.intersectInclusive start stop) :=
  filterMap_cons_none h

theorem filterMap_inside (h : ∀ r ∈ part, start ≤ r.fromId ∧ r.toId ≤ stop) :
    part.filterMap (·.intersectInclusive start stop) = part := by
  induction part with
  | nil => rfl
  | cons r part ih =>
    have hr := h r mem_cons_self
    have hself : r.intersectInclusive start stop = some r := by
      unfold intersectInclusive
      rw [max_eq_left hr.1, min_eq_left hr.2]
      exact new_of_le r.le
    rw [filterMap_clipped hself, ih (forall_mem_cons.mp h).2]

theorem filterMap_take : (index.ranges.take (index.lowerBound start)).filterMap
    (·.intersectInclusive start stop) = [] := by
  refine filterMap_outside fun r hr => .inl ?_
  obtain ⟨i, hi, rfl⟩ := mem_take_iff_getElem.mp hr
  exact ends_before (by omega) (by omega)

theorem filterMap_drop {right : Nat} (hright : index.lowerBound stop ≤ right ∨ index.ranges.length ≤ right + 1) :
    (index.ranges.drop (right + 1)).filterMap (·.intersectInclusive start stop) = [] := by
  refine filterMap_outside fun r hr => .inr ?_
  obtain ⟨i, hi, rfl⟩ := mem_drop_iff_getElem.mp hr
  have hle : index.lowerBound stop ≤ right := by omega
  have := ends_from (by omega) hle
  have := to_lt_from (show right + 1 + i < index.ranges.length by omega) (show right < right + 1 + i by omega)
  omega

theorem lowerBound_le (hle : start ≤ stop) (hlt : index.lowerBound stop < index.ranges.length) :
    index.lowerBound start ≤ index.lowerBound stop := by
  by_contra hcon
  have := ends_before hlt (Nat.lt_of_not_le hcon)
  have := ends_from hlt (le_refl _)
  omega

/-- **The double binary search clips every range of the index to the interval.** -/
theorem intersectedRanges_eq (hle : start ≤ stop) : index.intersectedRanges start stop =
    some (index.ranges.filterMap (·.intersectInclusive start stop)) := by
  have hsplit := take_append_drop (index.lowerBound start) index.ranges
  have hclip : index.ranges.filterMap (·.intersectInclusive start stop) =
      (index.ranges.drop (index.lowerBound start)).filterMap (·.intersectInclusive start stop) := by
    conv_lhs => rw [← hsplit]
    rw [filterMap_append, filterMap_take, nil_append]
  rw [hclip, intersectedRanges]
  set left := index.lowerBound start with hleft
  obtain hnone | hlt := Nat.lt_or_ge left index.ranges.length |>.symm
  · rw [getElem?_eq_none hnone, drop_eq_nil_of_le hnone]
    rfl
  have hfirst := ends_from hlt (le_refl left)
  rw [getElem?_eq_getElem hlt, drop_eq_getElem_cons hlt]
  dsimp only
  split
  · next hafter =>
    rw [filterMap_outside]
    intro r hr
    rcases mem_cons.mp hr with rfl | hr
    · exact .inr hafter
    · obtain ⟨i, hi, rfl⟩ := mem_drop_iff_getElem.mp hr
      have := to_lt_from (show left + 1 + i < index.ranges.length by omega)
        (show left < left + 1 + i by omega)
      have := (index.ranges[left]).le
      exact .inr (by omega)
  next hmeets =>
  set right := if index.ranges.length ≤ index.lowerBound stop then index.ranges.length - 1
    else index.lowerBound stop with hright
  have hbounds : left ≤ right ∧ right < index.ranges.length ∧ right ≤ index.lowerBound stop ∧
      (index.lowerBound stop ≤ right ∨ index.ranges.length ≤ right + 1) := by
    rw [hright]
    split
    · omega
    · next h => exact ⟨lowerBound_le hle (by omega), by omega, le_refl _, .inl (le_refl _)⟩
  obtain ⟨hlr, hrn, hrb, hend⟩ := hbounds
  clear_value right
  have hhead : max start index.ranges[left].fromId ≤ min stop index.ranges[left].toId := by
    have := (index.ranges[left]).le
    omega
  rw [filterMap_clipped (intersectInclusive_of_le hhead), new_of_le hhead, Option.bind_some]
  obtain rfl | hlt' := hlr.eq_or_lt
  · rw [if_pos rfl, if_neg (by omega), filterMap_drop hend]
  · rw [if_neg (by omega), getElem?_eq_getElem hrn]
    have hmiddle : (if left + 1 < right then (index.ranges.drop (left + 1)).take (right - (left + 1)) else []) =
        (index.ranges.drop (left + 1)).take (right - (left + 1)) := by
      split
      · rfl
      · rw [show right - (left + 1) = 0 by omega, take_zero]
    have hdrop : index.ranges.drop (left + 1) = (index.ranges.drop (left + 1)).take (right - (left + 1)) ++
          index.ranges[right] :: index.ranges.drop (right + 1) := by
      conv_lhs => rw [← take_append_drop (right - (left + 1)) (index.ranges.drop (left + 1))]
      rw [drop_drop, show left + 1 + (right - (left + 1)) = right by omega, drop_eq_getElem_cons hrn]
    have hinside : ((index.ranges.drop (left + 1)).take (right - (left + 1))).filterMap
        (·.intersectInclusive start stop) = (index.ranges.drop (left + 1)).take (right - (left + 1)) := by
      refine filterMap_inside fun r hr => ?_
      obtain ⟨i, hi, hget⟩ := mem_take_iff_getElem.mp hr
      rw [length_drop] at hi
      rw [getElem_drop] at hget
      subst hget
      have := to_lt_from (show left + 1 + i < index.ranges.length by omega)
        (show left < left + 1 + i by omega)
      have := ends_before (show left + 1 + i < index.ranges.length by omega)
        (show left + 1 + i < index.lowerBound stop by omega)
      omega
    conv_rhs => rw [hdrop, filterMap_append, hinside]
    rw [hmiddle]
    dsimp only
    have hlast := to_lt_from hrn hlt'
    split
    · next hin =>
      have htail : max start index.ranges[right].fromId ≤ min stop index.ranges[right].toId := by
        have := (index.ranges[right]).le
        omega
      rw [new_of_le htail, filterMap_clipped (intersectInclusive_of_le htail), filterMap_drop hend]
      rfl
    · next hout =>
      rw [filterMap_missed (dif_neg (by omega)), filterMap_drop hend, append_nil]

variable {ranges : List RowRange}

theorem mem_rows_filterMap {x : Int} : x ∈ rows (ranges.filterMap (·.intersectInclusive start stop)) ↔
      x ∈ rows ranges ∧ start ≤ x ∧ x ≤ stop := by
  simp only [mem_rows, mem_filterMap]
  constructor
  · rintro ⟨q, ⟨r, hr, hclip⟩, hxq⟩
    have := intersectInclusive_ends hclip
    exact ⟨⟨r, hr, by omega, by omega⟩, by omega, by omega⟩
  · rintro ⟨⟨r, hr, hx⟩, hstart, hstop⟩
    have hne : max r.fromId start ≤ min r.toId stop := by omega
    refine ⟨_, ⟨r, hr, new_of_le hne⟩, ?_⟩
    dsimp only
    omega

theorem filterMap_within
    (hq : q ∈ ranges.filterMap (·.intersectInclusive start stop)) : start ≤ q.fromId ∧ q.toId ≤ stop := by
  have hends : ∀ x, q.fromId ≤ x → x ≤ q.toId → start ≤ x ∧ x ≤ stop := fun x h₁ h₂ =>
    (mem_rows_filterMap.mp (⟨q, hq, h₁, h₂⟩ : x ∈ rows (ranges.filterMap _))).2
  exact ⟨(hends q.fromId (le_refl _) q.le).1, (hends q.toId q.le (le_refl _)).2⟩

theorem filterMap_apart (h : Apart ranges) : Apart (ranges.filterMap (·.intersectInclusive start stop)) := by
  refine pairwise_filterMap.mpr (h.imp fun {a b} hab p hp q hq => ?_)
  have := intersectInclusive_ends hp
  have := intersectInclusive_ends hq
  omega

end RowRangeIndex

def intersectSortedRanges (a : List RowRange) (ha : Merged a) (b : List RowRange) : Option (List RowRange) :=
  (b.mapM fun r => (RowRangeIndex.fromSortedRanges a ha).intersectedRanges r.fromId r.toId).map List.flatten

variable {a b : List RowRange}

theorem intersectSortedRanges_eq (ha : Merged a) : intersectSortedRanges a ha b =
      some (b.flatMap fun r => a.filterMap (·.intersectInclusive r.fromId r.toId)) := by
  have hparts : b.mapM (fun r => (RowRangeIndex.fromSortedRanges a ha).intersectedRanges r.fromId r.toId) =
      some (b.map fun r => a.filterMap (·.intersectInclusive r.fromId r.toId)) := by
    refine Traverse.option_mapM.mpr (forall₂_map_right_iff.mpr (forall₂_same.mpr ?_))
    intro r _
    exact RowRangeIndex.intersectedRanges_eq r.le
  rw [intersectSortedRanges, hparts, Option.map_some, flatMap_def]

theorem rows_flatMap_clip :
    rows (b.flatMap fun r => a.filterMap (·.intersectInclusive r.fromId r.toId)) = rows a ∩ rows b := by
  ext x
  simp only [rows_flatMap, RowRangeIndex.mem_rows_filterMap, Set.mem_inter_iff]
  constructor
  · rintro ⟨r, hr, ha, hx⟩
    exact ⟨ha, r, hr, hx⟩
  · rintro ⟨ha, r, hr, hx⟩
    exact ⟨r, hr, ha, hx⟩

/-! ## bitmaps -/

/-- `x as i64` of an unsigned 64-bit value -/
def asI64 (x : Nat) : Int := if x < 2 ^ 63 then x else (x : Int) - 2 ^ 64

/-- the values by their high 32 bits; every part holds its low 32 bits in ascending order -/
structure RoaringTreemap where
  bitmaps : List (Nat × List Nat)
  ordered : bitmaps.Pairwise fun p q => p.1 < q.1
  high_lt : ∀ p ∈ bitmaps, p.1 < 2 ^ 32
  low_sorted : ∀ p ∈ bitmaps, p.2.Pairwise (· < ·)
  low_lt : ∀ p ∈ bitmaps, ∀ v ∈ p.2, v < 2 ^ 32

def RoaringTreemap.values (bitmap : RoaringTreemap) : Set Int :=
  {x | ∃ p ∈ bitmap.bitmaps, ∃ v ∈ p.2, x = ((p.1 * 2 ^ 32 + v : Nat) : Int)}

/-- What the results of `next_range` are: ranges of consecutive values that follow one another and
together are the values of the bitmap.  They need not be maximal. -/
def Runs (low : List Nat) (runs : List (Nat × Nat)) : Prop :=
  (∀ run ∈ runs, run.1 ≤ run.2) ∧ low = runs.flatMap fun run => List.range' run.1 (run.2 + 1 - run.1)

/-- one turn of the loop: a run joins the last range or becomes a range of its own -/
def pushRun (ranges : List RowRange) (start stop : Int) : Option (List RowRange) :=
  match ranges.getLast? with
  | some last =>
    if last.toId ≠ i64Max ∧ last.toId + 1 = start then
      (RowRange.new last.fromId stop).map fun joined => ranges.dropLast ++ [joined]
    else (RowRange.new start stop).map fun r => ranges ++ [r]
  | none => (RowRange.new start stop).map fun r => ranges ++ [r]

/-- `nextRanges` stands for the repeated calls of `next_range` on one part -/
def bitmapToRanges (nextRanges : List Nat → List (Nat × Nat)) (bitmap : RoaringTreemap) :
    Option (List RowRange) :=
  bitmap.bitmaps.foldlM (fun ranges (p : Nat × List Nat) =>
    (nextRanges p.2).foldlM (fun ranges (run : Nat × Nat) =>
      pushRun ranges (asI64 (p.1 <<< 32 ||| run.1)) (asI64 (p.1 <<< 32 ||| run.2))) ranges) []

section Bitmap

variable {ranges : List RowRange} {start stop : Int}

theorem pushRun_spec (hm : Merged ranges) (hafter : ∀ r ∈ ranges, r.toId < start) (hle : start ≤ stop)
    (hmax : stop ≤ i64Max) :
    ∃ l, pushRun ranges start stop = some l ∧ Merged l ∧ rows l = rows ranges ∪ Set.Icc start stop ∧
      ∀ r ∈ l, r.toId ≤ stop := by
  obtain rfl | ⟨init, last, rfl⟩ := eq_nil_or_concat' ranges
  · refine ⟨[⟨start, stop, hle⟩], ?_, pairwise_singleton _ _, ?_, ?_⟩
    · show (RowRange.new start stop).map _ = _
      rw [new_of_le hle]
      rfl
    · ext x
      rw [mem_rows_singleton]
      simp
    · intro r hr
      rw [mem_singleton.mp hr]
  obtain ⟨hinit, -, hlast⟩ := pairwise_append.mp hm
  have hlast' : ∀ a ∈ init, a.toId + 1 < last.fromId := fun a ha => hlast a ha last mem_cons_self
  have hbefore : last.toId < start := hafter last (by simp)
  have hll := last.le
  unfold pushRun
  rw [getLast?_concat]
  dsimp only
  split
  · next hjoin =>
    have hle' : last.fromId ≤ stop := by omega
    refine ⟨init ++ [⟨last.fromId, stop, hle'⟩], ?_, ?_, ?_, ?_⟩
    · rw [new_of_le hle', dropLast_concat]
      rfl
    · refine pairwise_append.mpr ⟨hinit, pairwise_singleton _ _, fun a ha b hb => ?_⟩
      rw [mem_singleton.mp hb]
      exact hlast' a ha
    · ext x
      rw [Set.mem_union, mem_rows_append, mem_rows_append, mem_rows_singleton, mem_rows_singleton, or_assoc,
        Set.mem_Icc]
      refine or_congr_right ?_
      dsimp only
      omega
    · intro r hr
      rcases mem_append.mp hr with h | h
      · have := hlast' r h
        omega
      · rw [mem_singleton.mp h]
  · next hgap =>
    refine ⟨init ++ [last] ++ [⟨start, stop, hle⟩], ?_, ?_, ?_, ?_⟩
    · rw [new_of_le hle]
      rfl
    · refine pairwise_append.mpr ⟨hm, pairwise_singleton _ _, fun a ha b hb => ?_⟩
      rw [mem_singleton.mp hb]
      show a.toId + 1 < start
      rcases mem_append.mp ha with h | h
      · have := hlast' a h
        omega
      · rw [mem_singleton.mp h]
        omega
    · ext x
      rw [Set.mem_union, mem_rows_append, mem_rows_singleton, Set.mem_Icc]
    · intro r hr
      rcases mem_append.mp hr with h | h
      · have := hafter r h
        omega
      · rw [mem_singleton.mp h]

/-- the runs of all parts, in the order of the loops -/
def runPairs (nextRanges : List Nat → List (Nat × Nat)) (bitmaps : List (Nat × List Nat)) :
    List (Int × Int) :=
  bitmaps.flatMap fun p => (nextRanges p.2).map fun run =>
    (asI64 (p.1 <<< 32 ||| run.1), asI64 (p.1 <<< 32 ||| run.2))

theorem pushRuns_spec {pairs : List (Int × Int)} (hm : Merged ranges)
    (hafter : ∀ r ∈ ranges, ∀ p ∈ pairs, r.toId < p.1)
    (hpairs : ∀ p ∈ pairs, p.1 ≤ p.2 ∧ p.2 ≤ i64Max) (horder : pairs.Pairwise fun p q => p.2 < q.1) :
    ∃ l, pairs.foldlM (fun ranges p => pushRun ranges p.1 p.2) ranges = some l ∧ Merged l ∧
      rows l = rows ranges ∪ {x | ∃ p ∈ pairs, p.1 ≤ x ∧ x ≤ p.2} := by
  induction pairs generalizing ranges with
  | nil => exact ⟨ranges, rfl, hm, by simp⟩
  | cons p pairs ih =>
    obtain ⟨hp, horder'⟩ := pairwise_cons.mp horder
    obtain ⟨hle, hmax⟩ := hpairs p mem_cons_self
    obtain ⟨l, hl, hml, hrows, hends⟩ :=
      pushRun_spec hm (fun r hr => hafter r hr p mem_cons_self) hle hmax
    obtain ⟨l', hl', hml', hrows'⟩ := ih hml (fun r hr q hq => (hends r hr).trans_lt (hp q hq))
      (forall_mem_cons.mp hpairs).2 horder'
    refine ⟨l', ?_, hml', ?_⟩
    · rw [foldlM_cons, hl]
      exact hl'
    · rw [hrows', hrows, Set.union_assoc]
      congr 1
      ext x
      simp

theorem bitmapToRanges_eq (nextRanges : List Nat → List (Nat × Nat)) (bitmap : RoaringTreemap) :
    bitmapToRanges nextRanges bitmap =
      (runPairs nextRanges bitmap.bitmaps).foldlM (fun ranges p => pushRun ranges p.1 p.2) [] := by
  unfold bitmapToRanges runPairs
  generalize ([] : List RowRange) = ranges
  induction bitmap.bitmaps generalizing ranges with
  | nil => rfl
  | cons p rest ih =>
    rw [foldlM_cons, flatMap_cons, foldlM_append, foldlM_map]
    congr 1
    funext ranges'
    exact ih ranges'

variable {nextRanges : List Nat → List (Nat × Nat)} {low : List Nat} {high v : Nat}

theorem asI64_parts (hhigh : high < 2 ^ 31) (hv : v < 2 ^ 32) :
    asI64 (high <<< 32 ||| v) = ((high * 2 ^ 32 + v : Nat) : Int) := by
  rw [← Nat.shiftLeft_add_eq_or_of_lt hv, Nat.shiftLeft_eq]
  exact if_pos (by omega)

variable {runs : List (Nat × Nat)}

theorem Runs.mem_iff (h : Runs low runs) :
    v ∈ low ↔ ∃ run ∈ runs, run.1 ≤ v ∧ v ≤ run.2 := by
  rw [h.2, mem_flatMap]
  refine exists_congr fun run => and_congr_right fun hrun => ?_
  have := h.1 run hrun
  rw [List.mem_range'_1]
  omega

theorem Runs.ordered (h : Runs low runs) (hlow : low.Pairwise (· < ·)) :
    runs.Pairwise fun p q => p.2 < q.1 := by
  rw [h.2] at hlow
  refine (pairwise_flatMap.mp hlow).2.imp_of_mem fun {p q} hp hq hpq => ?_
  have hple := h.1 p hp
  have hqle := h.1 q hq
  exact hpq p.2 (List.mem_range'_1.mpr (by omega)) q.1 (List.mem_range'_1.mpr (by omega))

variable {bitmap : RoaringTreemap}

theorem run_pair (hruns : ∀ low, Runs low (nextRanges low)) (hpos : ∀ p ∈ bitmap.bitmaps, p.1 < 2 ^ 31)
    {p : Nat × List Nat} (hp : p ∈ bitmap.bitmaps) {run : Nat × Nat} (hrun : run ∈ nextRanges p.2) :
    run.1 ≤ run.2 ∧ run.2 < 2 ^ 32 ∧ asI64 (p.1 <<< 32 ||| run.1) = ((p.1 * 2 ^ 32 + run.1 : Nat) : Int) ∧
      asI64 (p.1 <<< 32 ||| run.2) = ((p.1 * 2 ^ 32 + run.2 : Nat) : Int) := by
  have hle := (hruns p.2).1 run hrun
  have hlt : run.2 < 2 ^ 32 :=
    bitmap.low_lt p hp run.2 ((hruns p.2).mem_iff.mpr ⟨run, hrun, hle, le_refl _⟩)
  exact ⟨hle, hlt, asI64_parts (hpos p hp) (by omega), asI64_parts (hpos p hp) hlt⟩

theorem runPairs_ordered (hruns : ∀ low, Runs low (nextRanges low))
    (hpos : ∀ p ∈ bitmap.bitmaps, p.1 < 2 ^ 31) :
    (runPairs nextRanges bitmap.bitmaps).Pairwise fun p q => p.2 < q.1 := by
  refine pairwise_flatMap.mpr ⟨fun p hp => ?_, ?_⟩
  · refine pairwise_map.mpr (((hruns p.2).ordered (bitmap.low_sorted p hp)).imp_of_mem ?_)
    intro r q hr hq hrq
    obtain ⟨-, -, -, h₁⟩ := run_pair hruns hpos hp hr
    obtain ⟨-, -, h₂, -⟩ := run_pair hruns hpos hp hq
    show asI64 _ < asI64 _
    rw [h₁, h₂]
    omega
  · refine bitmap.ordered.imp_of_mem fun {p q} hp hq hpq x hx y hy => ?_
    obtain ⟨r, hr, rfl⟩ := mem_map.mp hx
    obtain ⟨s, hs, rfl⟩ := mem_map.mp hy
    obtain ⟨-, hlt, -, h₁⟩ := run_pair hruns hpos hp hr
    obtain ⟨-, -, h₂, -⟩ := run_pair hruns hpos hq hs
    show asI64 _ < asI64 _
    rw [h₁, h₂]
    omega

theorem bitmapToRanges_spec (hruns : ∀ low, Runs low (nextRanges low))
    (hpos : ∀ p ∈ bitmap.bitmaps, p.1 < 2 ^ 31) :
    ∃ l, bitmapToRanges nextRanges bitmap = some l ∧ Merged l ∧ rows l = bitmap.values := by
  rw [bitmapToRanges_eq]
  have hpairs : ∀ q ∈ runPairs nextRanges bitmap.bitmaps, q.1 ≤ q.2 ∧ q.2 ≤ i64Max := by
    intro q hq
    obtain ⟨p, hp, hq⟩ := mem_flatMap.mp hq
    obtain ⟨run, hrun, rfl⟩ := mem_map.mp hq
    obtain ⟨hle, hlt, h₁, h₂⟩ := run_pair hruns hpos hp hrun
    have hhigh := hpos p hp
    rw [h₁, h₂]
    show _ ∧ _ ≤ (9223372036854775807 : Int)
    omega
  have hnil : Merged [] := .nil
  obtain ⟨l, hl, hm, hrows⟩ := pushRuns_spec hnil (forall_mem_nil _) hpairs (runPairs_ordered hruns hpos)
  refine ⟨l, hl, hm, ?_⟩
  rw [hrows, rows_nil, Set.empty_union]
  ext x
  simp only [runPairs, mem_flatMap, mem_map, Set.mem_ofPred_eq, RoaringTreemap.values]
  constructor
  · rintro ⟨q, ⟨p, hp, run, hrun, rfl⟩, hx⟩
    obtain ⟨hle, hlt, h₁, h₂⟩ := run_pair hruns hpos hp hrun
    rw [h₁, h₂] at hx
    refine ⟨p, hp, x.toNat - p.1 * 2 ^ 32, (hruns p.2).mem_iff.mpr ⟨run, hrun, ?_, ?_⟩, ?_⟩
    all_goals omega
  · rintro ⟨p, hp, v, hv, rfl⟩
    obtain ⟨run, hrun, hle, hge⟩ := (hruns p.2).mem_iff.mp hv
    obtain ⟨-, -, h₁, h₂⟩ := run_pair hruns hpos hp hrun
    refine ⟨_, ⟨p, hp, run, hrun, rfl⟩, ?_⟩
    rw [h₁, h₂]
    omega

end Bitmap

theorem RowRangeIndex.intersects_iff_nonempty {index : RowRangeIndex} {start stop : Int}
    (hle : start ≤ stop) :
    index.intersects start stop = true ↔ (rows index.ranges ∩ Set.Icc start stop).Nonempty := by
  rw [RowRangeIndex.intersects_iff]
  constructor
  · rintro ⟨r, hr, h₁, h₂⟩
    have := r.le
    exact ⟨max start r.fromId, ⟨r, hr, by omega, by omega⟩, by omega, by omega⟩
  · rintro ⟨x, ⟨r, hr, hx⟩, hstart, hstop⟩
    exact ⟨r, hr, by omega, by omega⟩

/-- **The row-range functions are set operations.**  A list in `i64` has one merged list with its rows,
and merging returns it; the others return ascending ranges without common rows for the difference, the
intersection of two merged lists, the intersection of an index with an interval, and a bitmap of
row ids. -/
theorem row_range_algebra : (∀ ranges : List RowRange, (∀ r ∈ ranges, r.InI64) →
      Merged (mergeRowRanges ranges) ∧ rows (mergeRowRanges ranges) = rows ranges ∧
      (∀ r ∈ mergeRowRanges ranges, r.fromId - 1 ∉ rows ranges ∧ r.toId + 1 ∉ rows ranges) ∧
      ∀ other, Merged other → rows other = rows ranges → other = mergeRowRanges ranges) ∧
    (∀ base subtract : List RowRange, Apart (excludeRowRanges base subtract) ∧
      rows (excludeRowRanges base subtract) = rows base \ rows subtract) ∧
    (∀ (a b : List RowRange) (ha : Merged a), Merged b →
      ∃ l, intersectSortedRanges a ha b = some l ∧ Apart l ∧ rows l = rows a ∩ rows b) ∧
    (∀ (index : RowRangeIndex) (start stop : Int), start ≤ stop →
      (index.intersects start stop = true ↔ (rows index.ranges ∩ Set.Icc start stop).Nonempty) ∧
      ∃ l, index.intersectedRanges start stop = some l ∧ Apart l ∧
        rows l = rows index.ranges ∩ Set.Icc start stop) ∧
    ∀ nextRanges, (∀ low, Runs low (nextRanges low)) →
      ∀ bitmap : RoaringTreemap, (∀ p ∈ bitmap.bitmaps, p.1 < 2 ^ 31) →
        ∃ l, bitmapToRanges nextRanges bitmap = some l ∧ Merged l ∧ rows l = bitmap.values := by
  refine ⟨fun ranges hi64 => ?_, fun base subtract => ?_, fun a b ha hb => ?_,
    fun index start stop hle => ?_, fun nextRanges hruns bitmap hpos => bitmapToRanges_spec hruns hpos⟩
  · have hm := mergeRowRanges_merged hi64
    refine ⟨hm, rows_mergeRowRanges ranges, fun r hr => ?_, fun other ho heq => ?_⟩
    · rw [← rows_mergeRowRanges ranges]
      exact hm.maximal hr
    · exact merged_unique ho hm (heq.trans (rows_mergeRowRanges ranges).symm)
  · exact ⟨excludeRowRanges_apart base subtract, rows_excludeRowRanges base subtract⟩
  · refine ⟨_, intersectSortedRanges_eq ha, ?_, rows_flatMap_clip⟩
    exact apart_flatMap hb.apart (fun _ _ => RowRangeIndex.filterMap_apart ha.apart)
      (fun _ _ _ hr => RowRangeIndex.filterMap_within hr)
  · refine ⟨RowRangeIndex.intersects_iff_nonempty hle, _, RowRangeIndex.intersectedRanges_eq hle,
      RowRangeIndex.filterMap_apart index.apart, ?_⟩
    ext x
    rw [RowRangeIndex.mem_rows_filterMap]
    exact Iff.rfl

/-- ranges that touch at the largest row id -/
theorem row_range_algebra_at_max :
    Merged (mergeRowRanges [⟨5, i64Max, by decide⟩, ⟨i64Max, i64Max, by decide⟩, ⟨3, 4, by decide⟩]) ∧
      mergeRowRanges [⟨5, i64Max, by decide⟩, ⟨i64Max, i64Max, by decide⟩, ⟨3, 4, by decide⟩] =
        [⟨3, i64Max, by decide⟩] := by
  refine ⟨(row_range_algebra.1 _ ?_).1, by decide⟩
  unfold RowRange.InI64
  decide

end Paimon
