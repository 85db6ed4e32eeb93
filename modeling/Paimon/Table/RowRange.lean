import Paimon.Lib.Bisect
import Paimon.Spec.Manifest

/-!
# Row ranges

`RowRange` and `merge_row_ranges` of `table/source.rs`.  A range is inclusive and never empty: the
constructor of the source asserts `from <= to`, here the bound is a field.

`RowRangeIndex` of `table/global_index_scanner/row_ranges.rs` answers whether an interval meets a
set of merged ranges, by binary search (`intersects_iff`).
-/

namespace Paimon

open List

structure RowRange where
  fromId : Int
  toId : Int
  le : fromId ≤ toId
deriving DecidableEq, Repr

/-- `i64::saturating_add(1)` -/
def satSucc (x : Int) : Int := if x = i64Max then i64Max else x + 1

/-- `to.checked_add(1).is_some_and(|next| next < from)` -/
def RowRange.before (a b : RowRange) : Bool := decide (a.toId ≠ i64Max ∧ a.toId + 1 < b.fromId)

/-- every window of two is sorted and not adjacent -/
def rangesApart : List RowRange → Bool
  | a :: b :: rest => a.before b && rangesApart (b :: rest)
  | _ => true

/-- merging of sorted ranges into the current one -/
def mergeSorted (current : RowRange) : List RowRange → List RowRange
  | [] => [current]
  | r :: rest =>
    if r.fromId ≤ satSucc current.toId then
      mergeSorted ⟨current.fromId, max current.toId r.toId, le_trans current.le (le_max_left _ _)⟩ rest
    else current :: mergeSorted r rest

def mergeRowRanges (ranges : List RowRange) : List RowRange :=
  if ranges.length ≤ 1 then ranges
  else if rangesApart ranges then ranges
  else match ranges.insertionSort (fun a b => a.fromId ≤ b.fromId) with
    | [] => []
    | current :: rest => mergeSorted current rest

/-! ## merged ranges stand apart -/

/-- in ascending order, no two with a common row -/
def RowRange.Apart (ranges : List RowRange) : Prop :=
  ranges.Pairwise fun a b => a.toId < b.fromId

theorem le_satSucc (x : Int) : x ≤ satSucc x := by
  unfold satSucc
  split <;> omega

theorem pairwise_of_rangesApart {ranges : List RowRange} (h : rangesApart ranges = true) :
    ranges.Pairwise fun a b => a.toId + 1 < b.fromId := by
  have : IsTrans RowRange fun a b => a.toId + 1 < b.fromId :=
    ⟨fun a b c hab hbc => by have := b.le; omega⟩
  refine (isChain_iff_pairwise).mp ?_
  induction ranges with
  | nil => exact .nil
  | cons a rest ih =>
    cases rest with
    | nil => exact .singleton a
    | cons b rest =>
      rw [rangesApart, Bool.and_eq_true] at h
      exact .cons_cons (of_decide_eq_true h.1).2 (ih h.2)

theorem mergeSorted_head (current : RowRange) (rest : List RowRange) :
    ∀ r ∈ mergeSorted current rest, current.fromId ≤ r.fromId ∨ ∃ q ∈ rest, q.fromId = r.fromId := by
  induction rest generalizing current with
  | nil =>
    intro r hr
    obtain rfl := mem_singleton.mp hr
    exact .inl (le_refl _)
  | cons q rest ih =>
    intro r hr
    rw [mergeSorted] at hr
    split at hr
    · exact (ih _ r hr).imp id fun ⟨q', hq', h⟩ => ⟨q', mem_cons_of_mem q hq', h⟩
    · rcases mem_cons.mp hr with rfl | hr
      · exact .inl (le_refl _)
      · rcases ih q r hr with h | ⟨q', hq', h⟩
        · exact .inl (by have := le_satSucc current.toId; have := current.le; omega)
        · exact .inr ⟨q', mem_cons_of_mem q hq', h⟩

theorem mergeSorted_gaps {current : RowRange} {rest : List RowRange}
    (h : (current :: rest).Pairwise fun a b => a.fromId ≤ b.fromId) : (mergeSorted current rest).Pairwise
      fun a b => ∃ q ∈ rest, satSucc a.toId < q.fromId ∧ q.fromId ≤ b.fromId := by
  induction rest generalizing current with
  | nil => exact pairwise_singleton _ _
  | cons q rest ih =>
    obtain ⟨hcur, hrest⟩ := pairwise_cons.mp h
    rw [mergeSorted]
    split
    · refine (ih (pairwise_cons.mpr ⟨fun b hb => ?_, (pairwise_cons.mp hrest).2⟩)).imp fun hab => ?_
      · exact hcur b (mem_cons_of_mem q hb)
      · exact exists_mem_cons_of_exists hab
    · next hgap =>
      refine pairwise_cons.mpr ⟨fun r hr => ⟨q, mem_cons_self, not_le.mp hgap, ?_⟩,
        (ih hrest).imp fun hab => exists_mem_cons_of_exists hab⟩
      rcases mergeSorted_head q rest r hr with h' | ⟨q', hq', h'⟩
      · exact h'
      · exact h' ▸ (pairwise_cons.mp hrest).1 q' hq'

theorem mergeSorted_apart {current : RowRange} {rest : List RowRange}
    (h : (current :: rest).Pairwise fun a b => a.fromId ≤ b.fromId) :
    RowRange.Apart (mergeSorted current rest) := by
  refine (mergeSorted_gaps h).imp fun {a b} hab => ?_
  obtain ⟨q, -, hgap, hle⟩ := hab
  have := le_satSucc a.toId
  omega

theorem mergeRowRanges_apart (ranges : List RowRange) : RowRange.Apart (mergeRowRanges ranges) := by
  unfold mergeRowRanges
  split
  · next h =>
    match ranges, h with
    | [], _ => exact .nil
    | [a], _ => exact pairwise_singleton _ _
  split
  · next h => exact (pairwise_of_rangesApart h).imp fun hab => by omega
  have : Std.Total fun a b : RowRange => a.fromId ≤ b.fromId := ⟨fun a b => le_total _ _⟩
  have : IsTrans RowRange fun a b => a.fromId ≤ b.fromId := ⟨fun a b c => le_trans⟩
  have hs := pairwise_insertionSort (fun a b : RowRange => a.fromId ≤ b.fromId) ranges
  split
  · exact .nil
  · next current rest heq =>
    rw [heq] at hs
    exact mergeSorted_apart hs

/-! ## the index -/

structure RowRangeIndex where
  ranges : List RowRange
  apart : RowRange.Apart ranges

namespace RowRangeIndex

def create (ranges : List RowRange) : RowRangeIndex :=
  ⟨mergeRowRanges ranges, mergeRowRanges_apart ranges⟩

/-- `lower_bound` over the ends: the first range that does not end before `start` -/
def lowerBound (index : RowRangeIndex) (start : Int) : Nat :=
  Bisect.bisect (fun i => index.ranges[i]?.any fun r => decide (r.toId < start)) index.ranges.length

def intersects (index : RowRangeIndex) (start stop : Int) : Bool :=
  match index.ranges[index.lowerBound start]? with
  | none => false
  | some r => decide (r.fromId ≤ stop)

variable {index : RowRangeIndex} {start stop : Int}

theorem ends_sorted : Bisect.Sorted (fun i => index.ranges[i]?.any fun r => decide (r.toId < start))
    index.ranges.length := by
  intro i j hij hj h
  dsimp only at h ⊢
  rw [getElem?_eq_getElem hj, Option.any_some, decide_eq_true_iff] at h
  rw [getElem?_eq_getElem (hij.trans_lt hj), Option.any_some, decide_eq_true_iff]
  rcases hij.eq_or_lt with rfl | hlt
  · exact h
  · have := pairwise_iff_getElem.mp index.apart i j (hij.trans_lt hj) hj hlt
    have := index.ranges[j].le
    omega

/-- **An interval meets the index when it meets one of the ranges.** -/
theorem intersects_iff :
    index.intersects start stop = true ↔ ∃ r ∈ index.ranges, start ≤ r.toId ∧ r.fromId ≤ stop := by
  unfold intersects
  constructor
  · intro h
    split at h
    · cases h
    · next r hr =>
      obtain ⟨hlt, hget⟩ := List.getElem?_eq_some_iff.mp hr
      refine ⟨r, mem_of_getElem? hr, ?_, of_decide_eq_true h⟩
      have hge := Bisect.bisect_ge ends_sorted (le_refl (index.lowerBound start)) hlt
      rw [hr, Option.any_some, decide_eq_false_iff_not] at hge
      omega
  · rintro ⟨r, hr, hstart, hstop⟩
    obtain ⟨i, hi⟩ := getElem?_of_mem hr
    obtain ⟨hlt, hget⟩ := List.getElem?_eq_some_iff.mp hi
    -- the first candidate is at or before `r`
    have hle : index.lowerBound start ≤ i := by
      by_contra hcon
      have h := Bisect.bisect_lt (@ends_sorted index start) (Nat.lt_of_not_le hcon)
      rw [hi, Option.any_some, decide_eq_true_iff] at h
      omega
    have hin := hle.trans_lt hlt
    rw [getElem?_eq_getElem hin]
    dsimp only
    rw [decide_eq_true_iff]
    rcases hle.eq_or_lt with heq | hlt'
    · subst hget
      simp only [heq]
      exact hstop
    · have := pairwise_iff_getElem.mp index.apart _ i hin hlt hlt'
      have := (index.ranges[index.lowerBound start]).le
      subst hget
      omega

theorem intersects_mono {start' stop' : Int} (h : index.intersects start stop = true)
    (hstart : start' ≤ start) (hstop : stop ≤ stop') : index.intersects start' stop' = true := by
  obtain ⟨r, hr, h₁, h₂⟩ := intersects_iff.mp h
  exact intersects_iff.mpr ⟨r, hr, hstart.trans h₁, h₂.trans hstop⟩

end RowRangeIndex

end Paimon
