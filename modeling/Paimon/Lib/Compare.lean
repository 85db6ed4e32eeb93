import Mathlib

/-!
# Three-way comparisons in linear orders

`compare` under strictly monotone maps, and the item-by-item comparison of lists as the comparison
in the lexicographic order.  Lists carry an `Ord` instance of their own, so the ordered lists are a
type of their own, `LexList`.
-/

namespace Compare

variable {α β : Type*} [LinearOrder α] [LinearOrder β] {f : α → β}

theorem map_eq (hf : StrictMono f) (a b : α) : compare (f a) (f b) = compare a b := by
  rw [← cmp_eq_compare, ← cmp_eq_compare, hf.cmp_map_eq]

theorem anti_eq (hf : StrictAnti f) (a b : α) : compare (f a) (f b) = compare b a := by
  rw [← cmp_eq_compare, ← cmp_eq_compare, hf.cmp_map_eq]

theorem swap_eq (a b : α) : (compare a b).swap = compare b a := by
  rw [← cmp_eq_compare, ← cmp_eq_compare, cmp_swap]

/-- lists in lexicographic order -/
def LexList (α : Type*) : Type _ := List α

instance instLinearOrderLexList : LinearOrder (LexList α) := inferInstanceAs (LinearOrder (List α))

def toLexList (l : List α) : LexList α := l

variable {a b : α}

theorem toLexList_cons_lt {as bs : List α} :
    toLexList (a :: as) < toLexList (b :: bs) ↔ a < b ∨ a = b ∧ toLexList as < toLexList bs :=
  List.cons_lt_cons_iff

theorem toLexList_nil_lt (a : α) (as : List α) : toLexList [] < toLexList (a :: as) :=
  List.nil_lt_cons a as

theorem compare_cons (a b : α) (as bs : List α) : compare (toLexList (a :: as)) (toLexList (b :: bs)) =
      (compare a b).then (compare (toLexList as) (toLexList bs)) := by
  rcases lt_trichotomy a b with h | h | h
  · rw [compare_lt_iff_lt.mpr h, compare_lt_iff_lt.mpr (toLexList_cons_lt.mpr (.inl h))]
    rfl
  · subst h
    rw [compare_eq_iff_eq.mpr (rfl : a = a)]
    show _ = compare (toLexList as) (toLexList bs)
    rcases lt_trichotomy (toLexList as) (toLexList bs) with h | h | h
    · rw [compare_lt_iff_lt.mpr h, compare_lt_iff_lt.mpr (toLexList_cons_lt.mpr (.inr ⟨rfl, h⟩))]
    · rw [compare_eq_iff_eq.mpr h]
      exact compare_eq_iff_eq.mpr (congrArg (List.cons a) h)
    · rw [compare_gt_iff_gt.mpr h, compare_gt_iff_gt.mpr (toLexList_cons_lt.mpr (.inr ⟨rfl, h⟩))]
  · rw [compare_gt_iff_gt.mpr h, compare_gt_iff_gt.mpr (toLexList_cons_lt.mpr (.inl h))]
    rfl

theorem compare_append (l as bs : List α) :
    compare (toLexList (l ++ as)) (toLexList (l ++ bs)) = compare (toLexList as) (toLexList bs) := by
  induction l with
  | nil => rfl
  | cons a l ih =>
    rw [List.cons_append, List.cons_append, compare_cons, compare_eq_iff_eq.mpr (rfl : a = a), ih]
    rfl

theorem compare_singleton (a b : α) : compare (toLexList [a]) (toLexList [b]) = compare a b := by
  rw [compare_cons, compare_eq_iff_eq.mpr (rfl : toLexList ([] : List α) = _), Ordering.then_eq]

theorem lex_map_eq (hf : StrictMono f) (as bs : List α) : List.compareLex compare as bs =
      compare (toLexList (as.map f)) (toLexList (bs.map f)) := by
  induction as generalizing bs with
  | nil =>
    cases bs with
    | nil => exact (compare_eq_iff_eq.mpr rfl).symm
    | cons b bs => exact (compare_lt_iff_lt.mpr (toLexList_nil_lt (f b) (bs.map f))).symm
  | cons a as ih =>
    cases bs with
    | nil => exact (compare_gt_iff_gt.mpr (toLexList_nil_lt (f a) (as.map f))).symm
    | cons b bs =>
      rw [List.compareLex_cons_cons, List.map_cons, List.map_cons, compare_cons, map_eq hf, ih]

theorem toLexList_le_append (as bs : List α) : toLexList as ≤ toLexList (as ++ bs) := by
  induction as with
  | nil =>
    cases bs with
    | nil => exact le_refl _
    | cons b bs => exact (toLexList_nil_lt b bs).le
  | cons a as ih =>
    rcases ih.lt_or_eq with h | h
    · exact (toLexList_cons_lt.mpr (.inr ⟨rfl, h⟩)).le
    · exact le_of_eq (congrArg (List.cons a) h)

theorem toLexList_append_lt (h : a < b) (as cs ds : List α) :
    toLexList (as ++ a :: cs) < toLexList (as ++ b :: ds) := by
  induction as with
  | nil => exact toLexList_cons_lt.mpr (.inl h)
  | cons x as ih => exact toLexList_cons_lt.mpr (.inr ⟨rfl, ih⟩)

theorem isGE_iff : (compare a b).isGE = true ↔ b ≤ a := by
  rw [Ordering.isGE_iff_ne_lt, compare_lt_iff_lt, not_lt]

theorem isLE_iff : (compare a b).isLE = true ↔ a ≤ b := by
  rw [Ordering.isLE_iff_ne_gt, compare_gt_iff_gt, not_lt]

end Compare
