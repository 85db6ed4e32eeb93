import Paimon.Lib.Compare

/-!
# Bounds between tuples

Tuples over a linear order, compared component by component, and bounds that stand directly before
or directly after all tuples with one beginning.

* `ofTuple t`: the place of a tuple;
* `Bound.place b`: the place of a bound in the same order;
* `between_iff`: the tuples between the two bounds of a beginning are those that begin with it;
* `above_iff`, `below_iff`: a bound with one component more cuts those tuples at that component.

A place is a lexicographic list: the components, then a mark that is below, above or between all
components.
-/

set_option linter.unusedSectionVars false

namespace TupleBounds

open Compare

variable {α : Type*} [LinearOrder α] [Inhabited α]

/-- directly before (`after = false`) or after the tuples that begin with `values` -/
structure Bound (α : Type*) where
  values : List α
  after : Bool

/-- places of tuples and bounds -/
abbrev Place (α : Type*) := LexList (WithBot (WithTop α))

def item (a : α) : WithBot (WithTop α) := ((a : WithTop α) : WithBot (WithTop α))

def mark (after : Bool) : WithBot (WithTop α) := if after then ⊤ else ⊥

def ofTuple (t : List α) : Place α := toLexList (t.map item ++ [item default])

def Bound.place (b : Bound α) : Place α := toLexList (b.values.map item ++ [mark b.after])

theorem item_strictMono : StrictMono (item : α → WithBot (WithTop α)) := by
  intro a b h
  exact WithBot.coe_lt_coe.mpr (WithTop.coe_lt_coe.mpr h)

theorem compare_item (a b : α) : compare (item a) (item b) = compare a b :=
  map_eq item_strictMono a b

theorem bot_lt_item (a : α) : mark false < item a := WithBot.bot_lt_coe _

theorem item_lt_top (a : α) : item a < mark true := WithBot.coe_lt_coe.mpr (WithTop.coe_lt_top a)

/-! ## one component at a time -/

theorem ofTuple_injective : Function.Injective (ofTuple : List α → Place α) := by
  intro s t h
  have happ : s.map item ++ [item default] = t.map item ++ [item default] := h
  exact List.map_injective_iff.mpr item_strictMono.injective (List.append_cancel_right happ)

theorem tuple_cons (a b : α) (s t : List α) : compare (ofTuple (a :: s)) (ofTuple (b :: t))
      = (compare a b).then (compare (ofTuple s) (ofTuple t)) := by
  rw [← compare_item a b]
  exact compare_cons _ _ _ _

theorem tuple_bound_cons (a b : α) (t vs : List α) (after : Bool) :
    compare (ofTuple (a :: t)) (Bound.mk (b :: vs) after).place
      = (compare a b).then (compare (ofTuple t) (Bound.mk vs after).place) := by
  rw [← compare_item a b]
  exact compare_cons _ _ _ _

theorem tuple_bound_nil (t : List α) (after : Bool) :
    compare (ofTuple t) (Bound.mk [] after).place = if after then .lt else .gt := by
  obtain ⟨a, rest, hplace⟩ : ∃ (a : α) (rest : List (WithBot (WithTop α))),
      ofTuple t = toLexList (item a :: rest) := by
    cases t with
    | nil => exact ⟨default, [], rfl⟩
    | cons a t => exact ⟨a, _, rfl⟩
  rw [hplace]
  cases after with
  | false => exact compare_gt_iff_gt.mpr (toLexList_cons_lt.mpr (.inl (bot_lt_item a)))
  | true => exact compare_lt_iff_lt.mpr (toLexList_cons_lt.mpr (.inl (item_lt_top a)))

theorem bounds_cons (a b : α) (s t : List α) (after after' : Bool) :
    compare (Bound.mk (a :: s) after).place (Bound.mk (b :: t) after').place
      = (compare a b).then (compare (Bound.mk s after).place (Bound.mk t after').place) := by
  rw [← compare_item a b]
  exact compare_cons _ _ _ _

theorem bounds_nil_cons (b : α) (t : List α) (after after' : Bool) :
    compare (Bound.mk [] after).place (Bound.mk (b :: t) after').place = if after then .gt else .lt := by
  cases after with
  | false => exact compare_lt_iff_lt.mpr (toLexList_cons_lt.mpr (.inl (bot_lt_item b)))
  | true => exact compare_gt_iff_gt.mpr (toLexList_cons_lt.mpr (.inl (item_lt_top b)))

theorem bounds_cons_nil (a : α) (s : List α) (after after' : Bool) :
    compare (Bound.mk (a :: s) after).place (Bound.mk [] after').place = if after' then .lt else .gt := by
  rw [← swap_eq, bounds_nil_cons]
  cases after' <;> rfl

theorem bounds_nil_nil (after after' : Bool) :
    compare (Bound.mk ([] : List α) after).place (Bound.mk ([] : List α) after').place
      = compare after after' := by
  have hlt : (Bound.mk ([] : List α) false).place < (Bound.mk ([] : List α) true).place := by
    have h : (mark false : WithBot (WithTop α)) < mark true :=
      (bot_lt_item default).trans (item_lt_top default)
    exact toLexList_cons_lt.mpr (.inl h)
  cases after <;> cases after'
  · exact compare_eq_iff_eq.mpr rfl
  · exact compare_lt_iff_lt.mpr hlt
  · exact compare_gt_iff_gt.mpr hlt
  · exact compare_eq_iff_eq.mpr rfl

/-! ## what lies between bounds -/

theorem tuple_bound_append (p t vs : List α) (after : Bool) :
    compare (ofTuple (p ++ t)) (Bound.mk (p ++ vs) after).place
      = compare (ofTuple t) (Bound.mk vs after).place := by
  unfold ofTuple Bound.place
  rw [List.map_append, List.map_append, List.append_assoc, List.append_assoc, compare_append]

/-- **The tuples between the two bounds of a beginning are those that begin with it.** -/
theorem between_iff {p t : List α} (hlen : p.length ≤ t.length) :
    (Bound.mk p false).place < ofTuple t ∧ ofTuple t < (Bound.mk p true).place ↔ p <+: t := by
  induction p generalizing t with
  | nil =>
    have hlow := tuple_bound_nil t false
    have hhigh := tuple_bound_nil t true
    exact ⟨fun _ => List.nil_prefix, fun _ => ⟨compare_gt_iff_gt.mp hlow, compare_lt_iff_lt.mp hhigh⟩⟩
  | cons a p ih =>
    cases t with
    | nil => exact absurd hlen (by simp)
    | cons b t =>
      rw [List.cons_prefix_cons, ← ih (Nat.le_of_succ_le_succ hlen), ← compare_gt_iff_gt (a := ofTuple (b :: t)),
        ← compare_lt_iff_lt (a := ofTuple (b :: t)), tuple_bound_cons, tuple_bound_cons,
        Ordering.then_eq_gt, Ordering.then_eq_lt, compare_gt_iff_gt, compare_lt_iff_lt,
        compare_eq_iff_eq, compare_gt_iff_gt, compare_lt_iff_lt]
      constructor
      · rintro ⟨hlow | ⟨rfl, hlow⟩, hhigh | ⟨heq, hhigh⟩⟩
        · exact absurd hlow hhigh.asymm
        · exact absurd heq hlow.ne'
        · exact absurd hhigh (lt_irrefl _)
        · exact ⟨rfl, hlow, hhigh⟩
      · rintro ⟨rfl, hlow, hhigh⟩
        exact ⟨.inr ⟨rfl, hlow⟩, .inr ⟨rfl, hhigh⟩⟩

theorem above_iff (p t : List α) (c x : α) (after : Bool) :
    (Bound.mk (p ++ [x]) after).place < ofTuple (p ++ c :: t) ↔ if after then x < c else x ≤ c := by
  rw [← compare_gt_iff_gt, tuple_bound_append, tuple_bound_cons, tuple_bound_nil,
    Ordering.then_eq_gt, compare_gt_iff_gt, compare_eq_iff_eq]
  cases after with
  | false =>
    show x < c ∨ c = x ∧ Ordering.gt = .gt ↔ x ≤ c
    rw [le_iff_lt_or_eq]
    exact or_congr_right ⟨fun h => h.1.symm, fun h => ⟨h.symm, rfl⟩⟩
  | true =>
    show x < c ∨ c = x ∧ Ordering.lt = .gt ↔ x < c
    exact ⟨fun h => h.resolve_right fun h => (nomatch h.2), .inl⟩

theorem below_iff (p t : List α) (c x : α) (after : Bool) :
    ofTuple (p ++ c :: t) < (Bound.mk (p ++ [x]) after).place ↔ if after then c ≤ x else c < x := by
  rw [← compare_lt_iff_lt, tuple_bound_append, tuple_bound_cons, tuple_bound_nil,
    Ordering.then_eq_lt, compare_lt_iff_lt, compare_eq_iff_eq]
  cases after with
  | false =>
    show c < x ∨ c = x ∧ Ordering.gt = .lt ↔ c < x
    exact ⟨fun h => h.resolve_right fun h => (nomatch h.2), .inl⟩
  | true =>
    show c < x ∨ c = x ∧ Ordering.lt = .lt ↔ c ≤ x
    rw [le_iff_lt_or_eq]
    exact or_congr_right ⟨fun h => h.1, fun h => ⟨h, rfl⟩⟩

theorem place_lt_append (p : List α) (x : α) (after : Bool) :
    (Bound.mk p false).place < (Bound.mk (p ++ [x]) after).place := by
  unfold Bound.place
  dsimp only
  rw [List.map_append, List.append_assoc]
  exact toLexList_append_lt (bot_lt_item x) _ _ _

end TupleBounds
