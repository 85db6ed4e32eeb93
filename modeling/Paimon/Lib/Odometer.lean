import Mathlib

/-!
# Counting through all choices

A counter with one digit per position, the last position moving fastest, is advanced until it runs
over.  `visited` lists what a loop around such a counter sees; it sees every choice of digits below
the sizes, each once, in order (`visited_eq`).
-/

namespace Odometer

open List

/-- one advance; `true`: the counter ran over and is back at zero -/
def advance : List Nat → List Nat → List Nat × Bool
  | size :: sizes, digit :: digits =>
    let (digits', carry) := advance sizes digits
    if carry then
      if digit + 1 < size then ((digit + 1) :: digits', false) else (0 :: digits', true)
    else (digit :: digits', false)
  | _, _ => ([], true)

/-- the counters the loop sees from `digits` on -/
def loop (sizes : List Nat) : Nat → List Nat → List (List Nat)
  | 0, _ => []
  | fuel + 1, digits =>
    digits :: if (advance sizes digits).2 then [] else loop sizes fuel (advance sizes digits).1

def zeros (sizes : List Nat) : List Nat := sizes.map fun _ => 0

def visited (sizes : List Nat) : List (List Nat) := loop sizes sizes.prod (zeros sizes)

/-- all choices of digits below the sizes, in lexicographic order -/
def choices : List Nat → List (List Nat)
  | [] => [[]]
  | size :: sizes => (List.range size).flatMap fun digit => (choices sizes).map (digit :: ·)

theorem choices_length (sizes : List Nat) : (choices sizes).length = sizes.prod := by
  induction sizes with
  | nil => rfl
  | cons size sizes ih => simp [choices, length_flatMap, ih]

variable {sizes digits : List Nat}

theorem mem_choices : digits ∈ choices sizes ↔ List.Forall₂ (· < ·) digits sizes := by
  induction sizes generalizing digits with
  | nil => simp [choices]
  | cons size sizes ih =>
    rw [choices, mem_flatMap, forall₂_cons_right_iff]
    constructor
    · rintro ⟨digit, hdigit, hmem⟩
      obtain ⟨rest, hrest, rfl⟩ := mem_map.mp hmem
      exact ⟨digit, rest, mem_range.mp hdigit, ih.mp hrest, rfl⟩
    · rintro ⟨digit, rest, hdigit, hrest, rfl⟩
      exact ⟨digit, mem_range.mpr hdigit, mem_map_of_mem (ih.mpr hrest)⟩

/-- `l` is what the loop sees from `digits` on -/
inductive Sees (sizes : List Nat) : List Nat → List (List Nat) → Prop where
  | last {digits : List Nat} (h : advance sizes digits = (zeros sizes, true)) :
      Sees sizes digits [digits]
  | step {digits digits' : List Nat} {l : List (List Nat)}
      (h : advance sizes digits = (digits', false)) (rest : Sees sizes digits' l) :
      Sees sizes digits (digits :: l)

variable {l : List (List Nat)}

theorem Sees.loop_eq (h : Sees sizes digits l)
    {fuel : Nat} (hfuel : l.length ≤ fuel) : loop sizes fuel digits = l := by
  induction h generalizing fuel with
  | last h =>
    obtain ⟨fuel, rfl⟩ := Nat.exists_eq_add_of_le' hfuel
    rw [length_singleton, loop, h]
    rfl
  | step h _ ih =>
    rw [length_cons] at hfuel
    obtain ⟨fuel, rfl⟩ := Nat.exists_eq_add_of_le' (Nat.one_le_of_lt (Nat.lt_of_succ_le hfuel))
    rw [loop, h]
    exact congrArg _ (ih (by omega))

theorem Sees.cons {size digit : Nat} (h : Sees sizes digits l) {l' : List (List Nat)}
    (hlast : digit + 1 = size ∧ l' = [] ∨
      digit + 1 < size ∧ Sees (size :: sizes) ((digit + 1) :: zeros sizes) l') :
    Sees (size :: sizes) (digit :: digits) (l.map (digit :: ·) ++ l') := by
  induction h with
  | @last digits h =>
    rcases hlast with ⟨hsize, rfl⟩ | ⟨hlt, hrest⟩
    · refine .last ?_
      rw [advance, h]
      simp [hsize, zeros]
    · refine .step ?_ hrest
      rw [advance, h]
      simp [hlt]
  | step h _ ih =>
    refine .step ?_ ih
    rw [advance, h]
    rfl

variable {sizes : List Nat}

theorem sees_from (h : Sees sizes (zeros sizes) l) (left digit : Nat) :
    Sees ((digit + left + 1) :: sizes) (digit :: zeros sizes)
      ((List.range' digit (left + 1)).flatMap fun d => l.map (d :: ·)) := by
  induction left generalizing digit with
  | zero =>
    have hone : Sees ((digit + 1) :: sizes) (digit :: zeros sizes) (l.map (digit :: ·) ++ []) :=
      h.cons (.inl ⟨rfl, rfl⟩)
    simpa using hone
  | succ left ih =>
    rw [range'_succ, flatMap_cons]
    refine h.cons (.inr ⟨by omega, ?_⟩)
    have := ih (digit + 1)
    rwa [show digit + 1 + left + 1 = digit + (left + 1) + 1 by omega] at this

theorem sees_choices (hpos : ∀ size ∈ sizes, 0 < size) : Sees sizes (zeros sizes) (choices sizes) := by
  induction sizes with
  | nil => exact .last rfl
  | cons size sizes ih =>
    have hrest := ih (forall_mem_cons.mp hpos).2
    obtain ⟨left, rfl⟩ := Nat.exists_eq_add_of_lt (hpos size mem_cons_self)
    have := sees_from hrest left 0
    rw [Nat.zero_add] at this ⊢
    rwa [← range_eq_range'] at this

/-- **The loop sees every choice once, in order.** -/
theorem visited_eq (hpos : ∀ size ∈ sizes, 0 < size) : visited sizes = choices sizes :=
  (sees_choices hpos).loop_eq (choices_length sizes).le

end Odometer
