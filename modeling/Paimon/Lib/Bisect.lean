import Mathlib

/-!
# Binary search

Positions `0 … n-1` of which the first ones are `below` a target and the others are not:
`bisect below n` is the number of the former (`bisect_lt`, `bisect_ge`).
-/

namespace Bisect

/-- the interval `[left, right)` still to search, halved at every turn -/
def search (below : Nat → Bool) : Nat → Nat → Nat → Nat
  | 0, left, _ => left
  | fuel + 1, left, right =>
    if left < right then
      let mid := left + (right - left) / 2
      if below mid then search below fuel (mid + 1) right else search below fuel left mid
    else left

def bisect (below : Nat → Bool) (n : Nat) : Nat := search below n 0 n

/-- nothing is below the target behind a position that is not -/
def Sorted (below : Nat → Bool) (n : Nat) : Prop :=
  ∀ i j, i ≤ j → j < n → below j = true → below i = true

/-- what lies outside the interval is decided -/
structure Inv (below : Nat → Bool) (n left right : Nat) : Prop where
  le : left ≤ right
  bound : right ≤ n
  before : ∀ i, i < left → below i = true
  after : ∀ i, right ≤ i → i < n → below i = false

variable {below : Nat → Bool} {n : Nat}

theorem search_inv (hs : Sorted below n) {fuel left right : Nat} (hfuel : right - left ≤ fuel)
    (h : Inv below n left right) :
    Inv below n (search below fuel left right) (search below fuel left right) := by
  induction fuel generalizing left right with
  | zero =>
    obtain rfl : left = right := by have := h.le; omega
    exact h
  | succ fuel ih =>
    rw [search]
    split
    · next hlt =>
      dsimp only
      set mid := left + (right - left) / 2 with hmid
      have hmn : mid < n := by have := h.bound; omega
      split
      · next hb =>
        refine ih (by omega) ⟨by omega, h.bound, fun i hi => ?_, h.after⟩
        exact hs i mid (by omega) hmn hb
      · next hb =>
        refine ih (by omega) ⟨by omega, hmn.le, h.before, fun i hi hn => ?_⟩
        by_contra hbi
        exact hb (hs mid i hi hn (by simpa using hbi))
    · next hge =>
      obtain rfl : left = right := by have := h.le; omega
      exact h

theorem bisect_inv (hs : Sorted below n) : Inv below n (bisect below n) (bisect below n) :=
  search_inv hs (Nat.le_of_eq (Nat.sub_zero n))
    ⟨Nat.zero_le n, le_refl n, fun i hi => absurd hi (Nat.not_lt_zero i), fun i h hn => by omega⟩

theorem bisect_lt (hs : Sorted below n) {i : Nat} (h : i < bisect below n) : below i = true :=
  (bisect_inv hs).before i h

theorem bisect_ge (hs : Sorted below n) {i : Nat} (h : bisect below n ≤ i) (hn : i < n) :
    below i = false := (bisect_inv hs).after i h hn

end Bisect
