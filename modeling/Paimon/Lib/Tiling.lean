import Mathlib

/-!
# Ranges laid end to end

A range is a first number and a count.

* `Tile lo rs hi`: the ranges `rs`, in their order, are laid end to end from `lo` to `hi`;
* `Covers`: such ranges whose counts are not negative: they lie between the ends, and each ends before the
  next begins (`Tile.covers`).
-/

namespace Tiling

open List

def Tile : Int → List (Int × Int) → Int → Prop
  | lo, [], hi => lo = hi
  | lo, r :: rs, hi => r.1 = lo ∧ Tile (lo + r.2) rs hi

theorem Tile.append {lo mid hi : Int} {rs ts : List (Int × Int)} (h : Tile lo rs mid) (h' : Tile mid ts hi) :
    Tile lo (rs ++ ts) hi := by
  induction rs generalizing lo with
  | nil =>
    obtain rfl : lo = mid := h
    exact h'
  | cons r rs ih => exact ⟨h.1, ih h.2⟩

theorem Tile.end_eq {lo hi : Int} {rs : List (Int × Int)} (h : Tile lo rs hi) :
    hi = lo + (rs.map Prod.snd).sum := by
  induction rs generalizing lo with
  | nil =>
    obtain rfl : lo = hi := h
    simp
  | cons r rs ih =>
    rw [ih h.2, map_cons, sum_cons]
    omega

/-- the second range begins where the first one has ended, or later -/
def Before (r t : Int × Int) : Prop := r.1 + r.2 ≤ t.1

structure Covers (lo : Int) (rs : List (Int × Int)) (hi : Int) : Prop where
  tile : Tile lo rs hi
  inside : ∀ r ∈ rs, lo ≤ r.1 ∧ r.1 + r.2 ≤ hi
  apart : rs.Pairwise Before

theorem Tile.covers {lo hi : Int} {rs : List (Int × Int)} (h : Tile lo rs hi) (hcount : ∀ r ∈ rs, 0 ≤ r.2) :
    Covers lo rs hi := by
  induction rs generalizing lo with
  | nil => exact ⟨h, by simp, List.Pairwise.nil⟩
  | cons r rs ih =>
    have hr : 0 ≤ r.2 := hcount r mem_cons_self
    have hrest := ih h.2 (forall_mem_cons.mp hcount).2
    have hfirst : r.1 = lo := h.1
    refine ⟨h, ?_, pairwise_cons.mpr ⟨fun t ht => ?_, hrest.apart⟩⟩
    · intro t ht
      rcases mem_cons.mp ht with rfl | ht
      · have hsum : 0 ≤ (rs.map Prod.snd).sum := by
          refine sum_nonneg fun c hc => ?_
          obtain ⟨u, hu, rfl⟩ := mem_map.mp hc
          exact hcount u (mem_cons_of_mem t hu)
        have hend := h.2.end_eq
        omega
      · have := hrest.inside t ht
        omega
    · have := (hrest.inside t ht).1
      show r.1 + r.2 ≤ t.1
      omega

end Tiling
