import Mathlib

/-!
# Knock-out tournaments on an implicitly numbered tree

`k` players sit on the leaves `k, …, 2 k - 1` of a binary tree whose inner nodes are `1, …, k - 1`
and in which node `n` joins the nodes `2 n` and `2 n + 1`; `k` need not be a power of two.  Every
inner node is a match between the winners of the two subtrees it joins, decided by a rank in a
linear order (the smaller rank wins).

* `Below n m`: node `m` lies in the subtree of node `n`;
* `winnerOf n`: who wins the subtree of `n`, `loserOf n` who loses the match at `n`;
* `sibling c`: the other node joined by the parent of `c`.

`winnerOf_le` says that the winner of a subtree has the least rank of its players, and the rest is
what a replay along one leaf-to-root path needs: a match written from the side of either child
(`match_child`), subtrees that a player is not in do not see its rank
(`winnerOf_congr`), and the overall winner wins every
match on its path (`winnerOf_path`).
-/

namespace Tournament

/-! ## subtrees -/

/-- node `m` lies in the subtree of node `n` -/
def Below (n m : Nat) : Prop := ∃ j, m / 2 ^ j = n

theorem Below.refl (n : Nat) : Below n n := ⟨0, by simp⟩

variable {n m : Nat}

theorem below_iff : Below n m ↔ n = m ∨ Below n (m / 2) := by
  constructor
  · rintro ⟨j, hj⟩
    cases j with
    | zero => left; simpa using hj.symm
    | succ j =>
      right
      refine ⟨j, ?_⟩
      rw [Nat.div_div_eq_div_mul, ← hj, Nat.pow_succ, Nat.mul_comm]
  · rintro (rfl | ⟨j, hj⟩)
    · exact Below.refl n
    · refine ⟨j + 1, ?_⟩
      rw [← hj, Nat.div_div_eq_div_mul, Nat.pow_succ, Nat.mul_comm]

theorem Below.of_half (h : Below n (m / 2)) : Below n m := below_iff.mpr (.inr h)

theorem Below.trans {n m l : Nat} (h : Below n m) (h' : Below m l) : Below n l := by
  obtain ⟨i, hi⟩ := h
  obtain ⟨j, hj⟩ := h'
  refine ⟨j + i, ?_⟩
  rw [Nat.pow_add, ← Nat.div_div_eq_div_mul, hj, hi]

theorem Below.le (h : Below n m) : n ≤ m := by
  obtain ⟨j, rfl⟩ := h
  exact Nat.div_le_self m _

theorem Below.parent (h : Below n m) : Below (n / 2) m :=
  (Below.of_half (Below.refl _)).trans h

theorem below_one {m : Nat} (h : 1 ≤ m) : Below 1 m := by
  induction m using Nat.strong_induction_on with
  | _ m ih =>
    by_cases h1 : m = 1
    · rw [h1]; exact Below.refl 1
    · exact (ih (m / 2) (by omega) (by omega)).of_half

theorem Below.child (h : Below n m) (hne : n ≠ m) : Below (2 * n) m ∨ Below (2 * n + 1) m := by
  obtain ⟨j, hj⟩ := h
  cases j with
  | zero => exact absurd (by simpa using hj.symm) hne
  | succ j =>
    have hc : m / 2 ^ j / 2 = n := by
      rw [Nat.div_div_eq_div_mul, ← Nat.pow_succ, hj]
    have : m / 2 ^ j = 2 * n ∨ m / 2 ^ j = 2 * n + 1 := by omega
    rcases this with h | h
    · exact .inl ⟨j, h⟩
    · exact .inr ⟨j, h⟩

theorem Below.comparable {a b m : Nat} (ha : Below a m) (hb : Below b m) : Below a b ∨ Below b a := by
  obtain ⟨i, rfl⟩ := ha
  obtain ⟨j, rfl⟩ := hb
  rcases Nat.le_total i j with h | h
  · right
    refine ⟨j - i, ?_⟩
    rw [Nat.div_div_eq_div_mul, ← Nat.pow_add, Nat.add_sub_cancel' h]
  · left
    refine ⟨i - j, ?_⟩
    rw [Nat.div_div_eq_div_mul, ← Nat.pow_add, Nat.add_sub_cancel' h]

/-- the other node joined by the parent -/
def sibling (c : Nat) : Nat := if c % 2 = 0 then c + 1 else c - 1

variable {c : Nat}

theorem sibling_half (h : 2 ≤ c) : sibling c / 2 = c / 2 := by
  unfold sibling
  split <;> omega

theorem sibling_ge (h : 2 ≤ c) : 2 ≤ sibling c := by
  unfold sibling
  split <;> omega

theorem sibling_lt {c k : Nat} (h : c < 2 * k) : sibling c < 2 * k := by
  unfold sibling
  split <;> omega

theorem sibling_sibling (h : 2 ≤ c) : sibling (sibling c) = c := by
  unfold sibling
  split <;> split <;> omega

theorem sibling_cases (h : 2 ≤ c) : (c = 2 * (c / 2) ∧ sibling c = 2 * (c / 2) + 1) ∨
      (c = 2 * (c / 2) + 1 ∧ sibling c = 2 * (c / 2)) := by
  unfold sibling
  split <;> omega

theorem Below.not_sibling {c m : Nat} (hc : 2 ≤ c) (h : Below c m) : ¬ Below (sibling c) m := by
  intro hs
  have key : ∀ a b : Nat, 2 ≤ a → a / 2 = b / 2 → a ≠ b → ¬ Below a b := by
    intro a b ha hab hne hbel
    rcases below_iff.mp hbel with h | h
    · exact hne h
    · have := h.le
      omega
  rcases Below.comparable h hs with h' | h'
  · refine key _ _ hc (sibling_half hc).symm ?_ h'
    unfold sibling
    split <;> omega
  · refine key _ _ (sibling_ge hc) (sibling_half hc) ?_ h'
    unfold sibling
    split <;> omega

theorem Below.of_parent {c m : Nat} (hc : 2 ≤ c) (h : Below (c / 2) m) (hne : c / 2 ≠ m) :
    Below c m ∨ Below (sibling c) m := by
  rcases sibling_cases hc with ⟨h1, h2⟩ | ⟨h1, h2⟩
  · rw [h2, h1, Nat.mul_div_cancel_left _ (by omega)]
    exact h.child hne
  · rw [h2]
    nth_rewrite 1 [h1]
    exact (h.child hne).symm

/-! ## winners and losers -/

section

variable {α : Type*} [LinearOrder α] (k : Nat) (rank : Nat → α)

/-- the winner of the subtree of node `n`: the player itself at a leaf, else the winner of the two
children of smaller rank -/
def winnerOf (n : Nat) : Nat :=
  if h : k ≤ n ∨ n = 0 then n - k
  else if rank (winnerOf (2 * n + 1)) < rank (winnerOf (2 * n)) then winnerOf (2 * n + 1)
  else winnerOf (2 * n)
termination_by 2 * k - n
decreasing_by all_goals omega

/-- the loser of the match at the inner node `n` -/
def loserOf (n : Nat) : Nat :=
  if rank (winnerOf k rank (2 * n + 1)) < rank (winnerOf k rank (2 * n))
  then winnerOf k rank (2 * n) else winnerOf k rank (2 * n + 1)

variable {k} {rank}

theorem winnerOf_leaf (i : Nat) : winnerOf k rank (k + i) = i := by
  rw [winnerOf, dif_pos (by omega)]
  omega

variable {n : Nat}

theorem winnerOf_node (h1 : 1 ≤ n) (hk : n < k) : winnerOf k rank n =
      if rank (winnerOf k rank (2 * n + 1)) < rank (winnerOf k rank (2 * n))
      then winnerOf k rank (2 * n + 1) else winnerOf k rank (2 * n) := by
  rw [winnerOf, dif_neg (by omega)]

/-- **Induction from the leaves.**  What holds at the leaves and passes from both children to their
parent holds at every node. -/
theorem node_induction {P : Nat → Prop} (leaf : ∀ i, i < k → P (k + i))
    (node : ∀ n, 1 ≤ n → n < k → P (2 * n) → P (2 * n + 1) → P n) :
    ∀ n, 1 ≤ n → n < 2 * k → P n := by
  intro n
  induction hm : 2 * k - n using Nat.strong_induction_on generalizing n with
  | _ m ih =>
    intro h1 h2
    by_cases hk : k ≤ n
    · have := leaf (n - k) (by omega)
      rwa [Nat.add_sub_cancel' hk] at this
    · exact node n h1 (by omega) (ih _ (by omega) (2 * n) rfl (by omega) (by omega))
        (ih _ (by omega) (2 * n + 1) rfl (by omega) (by omega))

variable (rank) in
theorem winnerOf_below (h1 : 1 ≤ n) (h2 : n < 2 * k) :
    winnerOf k rank n < k ∧ Below n (k + winnerOf k rank n) := by
  refine node_induction (P := fun n =>
    winnerOf k rank n < k ∧ Below n (k + winnerOf k rank n)) ?_ ?_ n h1 h2
  · intro i hi
    rw [winnerOf_leaf]
    exact ⟨hi, Below.refl _⟩
  · intro n hn hk hl hr
    rw [winnerOf_node hn hk]
    split
    · exact ⟨hr.1, (Below.of_half (by rw [show (2 * n + 1) / 2 = n by omega]; exact .refl n)).trans hr.2⟩
    · exact ⟨hl.1, (Below.of_half (by rw [show 2 * n / 2 = n by omega]; exact .refl n)).trans hl.2⟩

/-- **The winner is the least.**  No player of a subtree has a smaller rank than its winner. -/
theorem winnerOf_le {n i : Nat} (h1 : 1 ≤ n) (h2 : n < 2 * k) (hi : i < k)
    (hb : Below n (k + i)) : rank (winnerOf k rank n) ≤ rank i := by
  refine node_induction (P := fun n => Below n (k + i) → rank (winnerOf k rank n) ≤ rank i) ?_ ?_ n h1 h2 hb
  · intro j hj hbj
    rw [winnerOf_leaf]
    have : j = i := by
      rcases below_iff.mp hbj with h | h
      · omega
      · have := h.le
        omega
    rw [this]
  · intro n hn hk hl hr hbn
    rw [winnerOf_node hn hk]
    rcases hbn.child (by omega) with hb | hb
    · have := hl hb
      split
      · exact le_trans (le_of_lt ‹_›) this
      · exact this
    · have := hr hb
      split
      · exact this
      · exact le_trans (not_lt.mp ‹_›) this

theorem winnerOf_congr (rank' : Nat → α) (h1 : 1 ≤ n) (h2 : n < 2 * k)
    (h : ∀ i, i < k → Below n (k + i) → rank' i = rank i) :
    winnerOf k rank' n = winnerOf k rank n := by
  refine node_induction (P := fun n => (∀ i, i < k → Below n (k + i) → rank' i = rank i) →
    winnerOf k rank' n = winnerOf k rank n) ?_ ?_ n h1 h2 h
  · intro i _ _
    rw [winnerOf_leaf, winnerOf_leaf]
  · intro n hn hk hl hr hag
    have lift : ∀ {c i : Nat}, c / 2 = n → Below c (k + i) → Below n (k + i) :=
      fun hc hb => hc ▸ hb.parent
    have el := hl fun i hi hb => hag i hi (lift (by omega) hb)
    have er := hr fun i hi hb => hag i hi (lift (by omega) hb)
    have rl := winnerOf_below rank (k := k) (n := 2 * n) (by omega) (by omega)
    have rr := winnerOf_below rank (k := k) (n := 2 * n + 1) (by omega) (by omega)
    rw [winnerOf_node hn hk, winnerOf_node hn hk, el, er,
      hag _ rl.1 (lift (by omega) rl.2), hag _ rr.1 (lift (by omega) rr.2)]

theorem loserOf_congr (rank' : Nat → α) (h1 : 1 ≤ n) (hk : n < k)
    (h : ∀ i, i < k → Below n (k + i) → rank' i = rank i) :
    loserOf k rank' n = loserOf k rank n := by
  have lift : ∀ {c i : Nat}, c / 2 = n → Below c (k + i) → Below n (k + i) :=
    fun hc hb => hc ▸ hb.parent
  have rl := winnerOf_below rank (k := k) (n := 2 * n) (by omega) (by omega)
  have rr := winnerOf_below rank (k := k) (n := 2 * n + 1) (by omega) (by omega)
  unfold loserOf
  rw [winnerOf_congr rank' (n := 2 * n) (by omega) (by omega) fun i hi hb => h i hi (lift (by omega) hb),
    winnerOf_congr rank' (n := 2 * n + 1) (by omega) (by omega) fun i hi hb => h i hi (lift (by omega) hb),
    h _ rl.1 (lift (by omega) rl.2), h _ rr.1 (lift (by omega) rr.2)]

theorem match_child (inj : Function.Injective rank) (h1 : 2 ≤ c) (h2 : c < 2 * k) :
    (rank (winnerOf k rank (sibling c)) < rank (winnerOf k rank c) →
      winnerOf k rank (c / 2) = winnerOf k rank (sibling c) ∧ loserOf k rank (c / 2) = winnerOf k rank c) ∧
    (¬ rank (winnerOf k rank (sibling c)) < rank (winnerOf k rank c) →
      winnerOf k rank (c / 2) = winnerOf k rank c ∧
        loserOf k rank (c / 2) = winnerOf k rank (sibling c)) := by
  rw [winnerOf_node (n := c / 2) (by omega) (by omega), loserOf]
  rcases sibling_cases h1 with ⟨hc, hs⟩ | ⟨hc, hs⟩
  · rw [hs]
    generalize c / 2 = n at hc
    subst hc
    exact ⟨fun h => ⟨if_pos h, if_pos h⟩, fun h => ⟨if_neg h, if_neg h⟩⟩
  · rw [hs]
    generalize c / 2 = n at hc
    subst hc
    refine ⟨fun h => ⟨if_neg (not_lt.mpr h.le), if_neg (not_lt.mpr h.le)⟩, fun h => ?_⟩
    rcases lt_or_eq_of_le (not_lt.mp h) with h' | h'
    · exact ⟨if_pos h', if_pos h'⟩
    · rw [if_neg (not_lt.mpr h'.ge), if_neg (not_lt.mpr h'.ge), inj h']
      exact ⟨rfl, rfl⟩

theorem winnerOf_path (hk : 1 ≤ k) (h1 : 1 ≤ n)
    (hb : Below n (k + winnerOf k rank 1)) : winnerOf k rank n = winnerOf k rank 1 := by
  have hw := (winnerOf_below rank (k := k) (n := 1) le_rfl (by omega)).1
  induction n using Nat.strong_induction_on with
  | _ n ih =>
    by_cases hn : n = 1
    · rw [hn]
    · have hlt : n < 2 * k := by
        have := hb.le
        omega
      have hp := ih (n / 2) (by omega) (by omega) hb.parent
      -- the parent's winner comes from one of its children; it cannot come from the sibling
      have hsib : winnerOf k rank (sibling n) ≠ winnerOf k rank 1 := by
        intro he
        have := (winnerOf_below rank (n := sibling n)
          (by have := sibling_ge (c := n) (by omega); omega) (sibling_lt hlt)).2
        rw [he] at this
        exact hb.not_sibling (by omega) this
      rw [winnerOf_node (n := n / 2) (by omega) (by omega)] at hp
      rcases sibling_cases (c := n) (by omega) with ⟨hc, hs⟩ | ⟨hc, hs⟩
      · rw [hs] at hsib
        rw [if_neg (fun h => hsib (by rw [if_pos h] at hp; exact hp)), ← hc] at hp
        exact hp
      · rw [hs] at hsib
        by_cases h : rank (winnerOf k rank (2 * (n / 2) + 1)) < rank (winnerOf k rank (2 * (n / 2)))
        · rw [if_pos h, ← hc] at hp
          exact hp
        · rw [if_neg h] at hp
          exact absurd hp hsib

theorem loserOf_path (inj : Function.Injective rank) (hk : 1 ≤ k) (h1 : 2 ≤ c)
    (hb : Below c (k + winnerOf k rank 1)) :
    loserOf k rank (c / 2) = winnerOf k rank (sibling c) := by
  have hw := (winnerOf_below rank (k := k) (n := 1) le_rfl (by omega)).1
  have hlt : c < 2 * k := by
    have := hb.le
    omega
  have hm := match_child inj h1 hlt
  have hc := winnerOf_path hk (by omega) hb
  have hp := winnerOf_path hk (n := c / 2) (by omega) hb.parent
  by_cases h : rank (winnerOf k rank (sibling c)) < rank (winnerOf k rank c)
  · have := (hm.1 h).1
    rw [hp, ← hc] at this
    rw [← this] at h
    exact absurd h (lt_irrefl _)
  · exact (hm.2 h).2

theorem exists_loserOf {i : Nat} (hi : i < k) (hne : i ≠ winnerOf k rank 1) :
    ∃ n, 1 ≤ n ∧ n < k ∧ loserOf k rank n = i := by
  have hclimb : Below 1 (k + i) → winnerOf k rank 1 = i ∨ ∃ n, 1 ≤ n ∧ n < k ∧ loserOf k rank n = i := by
    refine node_induction (k := k) (P := fun n => Below n (k + i) →
      winnerOf k rank n = i ∨ ∃ n, 1 ≤ n ∧ n < k ∧ loserOf k rank n = i) ?_ ?_ 1 le_rfl (by omega)
    · intro j hj hb
      rw [winnerOf_leaf]
      rcases below_iff.mp hb with h | h
      · exact .inl (by omega)
      · have := h.le
        omega
    · intro n hn hk hl hr hb
      -- of the winners of the two subtrees one wins and the other loses
      have hmatch : ∀ w, w = winnerOf k rank (2 * n) ∨ w = winnerOf k rank (2 * n + 1) →
          winnerOf k rank n = w ∨ loserOf k rank n = w := by
        rw [winnerOf_node hn hk, loserOf]
        rintro w (rfl | rfl) <;> split <;> simp
      have hwin : ∀ w, w = winnerOf k rank (2 * n) ∨ w = winnerOf k rank (2 * n + 1) → w = i →
          winnerOf k rank n = i ∨ ∃ n, 1 ≤ n ∧ n < k ∧ loserOf k rank n = i := by
        rintro w hw rfl
        exact (hmatch w hw).imp_right fun h => ⟨n, hn, hk, h⟩
      rcases hb.child (by omega) with hb | hb
      · exact (hl hb).elim (hwin _ (.inl rfl)) .inr
      · exact (hr hb).elim (hwin _ (.inr rfl)) .inr
  exact (hclimb (below_one (by omega))).resolve_left hne.symm

end

end Tournament
