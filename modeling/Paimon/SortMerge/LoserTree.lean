import Paimon.Lib.Tournament

/-!
# The loser tree of the sort-merge reader

`LoserTree` of `table/sort_merge.rs`: `nodes 0` is the overall winner, `nodes 1, …, nodes (k - 1)`
are the losers of the matches at the inner nodes; stream `i` enters at the node `(k + i) / 2`.  The
sentinel `usize::MAX` of a node that has not been filled yet is `none`.

* `LoserTree.init`: fills the tree stream by stream: a stream climbs while the nodes it meets are filled and
  stays at the first empty one;
* `LoserTree.update`: replays the matches on the path of the current winner;
* `Played rank t`: the tree holds the knock-out tournament of the streams ordered by `rank`.

`init_played` and `update_played` say that `init` establishes `Played` and that `update` restores it
after only the winner's rank has changed; `winner_le` is what the reader uses, and
`run_holds_tournament` is the invariant of every run.
-/

namespace Paimon.SortMerge
open Tournament

structure LoserTree where
  nodes : Nat → Option Nat
  numStreams : Nat

namespace LoserTree

def new (numStreams : Nat) : LoserTree :=
  { nodes := fun _ => none, numStreams := numStreams }

def winner (t : LoserTree) : Nat := (t.nodes 0).getD 0

def leafIndex (t : LoserTree) (streamIdx : Nat) : Nat := (t.numStreams + streamIdx) / 2

def parentIndex (nodeIdx : Nat) : Nat := nodeIdx / 2

/-- the `while` loop of `init` for one stream; `fuel` bounds the nodes on the way to the root -/
def initClimb (isGt : Nat → Nat → Bool) : Nat → (Nat → Option Nat) → Nat → Nat → (Nat → Option Nat)
  | 0, nodes, winner, cmpNode => Function.update nodes cmpNode (some winner)
  | fuel + 1, nodes, winner, cmpNode =>
    if cmpNode = 0 then Function.update nodes cmpNode (some winner)
    else
      match nodes cmpNode with
      | none => Function.update nodes cmpNode (some winner)
      | some challenger =>
        if isGt winner challenger then
          initClimb isGt fuel (Function.update nodes cmpNode (some winner)) challenger
            (parentIndex cmpNode)
        else initClimb isGt fuel nodes winner (parentIndex cmpNode)

def init (t : LoserTree) (isGt : Nat → Nat → Bool) : LoserTree :=
  { t with
    nodes := (List.range t.numStreams).foldl
      (fun nodes i => initClimb isGt (t.leafIndex i) nodes i (t.leafIndex i)) (fun _ => none) }

/-- the `while` loop of `update`; a filled tree has no empty node on the way -/
def updateClimb (isGt : Nat → Nat → Bool) : Nat → (Nat → Option Nat) → Nat → Nat → (Nat → Option Nat)
  | 0, nodes, winner, _ => Function.update nodes 0 (some winner)
  | fuel + 1, nodes, winner, cmpNode =>
    if cmpNode = 0 then Function.update nodes 0 (some winner)
    else
      match nodes cmpNode with
      | none => updateClimb isGt fuel nodes winner (parentIndex cmpNode)
      | some challenger =>
        if isGt winner challenger then
          updateClimb isGt fuel (Function.update nodes cmpNode (some winner)) challenger
            (parentIndex cmpNode)
        else updateClimb isGt fuel nodes winner (parentIndex cmpNode)

def update (t : LoserTree) (isGt : Nat → Nat → Bool) : LoserTree :=
  { t with
    nodes := updateClimb isGt (t.leafIndex t.winner) t.nodes t.winner (t.leafIndex t.winner) }

theorem updateClimb_root (isGt : Nat → Nat → Bool) (fuel : Nat) (nodes : Nat → Option Nat) (winner : Nat) :
    updateClimb isGt fuel nodes winner 0 = Function.update nodes 0 (some winner) := by
  cases fuel <;> rfl

theorem initClimb_root (isGt : Nat → Nat → Bool) (fuel : Nat) (nodes : Nat → Option Nat) (winner : Nat) :
    initClimb isGt fuel nodes winner 0 = Function.update nodes 0 (some winner) := by
  cases fuel <;> rfl

@[simp] theorem new_numStreams (k : Nat) : (new k).numStreams = k := rfl

@[simp] theorem init_numStreams (t : LoserTree) (isGt : Nat → Nat → Bool) :
    (t.init isGt).numStreams = t.numStreams := rfl

@[simp] theorem update_numStreams (t : LoserTree) (isGt : Nat → Nat → Bool) :
    (t.update isGt).numStreams = t.numStreams := rfl

section

variable {α : Type*} [LinearOrder α] {k : Nat} {rank : Nat → α} {isGt : Nat → Nat → Bool}

/-- the tree holds the tournament of the streams: the overall winner at node `0`, the loser of
every match at its node -/
structure Played (rank : Nat → α) (t : LoserTree) : Prop where
  root : t.nodes 0 = some (winnerOf t.numStreams rank 1)
  node : ∀ n, 1 ≤ n → n < t.numStreams → t.nodes n = some (loserOf t.numStreams rank n)

variable {t : LoserTree}

theorem Played.winner_eq (h : Played rank t) : t.winner = winnerOf t.numStreams rank 1 := by
  rw [winner, h.root]
  rfl

theorem Played.winner_lt (h : Played rank t) (hk : 1 ≤ t.numStreams) : t.winner < t.numStreams := by
  rw [h.winner_eq]
  exact (winnerOf_below rank le_rfl (by omega)).1

/-- **The winner is the minimum stream.** -/
theorem Played.winner_le (h : Played rank t) {i : Nat} (hi : i < t.numStreams) : rank t.winner ≤ rank i := by
  rw [h.winner_eq]
  exact winnerOf_le le_rfl (by omega) hi (below_one (by omega))

/-! ## one match of a climb -/

variable {nodes : Nat → Option Nat}

/-- the match that a climbing stream plays at the parent of `c` when the other side's winner waits
there: what stays at the node is the loser, who climbs on is the winner -/
theorem play {α : Type} (climb : (Nat → Option Nat) → Nat → α) (inj : Function.Injective rank)
    (hgt : ∀ a b, isGt a b = decide (rank b < rank a)) {c : Nat} (h1 : 2 ≤ c) (h2 : c < 2 * k)
    (hn : nodes (c / 2) = some (winnerOf k rank (sibling c))) :
    (if isGt (winnerOf k rank c) (winnerOf k rank (sibling c)) then
      climb (Function.update nodes (c / 2) (some (winnerOf k rank c))) (winnerOf k rank (sibling c))
    else climb nodes (winnerOf k rank c)) =
      climb (Function.update nodes (c / 2) (some (loserOf k rank (c / 2)))) (winnerOf k rank (c / 2)) := by
  have hm := match_child inj h1 h2
  by_cases h : rank (winnerOf k rank (sibling c)) < rank (winnerOf k rank c)
  · obtain ⟨hw, hl⟩ := hm.1 h
    rw [hgt, decide_eq_true h, if_pos rfl, hw, hl]
  · obtain ⟨hw, hl⟩ := hm.2 h
    rw [hgt, decide_eq_false h, if_neg Bool.false_ne_true, hw, hl, ← hn, Function.update_eq_self]

/-! ## update -/

/-- what a climb of `update` from node `c` leaves behind, when the other side's winner waits at
every node on the way -/
theorem updateClimb_spec (inj : Function.Injective rank)
    (hgt : ∀ a b, isGt a b = decide (rank b < rank a)) (fuel : Nat) {c : Nat}
    (nodes : Nat → Option Nat)
    (hf : c / 2 ≤ fuel) (h1 : 1 ≤ c) (h2 : c < 2 * k)
    (hwait : ∀ d, 2 ≤ d → Below d c → nodes (d / 2) = some (winnerOf k rank (sibling d))) :
    let r := updateClimb isGt fuel nodes (winnerOf k rank c) (c / 2)
    r 0 = some (winnerOf k rank 1) ∧ (∀ d, 2 ≤ d → Below d c → r (d / 2) = some (loserOf k rank (d / 2))) ∧
      ∀ n, 1 ≤ n → ¬ Below n (c / 2) → r n = nodes n := by
  induction c using Nat.strong_induction_on generalizing fuel nodes with
  | _ c ih =>
    by_cases hc : c = 1
    · subst hc
      intro r
      have hr : r = Function.update nodes 0 (some (winnerOf k rank 1)) := updateClimb_root ..
      rw [hr]
      refine ⟨Function.update_self .., fun d hd hb => ?_, fun n hn _ => ?_⟩
      · have := hb.le
        omega
      · exact Function.update_of_ne (by omega) ..
    · -- one match at the parent of `c`; the climb goes on from there
      obtain ⟨fuel, rfl⟩ : ∃ f, fuel = f + 1 := ⟨fuel - 1, by omega⟩
      have hstep : updateClimb isGt (fuel + 1) nodes (winnerOf k rank c) (c / 2) =
          updateClimb isGt fuel (Function.update nodes (c / 2) (some (loserOf k rank (c / 2))))
            (winnerOf k rank (c / 2)) (c / 2 / 2) := by
        have hw := hwait c (by omega) (Below.refl c)
        rw [updateClimb, if_neg (by omega), hw]
        exact play (fun nodes w => updateClimb isGt fuel nodes w (c / 2 / 2)) inj hgt (by omega) h2 hw
      obtain ⟨hroot, hpath, hoff⟩ := ih (c / 2) (by omega) fuel
        (Function.update nodes (c / 2) (some (loserOf k rank (c / 2))))
        (by omega) (by omega) (by omega) (fun d hd hb => by
          rw [Function.update_of_ne (by have := hb.le; omega)]
          exact hwait d hd hb.of_half)
      rw [hstep]
      refine ⟨hroot, fun d hd hb => ?_, fun n hn hb => ?_⟩
      · rcases below_iff.mp hb with rfl | hb
        · rw [hoff _ (by omega) fun h => by have := h.le; omega, Function.update_self]
        · exact hpath d hd hb
      · have hne : n ≠ c / 2 := by
          rintro rfl
          exact hb (Below.refl _)
        rw [hoff n hn fun h => hb h.of_half, Function.update_of_ne hne]

/-- **`update` restores the tournament** after the rank of the current winner has changed and no
other. -/
theorem update_played {rank' : Nat → α} (hk : 1 ≤ t.numStreams)
    (inj : Function.Injective rank) (inj' : Function.Injective rank')
    (hgt : ∀ a b, isGt a b = decide (rank' b < rank' a)) (h : Played rank t)
    (hsame : ∀ i, i ≠ t.winner → rank' i = rank i) : Played rank' (t.update isGt) := by
  have hw : t.winner = winnerOf t.numStreams rank 1 := h.winner_eq
  have hwlt := h.winner_lt hk
  generalize hkk : t.numStreams = k at *
  -- a subtree that does not hold the winner is as before
  have hcongr : ∀ {n}, ¬ Below n (k + t.winner) → ∀ i, i < k → Below n (k + i) → rank' i = rank i :=
    fun hn i _ hb => hsame i fun hi => hn (hi ▸ hb)
  obtain ⟨hroot, hpath, hoff⟩ := updateClimb_spec (k := k) (c := k + t.winner)
    inj' hgt (t.leafIndex t.winner) t.nodes
    (by rw [leafIndex, hkk]) (by omega) (by omega) (fun d hd hb => by
      have hb' := hb
      rw [hw] at hb'
      have hdlt := hb.le
      rw [h.node (d / 2) (by omega) (by omega), hkk, loserOf_path inj hk hd hb',
        winnerOf_congr rank' (by have := sibling_ge hd; omega)
          (sibling_lt (by omega)) (hcongr (hb.not_sibling hd))])
  rw [winnerOf_leaf] at hroot hpath hoff
  have hnodes : (t.update isGt).nodes =
      updateClimb isGt (t.leafIndex t.winner) t.nodes t.winner ((k + t.winner) / 2) := by
    rw [update, leafIndex, hkk]
  refine ⟨by rw [hnodes, hroot, update_numStreams, hkk], fun n h1 h2 => ?_⟩
  rw [update_numStreams, hkk] at h2 ⊢
  rw [hnodes]
  by_cases hb : Below n (k + t.winner)
  · -- on the path the node is the parent of the next node below
    have hne : n ≠ k + t.winner := by omega
    rcases hb.child hne with hc | hc
    · have := hpath (2 * n) (by omega) hc
      rwa [show 2 * n / 2 = n by omega] at this
    · have := hpath (2 * n + 1) (by omega) hc
      rwa [show (2 * n + 1) / 2 = n by omega] at this
  · rw [hoff n h1 fun h' => hb h'.of_half, h.node n h1 (by omega), hkk, loserOf_congr rank' h1 h2 (hcongr hb)]

/-! ## init -/

/-- all players of the subtree of `n` are among the first `i` streams -/
def Full (k i n : Nat) : Prop := ∀ j, j < k → Below n (k + j) → j < i

theorem Full.of_above {i d n : Nat} (h : Full k i d) (hb : Below d n) : Full k i n :=
  fun j hj hn => h j hj (hb.trans hn)

theorem full_succ_iff {i n : Nat} (hn : ¬ Below n (k + i)) : Full k (i + 1) n ↔ Full k i n := by
  constructor
  · intro h j hj hb
    have := h j hj hb
    have hne : j ≠ i := fun he => hn (he ▸ hb)
    omega
  · intro h j hj hb
    have := h j hj hb
    omega

theorem not_full {i n : Nat} (hi : i < k) (hn : Below n (k + i)) : ¬ Full k i n :=
  fun h => absurd (h i hi hn) (lt_irrefl i)

theorem Full.parent {i c : Nat} (h1 : 2 ≤ c) (h2 : c < 2 * k) (hc : Full k i c)
    (hs : Full k i (sibling c)) : Full k i (c / 2) := by
  intro j hj hb
  rcases hb.of_parent h1 (by omega) with h | h
  · exact hc j hj h
  · exact hs j hj h

/-- what the node above `d` and its sibling holds after `i` streams have entered: the loser of the
match if both sides are complete, the waiting winner if one side is, and nothing before -/
structure Entry (k : Nat) (rank : Nat → α) (i : Nat) (nodes : Nat → Option Nat) (d : Nat) :
    Prop where
  both : Full k i d → Full k i (sibling d) → nodes (d / 2) = some (loserOf k rank (d / 2))
  left : Full k i d → ¬ Full k i (sibling d) → nodes (d / 2) = some (winnerOf k rank d)
  right : ¬ Full k i d → Full k i (sibling d) → nodes (d / 2) = some (winnerOf k rank (sibling d))
  none : ¬ Full k i d → ¬ Full k i (sibling d) → nodes (d / 2) = none

theorem Entry.symm {i d : Nat} (hd : 2 ≤ d)
    (h : Entry k rank i nodes (sibling d)) : Entry k rank i nodes d := by
  obtain ⟨h1, h2, h3, h4⟩ := h
  rw [sibling_sibling hd, sibling_half hd] at *
  exact ⟨fun a b => h1 b a, fun a b => h3 b a, fun a b => h2 b a, fun a b => h4 b a⟩

/-- the tree after `i` streams have entered -/
structure Filled (k : Nat) (rank : Nat → α) (i : Nat) (nodes : Nat → Option Nat) : Prop where
  rootFull : Full k i 1 → nodes 0 = some (winnerOf k rank 1)
  rootEmpty : ¬ Full k i 1 → nodes 0 = Option.none
  entry : ∀ d, 2 ≤ d → d < 2 * k → Entry k rank i nodes d

theorem initClimb_spec (inj : Function.Injective rank)
    (hgt : ∀ a b, isGt a b = decide (rank b < rank a)) {i c : Nat} (fuel : Nat)
    (nodes : Nat → Option Nat) (hf : c / 2 ≤ fuel) (h1 : 1 ≤ c) (h2 : c < 2 * k)
    (hfull : Full k (i + 1) c) (hroot : nodes 0 = none)
    (hwait : ∀ d, 2 ≤ d → Below d c → Full k (i + 1) (sibling d) →
      nodes (d / 2) = some (winnerOf k rank (sibling d)))
    (hfree : ∀ d, 2 ≤ d → Below d c → ¬ Full k (i + 1) (sibling d) → nodes (d / 2) = none) :
    let r := initClimb isGt fuel nodes (winnerOf k rank c) (c / 2)
    (Full k (i + 1) 1 → r 0 = some (winnerOf k rank 1)) ∧ (¬ Full k (i + 1) 1 → r 0 = none) ∧
      (∀ d, 2 ≤ d → Below d c → Entry k rank (i + 1) r d) ∧
      ∀ n, 1 ≤ n → ¬ Below n (c / 2) → r n = nodes n := by
  induction c using Nat.strong_induction_on generalizing fuel nodes with
  | _ c ih =>
    by_cases hc : c = 1
    · subst hc
      intro r
      have hr : r = Function.update nodes 0 (some (winnerOf k rank 1)) := initClimb_root ..
      rw [hr]
      refine ⟨fun _ => Function.update_self .., fun h => absurd hfull h, fun d hd hb => ?_, fun n hn _ => ?_⟩
      · have := hb.le
        omega
      · exact Function.update_of_ne (by omega) ..
    obtain ⟨fuel, rfl⟩ : ∃ f, fuel = f + 1 := ⟨fuel - 1, by omega⟩
    have hne : ∀ {nodes' : Nat → Option Nat} {x : Option Nat} {n : Nat}, n ≠ c / 2 →
        Function.update nodes' (c / 2) x n = nodes' n := fun h => Function.update_of_ne h ..
    by_cases hs : Full k (i + 1) (sibling c)
    · -- the other side waits: one match, and the climb goes on with its winner
      have hw := hwait c (by omega) (Below.refl c) hs
      have hstep : initClimb isGt (fuel + 1) nodes (winnerOf k rank c) (c / 2) =
          initClimb isGt fuel (Function.update nodes (c / 2) (some (loserOf k rank (c / 2))))
            (winnerOf k rank (c / 2)) (c / 2 / 2) := by
        rw [initClimb, if_neg (by omega), hw]
        exact play (fun nodes w => initClimb isGt fuel nodes w (c / 2 / 2)) inj hgt (by omega) h2 hw
      obtain ⟨hr, he, hpath, hoff⟩ := ih (c / 2) (by omega) fuel
        (Function.update nodes (c / 2) (some (loserOf k rank (c / 2))))
        (by omega) (by omega) (by omega) (hfull.parent (by omega) h2 hs)
        (by rw [hne (by omega), hroot])
        (fun d hd hb hfd => by
          rw [hne (by have := hb.le; omega)]
          exact hwait d hd hb.of_half hfd)
        (fun d hd hb hfd => by
          rw [hne (by have := hb.le; omega)]
          exact hfree d hd hb.of_half hfd)
      rw [hstep]
      refine ⟨hr, he, fun d hd hb => ?_, fun n hn hb => ?_⟩
      · rcases below_iff.mp hb with rfl | hb
        · refine ⟨fun _ _ => ?_, fun _ h => absurd hs h, fun h _ => absurd hfull h, fun h _ => absurd hfull h⟩
          rw [hoff _ (by omega) fun h => by have := h.le; omega, Function.update_self]
        · exact hpath d hd hb
      · rw [hoff n hn fun h => hb h.of_half, hne fun h => hb (by rw [h]; exact Below.refl _)]
    · -- the other side is not complete: the stream waits here, and nothing above is complete
      have hstep : initClimb isGt (fuel + 1) nodes (winnerOf k rank c) (c / 2) =
          Function.update nodes (c / 2) (some (winnerOf k rank c)) := by
        rw [initClimb, if_neg (by omega), hfree c (by omega) (Below.refl c) hs]
      have habove : ∀ d, Below d (c / 2) → ¬ Full k (i + 1) d := fun d hb h =>
        hs (h.of_above (Below.of_half (by rw [sibling_half (by omega)]; exact hb)))
      rw [hstep]
      refine ⟨fun h => absurd h (habove 1 (below_one (by omega))),
        fun _ => by rw [hne (by omega), hroot], fun d hd hb => ?_, fun n hn hb => ?_⟩
      · rcases below_iff.mp hb with rfl | hb'
        · exact ⟨fun _ h => absurd h hs, fun _ _ => Function.update_self .., fun h => absurd hfull h,
            fun h => absurd hfull h⟩
        · have hd' : d / 2 ≠ c / 2 := by
            have := hb'.le
            omega
          refine ⟨fun h => absurd h (habove d hb'), fun h => absurd h (habove d hb'),
            fun _ h => ?_, fun _ h => ?_⟩
          · rw [hne hd', hwait d hd hb h]
          · rw [hne hd', hfree d hd hb h]
      · exact hne fun h => hb (by rw [h]; exact Below.refl _)

theorem Filled.enter (inj : Function.Injective rank)
    (hgt : ∀ a b, isGt a b = decide (rank b < rank a)) {i : Nat}
    (hi : i < k) (h : Filled k rank i nodes) :
    Filled k rank (i + 1) (initClimb isGt ((k + i) / 2) nodes i ((k + i) / 2)) := by
  have hold : ∀ d, Below d (k + i) → ¬ Full k i d := fun d hb => not_full hi hb
  have hsib : ∀ d, 2 ≤ d → Below d (k + i) → (Full k (i + 1) (sibling d) ↔ Full k i (sibling d)) :=
    fun d hd hb => full_succ_iff (hb.not_sibling hd)
  have hself : Full k (i + 1) (k + i) := by
    intro j hj hb
    rcases below_iff.mp hb with h | h
    · omega
    · have := h.le
      omega
  obtain ⟨hr, he, hpath, hoff⟩ := initClimb_spec (k := k) (c := k + i) inj hgt
    ((k + i) / 2) nodes le_rfl (by omega) (by omega) hself
    (h.rootEmpty (hold 1 (below_one (by omega))))
    (fun d hd hb hf => (h.entry d hd (by have := hb.le; omega)).right (hold d hb) ((hsib d hd hb).mp hf))
    (fun d hd hb hf => (h.entry d hd (by have := hb.le; omega)).none (hold d hb)
      fun hf' => hf ((hsib d hd hb).mpr hf'))
  rw [winnerOf_leaf] at hr he hpath hoff
  refine ⟨hr, he, fun d hd hlt => ?_⟩
  by_cases hb : Below d (k + i)
  · exact hpath d hd hb
  by_cases hbs : Below (sibling d) (k + i)
  · exact (hpath _ (sibling_ge hd) hbs).symm hd
  · -- the node above `d` is off the path, and neither side has changed
    have hoffd := hoff (d / 2) (by omega) fun hb' => by
      rcases hb'.of_half.of_parent hd (by omega) with h | h
      · exact hb h
      · exact hbs h
    obtain ⟨e1, e2, e3, e4⟩ := h.entry d hd hlt
    rw [← hoffd, ← full_succ_iff hb, ← full_succ_iff hbs] at e1 e2 e3 e4
    exact ⟨e1, e2, e3, e4⟩

theorem filled_empty (hk : 1 ≤ k) : Filled k rank 0 (fun _ => none) := by
  have hno : ∀ n, 1 ≤ n → n < 2 * k → ¬ Full k 0 n := by
    intro n h1 h2 hf
    obtain ⟨hlt, hb⟩ := winnerOf_below rank h1 h2
    exact absurd (hf _ hlt hb) (Nat.not_lt_zero _)
  refine ⟨fun h => ?_, fun _ => rfl, fun d hd hlt => ?_⟩
  · exact absurd h (hno 1 le_rfl (by omega))
  · have hds := hno (sibling d) (by have := sibling_ge hd; omega) (sibling_lt hlt)
    have hd' := hno d (by omega) hlt
    exact ⟨fun h => absurd h hd', fun h => absurd h hd', fun _ h => absurd h hds, fun _ _ => rfl⟩

/-- **`init` plays the tournament.** -/
theorem init_played (t : LoserTree) (hk : 1 ≤ t.numStreams) (inj : Function.Injective rank)
    (hgt : ∀ a b, isGt a b = decide (rank b < rank a)) : Played rank (t.init isGt) := by
  have hrun : ∀ i, i ≤ t.numStreams → Filled t.numStreams rank i ((List.range i).foldl
      (fun nodes i => initClimb isGt (t.leafIndex i) nodes i (t.leafIndex i)) (fun _ => none)) := by
    intro i
    induction i with
    | zero => exact fun _ => filled_empty hk
    | succ i ih =>
      intro hi
      rw [List.range_succ, List.foldl_append]
      exact (ih (by omega)).enter inj hgt (by omega)
  have h := hrun t.numStreams le_rfl
  have hall : ∀ n, Full t.numStreams t.numStreams n := fun n j hj _ => hj
  refine ⟨h.rootFull (hall 1), fun n h1 h2 => ?_⟩
  have h2' : n < t.numStreams := h2
  have := (h.entry (2 * n) (by omega) (by omega)).both (hall _) (hall _)
  rwa [show 2 * n / 2 = n by omega] at this

/-! ## whole runs -/

theorem Played.nodes_perm (h : Played rank t) (hk : 1 ≤ t.numStreams) :
    ((List.range t.numStreams).map t.nodes).Perm ((List.range t.numStreams).map some) := by
  have hnodup : ((List.range t.numStreams).map some).Nodup :=
    List.nodup_range.map (Option.some_injective _)
  refine ((hnodup.subperm fun x hx => ?_).perm_of_length_le (by simp)).symm
  obtain ⟨i, hi, rfl⟩ := List.mem_map.mp hx
  rw [List.mem_range] at hi
  by_cases hw : i = winnerOf t.numStreams rank 1
  · exact List.mem_map.mpr ⟨0, List.mem_range.mpr hk, by rw [h.root, hw]⟩
  · obtain ⟨n, h1, h2, hn⟩ := exists_loserOf hi hw
    exact List.mem_map.mpr ⟨n, List.mem_range.mpr h2, by rw [h.node n h1 h2, hn]⟩

/-- the heads first, then the stream index -/
def headGt (heads : Nat → α) (a b : Nat) : Bool := ((compare (heads a) (heads b)).then (compare a b)).isGT

def tieRank (heads : Nat → α) (i : Nat) : α ×ₗ Nat := toLex (heads i, i)

omit [LinearOrder α] in
theorem tieRank_injective (heads : Nat → α) : Function.Injective (tieRank heads) :=
  fun _ _ h => congrArg (fun p => (ofLex p).2) h

theorem headGt_eq (heads : Nat → α) (a b : Nat) :
    headGt heads a b = decide (tieRank heads b < tieRank heads a) := by
  rw [headGt, Bool.eq_iff_iff, decide_eq_true_iff, tieRank, tieRank, Prod.Lex.toLex_lt_toLex]
  rcases lt_trichotomy (heads a) (heads b) with h | h | h
  · rw [compare_lt_iff_lt.mpr h]
    simp [Ordering.then, Ordering.isGT, h.not_gt, h.ne']
  · rw [compare_eq_iff_eq.mpr h, h]
    simp only [Ordering.then, lt_self_iff_false, true_and, false_or]
    rw [Ordering.isGT_iff_eq_gt, compare_gt_iff_gt]
  · rw [compare_gt_iff_gt.mpr h]
    simp [Ordering.then, Ordering.isGT, h]

/-- the trees of a merge of `k` streams, with the heads they were last compared by: between two
calls of `update` only the head of the winner changes -/
inductive Run (k : Nat) : (Nat → α) → LoserTree → Prop
  | init (heads : Nat → α) : Run k heads ((new k).init (headGt heads))
  | update {heads heads' : Nat → α} {t : LoserTree} (run : Run k heads t)
      (same : ∀ i, i ≠ t.winner → heads' i = heads i) : Run k heads' (t.update (headGt heads'))

variable {heads : Nat → α}

theorem Run.played (hk : 1 ≤ k) (h : Run k heads t) : t.numStreams = k ∧ Played (tieRank heads) t := by
  induction h with
  | init heads => exact ⟨rfl, init_played _ hk (tieRank_injective _) (headGt_eq _)⟩
  | @update heads heads' t _ same ih =>
    obtain ⟨hn, hp⟩ := ih
    refine ⟨hn, update_played (hn ▸ hk) (tieRank_injective _) (tieRank_injective _) (headGt_eq _) hp fun i hi => ?_⟩
    rw [tieRank, tieRank, same i hi]

/-- **The tree at every point of a merge**: the winner is the least stream, every stream stands at
exactly one node, and an inner node holds the loser of the match it stands for. -/
theorem run_holds_tournament (hk : 1 ≤ k) (h : Run k heads t) :
    (t.winner < k ∧ ∀ i, i < k → i ≠ t.winner → headGt heads i t.winner = true) ∧
    ((List.range k).map t.nodes).Perm ((List.range k).map some) ∧
    ∀ n, 1 ≤ n → n < k → t.nodes n = some (loserOf k (tieRank heads) n) := by
  obtain ⟨rfl, hp⟩ := h.played hk
  refine ⟨⟨hp.winner_lt hk, fun i hi hne => ?_⟩, hp.nodes_perm hk, hp.node⟩
  rw [headGt_eq, decide_eq_true_iff]
  exact (hp.winner_le hi).lt_of_ne fun h => hne (tieRank_injective _ h).symm

/-- three streams with a tie; the first winner then moves behind the others -/
theorem run_holds_tournament_three :
    let heads := fun i => [4, 4, 6].getD i 0
    let heads' := Function.update heads 0 9
    let t := (new 3).init (headGt heads)
    (t.winner = 0 ∧ (t.update (headGt heads')).winner = 1) ∧
      ((List.range 3).map (t.update (headGt heads')).nodes).Perm ((List.range 3).map some) := by
  intro heads heads' t
  have hw : t.winner = 0 := by decide
  exact ⟨⟨hw, by decide⟩, (run_holds_tournament (by decide) ((Run.init heads).update fun i hi =>
    Function.update_of_ne (hw ▸ hi) ..)).2.1⟩

end

end LoserTree

end Paimon.SortMerge
