import Paimon.Lib.Sections

/-!
# Packing ranges into runs

Items with ranges, taken in the order of their lower ends, are appended to runs: an item goes to a run
whose end lies below it, the one with the greatest such end, and opens a new run if there is none.

* `bestRun`, `place`, `pack`: the loop;
* `Packed`: what it keeps: nothing is lost, a run ends with its last item, and in a run every range lies
  below the later ones;
* `covers`: the items whose range holds a point; `pack_depth`: there are as many runs as items that some
  point has in common, at most.

Which of the fitting runs is taken does not matter for any of this.
-/

namespace RunPacking

open List

variable {α κ : Type*}

section
variable (cmp : κ → κ → Ordering) (lo hi : α → κ)

/-- the position of the greatest end below `low`, the first one among equals -/
def bestRun (ends : List κ) (low : κ) : Option Nat :=
  ends.zipIdx.foldl (fun best p =>
    if cmp p.1 low ≠ .lt then best
    else match best with
      | some b => if ends[b]?.any fun e => cmp e p.1 != .lt then best else some p.2
      | none => some p.2) none

/-- one item; a run is kept with its end -/
def place (runs : List (List α × κ)) (x : α) : List (List α × κ) :=
  match bestRun cmp (runs.map Prod.snd) (lo x) with
  | some i => runs.modify i fun run => (run.1 ++ [x], hi x)
  | none => runs ++ [([x], hi x)]

def pack (xs : List α) : List (List α × κ) := xs.foldl (place cmp lo hi) []

end

variable {cmp : κ → κ → Ordering} {lo hi : α → κ}

/-! ## the choice of a run -/

section
variable {ends : List κ} {low : κ} {i : Nat}

theorem bestRun_some (h : bestRun cmp ends low = some i) : ∃ e, ends[i]? = some e ∧ cmp e low = .lt := by
  -- along the fold: the best so far is the position of an end below `low`
  have hfold : ∀ (l : List (κ × Nat)) (best : Option Nat), (∀ p ∈ l, ends[p.2]? = some p.1) →
      (∀ b, best = some b → ∃ e, ends[b]? = some e ∧ cmp e low = .lt) →
      ∀ b, l.foldl (fun best p =>
        if cmp p.1 low ≠ .lt then best
        else match best with
          | some b => if ends[b]?.any fun e => cmp e p.1 != .lt then best else some p.2
          | none => some p.2) best = some b → ∃ e, ends[b]? = some e ∧ cmp e low = .lt := by
    intro l
    induction l with
    | nil => exact fun best _ hbest => hbest
    | cons p l ih =>
      intro best hl hbest
      rw [foldl_cons]
      refine ih _ (forall_mem_cons.mp hl).2 fun b hb => ?_
      have hp := hl p mem_cons_self
      split at hb
      · exact hbest b hb
      · next hlt =>
        have hlt : cmp p.1 low = .lt := not_not.mp hlt
        split at hb
        · split at hb
          · exact hbest b hb
          · obtain rfl := Option.some.inj hb
            exact ⟨p.1, hp, hlt⟩
        · obtain rfl := Option.some.inj hb
          exact ⟨p.1, hp, hlt⟩
  refine hfold ends.zipIdx none (fun p hp => ?_) (fun b hb => by cases hb) i h
  exact mem_zipIdx_iff_getElem?.mp hp

theorem bestRun_none (h : bestRun cmp ends low = none) : ∀ e ∈ ends, cmp e low ≠ .lt := by
  have hfold : ∀ (l : List (κ × Nat)) (best : Option Nat), l.foldl (fun best p =>
        if cmp p.1 low ≠ .lt then best
        else match best with
          | some b => if ends[b]?.any fun e => cmp e p.1 != .lt then best else some p.2
          | none => some p.2) best = none → best = none ∧ ∀ p ∈ l, cmp p.1 low ≠ .lt := by
    intro l
    induction l with
    | nil => exact fun best hbest => ⟨hbest, forall_mem_nil _⟩
    | cons p l ih =>
      intro best hbest
      rw [foldl_cons] at hbest
      obtain ⟨hnone, hl⟩ := ih _ hbest
      split at hnone
      · next hp =>
        refine ⟨hnone, fun q hq => ?_⟩
        rcases mem_cons.mp hq with rfl | hq
        · exact hp
        · exact hl q hq
      · split at hnone
        · split at hnone <;> cases hnone
        · cases hnone
  intro e he
  obtain ⟨i, hi⟩ := getElem?_of_mem he
  exact (hfold ends.zipIdx none h).2 (e, i) (mem_zipIdx_iff_getElem?.mpr hi)

end

/-! ## what the loop keeps -/

section
variable {ρ : Type*} [LinearOrder ρ] {P : κ → Prop} {rank : κ → ρ} {runs : List (List α × κ)}
  {seen : List α} {x : α}

/-- one range lies below the other -/
def Below (rank : κ → ρ) (lo hi : α → κ) (x y : α) : Prop := rank (hi x) < rank (lo y)

structure Packed (rank : κ → ρ) (lo hi : α → κ) (runs : List (List α × κ)) (seen : List α) : Prop where
  perm : (runs.map Prod.fst).flatten.Perm seen
  ends : ∀ run ∈ runs, ∃ z, run.1.getLast? = some z ∧ run.2 = hi z
  below : ∀ run ∈ runs, run.1.Pairwise (Below rank lo hi)

/-- what an item must be for the loop -/
structure Item (P : κ → Prop) (rank : κ → ρ) (lo hi : α → κ) (x : α) : Prop where
  lo_ok : P (lo x)
  hi_ok : P (hi x)
  le : rank (lo x) ≤ rank (hi x)

theorem Packed.mem_seen (h : Packed rank lo hi runs seen) {run : List α × κ} (hrun : run ∈ runs) {y : α}
    (hy : y ∈ run.1) : y ∈ seen :=
  h.perm.mem_iff.mp (mem_flatten.mpr ⟨run.1, mem_map_of_mem hrun, hy⟩)

theorem below_concat {run : List α} {z : α} (hrun : run.Pairwise (Below rank lo hi))
    (hlast : run.getLast? = some z) (hz : rank (lo z) ≤ rank (hi z)) (hx : rank (hi z) < rank (lo x)) :
    (run ++ [x]).Pairwise (Below rank lo hi) := by
  refine pairwise_append.mpr ⟨hrun, pairwise_singleton _ _, fun a ha b hb => ?_⟩
  rw [mem_singleton.mp hb]
  obtain ⟨init, rfl⟩ := getLast?_eq_some_iff.mp hlast
  rcases mem_append.mp ha with ha | ha
  · have haz : rank (hi a) < rank (lo z) := (pairwise_append.mp hrun).2.2 a ha z mem_cons_self
    exact haz.trans_le (hz.trans hx.le)
  · rw [mem_singleton.mp ha]
    exact hx

theorem place_cases (hi : α → κ) (hcmp : Sections.Ranked cmp P rank) (hends : ∀ run ∈ runs, P run.2) (hx : P (lo x)) :
    (∃ before run after, runs = before ++ run :: after ∧ rank run.2 < rank (lo x) ∧
      place cmp lo hi runs x = before ++ (run.1 ++ [x], hi x) :: after) ∨
    ((∀ run ∈ runs, rank (lo x) ≤ rank run.2) ∧ place cmp lo hi runs x = runs ++ [([x], hi x)]) := by
  unfold place
  cases hbest : bestRun cmp (runs.map Prod.snd) (lo x) with
  | some i =>
    left
    obtain ⟨e, he, hlt⟩ := bestRun_some hbest
    rw [getElem?_map] at he
    obtain ⟨run, hrun, rfl⟩ := Option.map_eq_some_iff.mp he
    obtain ⟨hi', hget⟩ := List.getElem?_eq_some_iff.mp hrun
    subst hget
    refine ⟨runs.take i, runs[i], runs.drop (i + 1), ?_, ?_, modify_eq_take_cons_drop hi'⟩
    · rw [← drop_eq_getElem_cons hi', take_append_drop]
    · rw [hcmp.cmp_eq _ _ (hends _ (getElem_mem hi')) hx] at hlt
      exact compare_lt_iff_lt.mp hlt
  | none =>
    right
    refine ⟨fun run hrun => ?_, rfl⟩
    have hge := bestRun_none hbest run.2 (mem_map_of_mem hrun)
    rw [hcmp.cmp_eq _ _ (hends run hrun) hx, ne_eq, compare_lt_iff_lt] at hge
    exact not_lt.mp hge

theorem Packed.end_ok (h : Packed rank lo hi runs seen) (hseen : ∀ y ∈ seen, Item P rank lo hi y) :
    ∀ run ∈ runs, P run.2 := by
  intro run hrun
  obtain ⟨z, hz, hend⟩ := h.ends run hrun
  rw [hend]
  exact (hseen z (h.mem_seen hrun (mem_of_getLast? hz))).hi_ok

theorem Packed.placed (hcmp : Sections.Ranked cmp P rank) (h : Packed rank lo hi runs seen)
    (hseen : ∀ y ∈ seen, Item P rank lo hi y) (hx : Item P rank lo hi x) :
    Packed rank lo hi (place cmp lo hi runs x) (seen ++ [x]) := by
  obtain ⟨before, run, after, rfl, hlt, hplace⟩ | ⟨-, hplace⟩ := place_cases hi hcmp (h.end_ok hseen) hx.lo_ok
  · rw [hplace]
    have hrun : run ∈ before ++ run :: after := mem_append_right _ mem_cons_self
    obtain ⟨z, hz, hend⟩ := h.ends run hrun
    have hzle := (hseen z (h.mem_seen hrun (mem_of_getLast? hz))).le
    -- only the chosen run changes
    have hmem : ∀ r ∈ before ++ (run.1 ++ [x], hi x) :: after,
        r = (run.1 ++ [x], hi x) ∨ r ∈ before ++ run :: after := by
      intro r hr
      rcases mem_append.mp hr with hr | hr
      · exact .inr (mem_append_left _ hr)
      · rcases mem_cons.mp hr with hr | hr
        · exact .inl hr
        · exact .inr (mem_append_right _ (mem_cons_of_mem _ hr))
    refine ⟨?_, fun r hr => ?_, fun r hr => ?_⟩
    · have hperm := h.perm.append_right [x]
      simp only [map_append, map_cons, flatten_append, flatten_cons] at hperm ⊢
      refine List.Perm.trans ?_ hperm
      simp only [append_assoc]
      exact ((perm_append_comm).append_left _).append_left _
    · rcases hmem r hr with rfl | hr
      · exact ⟨x, by simp, rfl⟩
      · exact h.ends r hr
    · rcases hmem r hr with rfl | hr
      · exact below_concat (h.below run hrun) hz hzle (hend ▸ hlt)
      · exact h.below r hr
  · rw [hplace]
    refine ⟨?_, fun r hr => ?_, fun r hr => ?_⟩
    · simp only [map_append, map_cons, map_nil, flatten_append, flatten_singleton]
      exact h.perm.append_right [x]
    · rcases mem_append.mp hr with hr | hr
      · exact h.ends r hr
      · rw [mem_singleton.mp hr]
        exact ⟨x, rfl, rfl⟩
    · rcases mem_append.mp hr with hr | hr
      · exact h.below r hr
      · rw [mem_singleton.mp hr]
        exact pairwise_singleton _ _

/-! ## how many runs there are -/

/-- the range of the item holds the point -/
def covers (rank : κ → ρ) (lo hi : α → κ) (k : ρ) (x : α) : Bool :=
  decide (rank (lo x) ≤ k ∧ k ≤ rank (hi x))

theorem countP_le_one {run : List α} (h : run.Pairwise (Below rank lo hi)) (k : ρ) :
    run.countP (covers rank lo hi k) ≤ 1 := by
  induction run with
  | nil => exact Nat.zero_le 1
  | cons a run ih =>
    obtain ⟨ha, hrun⟩ := pairwise_cons.mp h
    rw [countP_cons]
    split
    · next hk =>
      have hk := (of_decide_eq_true hk).2
      have hnone : run.countP (covers rank lo hi k) = 0 := by
        rw [countP_eq_zero]
        intro b hb hbk
        exact absurd ((of_decide_eq_true hbk).1.trans hk) (not_le_of_gt (ha b hb))
      omega
    · exact ih hrun

theorem Packed.countP_le (h : Packed rank lo hi runs seen) (k : ρ) :
    seen.countP (covers rank lo hi k) ≤ runs.length := by
  rw [← h.perm.countP_eq, countP_flatten]
  refine (sum_le_card_nsmul _ 1 fun n hn => ?_).trans (by simp)
  obtain ⟨l, hl, rfl⟩ := mem_map.mp hn
  obtain ⟨run, hrun, rfl⟩ := mem_map.mp hl
  exact countP_le_one (h.below run hrun) k

/-- if every run ends at or above a point that its last item does not start above, there is one item for
each run that holds the point -/
theorem Packed.le_countP (h : Packed rank lo hi runs seen) {k : ρ} (hends : ∀ run ∈ runs, k ≤ rank run.2)
    (hstarts : ∀ y ∈ seen, rank (lo y) ≤ k) : runs.length ≤ seen.countP (covers rank lo hi k) := by
  rw [← h.perm.countP_eq, countP_flatten]
  have hlower := card_nsmul_le_sum ((runs.map Prod.fst).map (List.countP (covers rank lo hi k))) 1
    fun n hn => by
      obtain ⟨l, hl, rfl⟩ := mem_map.mp hn
      obtain ⟨run, hrun, rfl⟩ := mem_map.mp hl
      obtain ⟨z, hz, hend⟩ := h.ends run hrun
      have hzmem := mem_of_getLast? hz
      refine countP_pos_iff.mpr ⟨z, hzmem, decide_eq_true ⟨hstarts z (h.mem_seen hrun hzmem), ?_⟩⟩
      rw [← hend]
      exact hends run hrun
  simpa using hlower

/-- a run is only opened at a point that all runs cover -/
def Tight (rank : κ → ρ) (lo hi : α → κ) (runs : List (List α × κ)) (seen : List α) : Prop :=
  runs = [] ∨ ∃ y ∈ seen, runs.length ≤ seen.countP (covers rank lo hi (rank (lo y)))

theorem Tight.placed (hcmp : Sections.Ranked cmp P rank) (h : Packed rank lo hi runs seen)
    (ht : Tight rank lo hi runs seen) (hseen : ∀ y ∈ seen, Item P rank lo hi y) (hx : Item P rank lo hi x)
    (hsorted : ∀ y ∈ seen, rank (lo y) ≤ rank (lo x)) :
    Tight rank lo hi (place cmp lo hi runs x) (seen ++ [x]) := by
  obtain ⟨before, run, after, rfl, -, hplace⟩ | ⟨habove, hplace⟩ :=
    place_cases hi hcmp (h.end_ok hseen) hx.lo_ok
  · obtain hnil | ⟨y, hy, hle⟩ := ht
    · exact absurd hnil (by simp)
    · refine .inr ⟨y, mem_append_left _ hy, ?_⟩
      rw [hplace, countP_append]
      simp only [length_append, length_cons] at hle ⊢
      omega
  · refine .inr ⟨x, mem_append_right _ mem_cons_self, ?_⟩
    have hself : covers rank lo hi (rank (lo x)) x = true := decide_eq_true ⟨le_refl _, hx.le⟩
    rw [hplace, length_append, countP_append, countP_singleton, if_pos hself]
    exact Nat.add_le_add_right (h.le_countP habove hsorted) 1

theorem pack_inv (hcmp : Sections.Ranked cmp P rank) {xs : List α} (hxs : ∀ x ∈ xs, Item P rank lo hi x)
    (hsorted : xs.Pairwise fun x y => rank (lo x) ≤ rank (lo y)) :
    Packed rank lo hi (pack cmp lo hi xs) xs ∧ Tight rank lo hi (pack cmp lo hi xs) xs := by
  have hfold : ∀ (rest seen : List α) (runs : List (List α × κ)), Packed rank lo hi runs seen →
      Tight rank lo hi runs seen → (∀ x ∈ seen ++ rest, Item P rank lo hi x) →
      (seen ++ rest).Pairwise (fun x y => rank (lo x) ≤ rank (lo y)) →
      Packed rank lo hi (rest.foldl (place cmp lo hi) runs) (seen ++ rest) ∧
        Tight rank lo hi (rest.foldl (place cmp lo hi) runs) (seen ++ rest) := by
    intro rest
    induction rest with
    | nil =>
      intro seen runs hp ht _ _
      rw [append_nil]
      exact ⟨hp, ht⟩
    | cons x rest ih =>
      intro seen runs hp ht hall hsort
      have hseen : ∀ y ∈ seen, Item P rank lo hi y := fun y hy => hall y (mem_append_left _ hy)
      have hx := hall x (mem_append_right _ mem_cons_self)
      have hbefore : ∀ y ∈ seen, rank (lo y) ≤ rank (lo x) := fun y hy =>
        (pairwise_append.mp hsort).2.2 y hy x mem_cons_self
      have happ : seen ++ x :: rest = (seen ++ [x]) ++ rest := append_cons seen x rest
      rw [happ] at hall hsort ⊢
      exact ih (seen ++ [x]) _ (hp.placed hcmp hseen hx) (ht.placed hcmp hp hseen hx hbefore) hall hsort
  exact hfold xs [] [] ⟨List.Perm.nil, forall_mem_nil _, forall_mem_nil _⟩ (.inl rfl) hxs hsorted

/-- **There are as many runs as items with a common point, at most.** -/
theorem pack_depth (hcmp : Sections.Ranked cmp P rank) {xs : List α} (hxs : ∀ x ∈ xs, Item P rank lo hi x)
    (hsorted : xs.Pairwise fun x y => rank (lo x) ≤ rank (lo y)) :
    (∀ k, xs.countP (covers rank lo hi k) ≤ (pack cmp lo hi xs).length) ∧
      (xs = [] ∨ ∃ x ∈ xs, (pack cmp lo hi xs).length = xs.countP (covers rank lo hi (rank (lo x)))) := by
  obtain ⟨hp, ht⟩ := pack_inv hcmp hxs hsorted
  refine ⟨hp.countP_le, ?_⟩
  obtain hnil | ⟨x, hx, hle⟩ := ht
  · left
    have := hp.perm
    rw [hnil] at this
    exact this.nil_eq.symm
  · exact .inr ⟨x, hx, le_antisymm hle (hp.countP_le _)⟩

end

end RunPacking
