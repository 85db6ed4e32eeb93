import Mathlib

/-!
# Grouping a list by a key

The rows of `all` with one key, in the order of `all`, are the group of that key; `keyGroups` lists
the groups by ascending key.  `keyGroups_perm` says that the groups partition the list, and
`keyGroups_min` peels off the group of the least key, which is what a merge of sorted inputs does one
key at a time.  For one sorted input the group of its least key is an initial segment
(`filter_eq_takeWhile`, `filter_ne_eq_dropWhile`), and its runs of equal keys are the groups
(`runs_group`).
-/

namespace KeyGroups

open List

variable {ρ κ : Type*} [LinearOrder κ] (key : ρ → κ)

def distinctKeys (all : List ρ) : List κ := (all.map key).toFinset.sort (· ≤ ·)

def group (all : List ρ) (k : κ) : List ρ := all.filter fun r => key r = k

def others (all : List ρ) (k : κ) : List ρ := all.filter fun r => !decide (key r = k)

def keyGroups (all : List ρ) : List (κ × List ρ) :=
  (distinctKeys key all).map fun k => (k, group key all k)

variable {key} {all : List ρ}

theorem mem_distinctKeys {k : κ} : k ∈ distinctKeys key all ↔ ∃ r ∈ all, key r = k := by
  simp [distinctKeys]

theorem distinctKeys_sorted (all : List ρ) : (distinctKeys key all).Pairwise (· < ·) :=
  Finset.sortedLT_sort _ |>.pairwise

theorem keyGroups_keys (all : List ρ) : (keyGroups key all).map Prod.fst = distinctKeys key all := by
  rw [keyGroups, map_map]
  exact map_id _

theorem mem_group {k : κ} {r : ρ} : r ∈ group key all k ↔ r ∈ all ∧ key r = k := by
  simp [group]

theorem group_others {k k' : κ} (h : k' ≠ k) : group key (others key all k) k' = group key all k' := by
  unfold group others
  rw [filter_filter]
  refine filter_congr fun r _ => ?_
  by_cases hr : key r = k'
  · simp [hr, h]
  · simp [hr]

theorem distinctKeys_min {m : κ} (hm : ∃ r ∈ all, key r = m) (hle : ∀ r ∈ all, m ≤ key r) :
    distinctKeys key all = m :: distinctKeys key (others key all m) := by
  have hset : (all.map key).toFinset = insert m ((others key all m).map key).toFinset := by
    ext k
    simp only [others, mem_toFinset, mem_map, Finset.mem_insert, mem_filter,
      Bool.not_eq_true', decide_eq_false_iff_not]
    constructor
    · rintro ⟨r, hr, rfl⟩
      by_cases h : key r = m
      · exact .inl h
      · exact .inr ⟨r, ⟨hr, h⟩, rfl⟩
    · rintro (rfl | ⟨r, ⟨hr, _⟩, rfl⟩)
      · exact hm
      · exact ⟨r, hr, rfl⟩
  unfold distinctKeys
  rw [hset]
  refine Finset.sort_insert _ (fun k hk => ?_) (fun hk => ?_)
  · obtain ⟨r, hr, rfl⟩ := mem_map.mp (mem_toFinset.mp hk)
    exact hle r (mem_of_mem_filter hr)
  · obtain ⟨r, hr, hrm⟩ := mem_map.mp (mem_toFinset.mp hk)
    have := (mem_filter.mp hr).2
    simp [hrm] at this

theorem keyGroups_min {m : κ} (hm : ∃ r ∈ all, key r = m) (hle : ∀ r ∈ all, m ≤ key r) :
    keyGroups key all = (m, group key all m) :: keyGroups key (others key all m) := by
  have hs : (distinctKeys key all).Pairwise (· < ·) := distinctKeys_sorted all
  unfold keyGroups
  rw [distinctKeys_min hm hle] at hs ⊢
  rw [map_cons]
  congr 1
  refine map_congr_left fun k hk => ?_
  rw [group_others (ne_of_gt ((pairwise_cons.mp hs).1 k hk))]

theorem keyGroups_nil : keyGroups key ([] : List ρ) = [] := by simp [keyGroups, distinctKeys]

/-- **The groups partition the rows**: no row is left out and none is in two groups. -/
theorem keyGroups_perm (all : List ρ) : ((keyGroups key all).flatMap Prod.snd).Perm all := by
  have hsplit : ∀ (ks : List κ), ks.Nodup → ∀ rows : List ρ, (∀ r ∈ rows, key r ∈ ks) →
      (ks.flatMap fun k => group key rows k).Perm rows := by
    intro ks
    induction ks with
    | nil =>
      intro _ rows h
      cases rows with
      | nil => rfl
      | cons r rows => exact absurd (h r mem_cons_self) not_mem_nil
    | cons k ks ih =>
      intro hnd rows h
      obtain ⟨hk, hnd⟩ := nodup_cons.mp hnd
      have hrest : (ks.flatMap fun k' => group key rows k') =
          ks.flatMap fun k' => group key (others key rows k) k' := by
        refine flatMap_congr fun k' hk' => ?_
        have hne : k' ≠ k := fun he => hk (by rw [← he]; exact hk')
        rw [group_others hne]
      rw [flatMap_cons, hrest]
      refine ((ih hnd (others key rows k) fun r hr => ?_).append_left _).trans ?_
      · obtain ⟨hr, hne⟩ := mem_filter.mp hr
        rcases mem_cons.mp (h r hr) with he | hm
        · simp [he] at hne
        · exact hm
      · have := filter_append_perm (fun r => decide (key r = k)) rows
        simpa [group, others] using this
  have := hsplit (distinctKeys key all) (distinctKeys_sorted all).nodup all
    fun r hr => mem_distinctKeys.mpr ⟨r, hr, rfl⟩
  rwa [keyGroups, flatMap_map]

/-! ## one sorted input -/

theorem filter_eq_takeWhile {l : List ρ} {m : κ} (hs : (l.map key).Pairwise (· ≤ ·))
    (hle : ∀ r ∈ l, m ≤ key r) :
    l.filter (fun r => key r = m) = l.takeWhile (fun r => key r = m) ∧
      l.filter (fun r => !decide (key r = m)) = l.dropWhile (fun r => key r = m) := by
  induction l with
  | nil => exact ⟨rfl, rfl⟩
  | cons r l ih =>
    obtain ⟨hr, hs'⟩ := pairwise_cons.mp hs
    obtain ⟨ih1, ih2⟩ := ih hs' (forall_mem_cons.mp hle).2
    by_cases h : key r = m
    · simp [h, ih1, ih2]
    · -- past the least key every later key is larger
      have hlt : m < key r := lt_of_le_of_ne (hle r mem_cons_self) (Ne.symm h)
      have hall : ∀ r' ∈ l, key r' ≠ m := fun r' h' he =>
        absurd (hr (key r') (mem_map_of_mem h')) (not_le.mpr (he ▸ hlt))
      have h1 : l.filter (fun r => key r = m) = [] := by
        simpa [filter_eq_nil_iff] using hall
      have h2 : l.filter (fun r => !decide (key r = m)) = l := by
        simpa [filter_eq_self] using hall
      simp [h, h1, h2]

/-- the maximal runs of neighbours with one key -/
def runs (key : ρ → κ) : List ρ → List (List ρ)
  | [] => []
  | r :: l =>
    match runs key l with
    | [] => [[r]]
    | [] :: rest => [r] :: rest
    | (b :: g) :: rest => if key r = key b then (r :: b :: g) :: rest else [r] :: (b :: g) :: rest

theorem runs_cons (b : ρ) (l : List ρ) : ∃ g rest, runs key (b :: l) = (b :: g) :: rest := by
  rw [runs]
  split
  · exact ⟨_, _, rfl⟩
  · exact ⟨_, _, rfl⟩
  · split
    · exact ⟨_, _, rfl⟩
    · exact ⟨_, _, rfl⟩

theorem runs_ne_nil {l : List ρ} : ∀ g ∈ runs key l, g ≠ [] := by
  induction l with
  | nil => exact forall_mem_nil _
  | cons r l ih =>
    intro g hg
    rw [runs] at hg
    split at hg
    · rw [mem_singleton.mp hg]
      exact cons_ne_nil _ _
    · next h => exact absurd rfl (ih [] (h ▸ mem_cons_self))
    · next b g' rest h =>
      have hrest : ∀ x ∈ rest, x ≠ [] := fun x hx => ih x (h ▸ mem_cons_of_mem _ hx)
      split at hg
      · rcases mem_cons.mp hg with rfl | hg
        · exact cons_ne_nil _ _
        · exact hrest g hg
      · rcases mem_cons.mp hg with rfl | hg
        · exact cons_ne_nil _ _
        · rcases mem_cons.mp hg with rfl | hg
          · exact cons_ne_nil _ _
          · exact hrest g hg

/-- the runs whose first row has key `k` -/
def runsOf (key : ρ → κ) (l : List ρ) (k : κ) : List (List ρ) :=
  (runs key l).filter fun g => g.head?.any fun r => decide (key r = k)

theorem group_cons (r : ρ) (l : List ρ) (k : κ) :
    group key (r :: l) k = if key r = k then r :: group key l k else group key l k := by
  unfold group
  by_cases h : key r = k <;> simp [h]

/-- **In a sorted list a key has one run, its group.** -/
theorem runs_group {l : List ρ} (hs : (l.map key).Pairwise (· ≤ ·)) (k : κ) :
    runsOf key l k = if group key l k = [] then [] else [group key l k] := by
  induction l with
  | nil => simp [runsOf, runs, group]
  | cons r l ih =>
    obtain ⟨hr, hs'⟩ := pairwise_cons.mp hs
    have ih := ih hs'
    cases l with
    | nil => by_cases h : key r = k <;> simp [runsOf, runs, group, h]
    | cons b l =>
      obtain ⟨g, rest, hruns⟩ : ∃ g rest, runs key (b :: l) = (b :: g) :: rest := runs_cons b l
      have hne : group key (b :: l) (key b) ≠ [] := by simp [group]
      unfold runsOf at ih ⊢
      rw [runs, hruns, group_cons]
      rw [hruns] at ih
      dsimp only
      by_cases hrb : key r = key b
      · rw [if_pos hrb]
        by_cases hk : key b = k
        · subst hk
          rw [if_neg hne, filter_cons_of_pos (by simp)] at ih
          obtain ⟨hg, hrest⟩ := cons_eq_cons.mp ih
          rw [filter_cons_of_pos (by simp [hrb]), hrest, if_pos hrb, if_neg (by simp), ← hg]
        · rw [filter_cons_of_neg (by simp [hk])] at ih
          have hk' : key r ≠ k := hrb ▸ hk
          rw [filter_cons_of_neg (by simp [hk']), if_neg hk', ih]
      · -- the key of `r` does not come back
        rw [if_neg hrb]
        have hlt : ∀ x ∈ b :: l, key r < key x := by
          have hb : key r < key b := lt_of_le_of_ne (hr (key b) mem_cons_self) hrb
          intro x hx
          rcases mem_cons.mp hx with rfl | hx
          · exact hb
          · exact hb.trans_le ((pairwise_cons.mp hs').1 (key x) (mem_map_of_mem hx))
        by_cases hk : key r = k
        · have hnil : group key (b :: l) k = [] := by
            unfold group
            rw [filter_eq_nil_iff]
            intro x hx
            simpa using fun h => (hk ▸ hlt x hx).ne' h
          rw [hnil, if_pos rfl] at ih
          rw [filter_cons_of_pos (by simp [hk]), ih, if_pos hk, hnil, if_neg (by simp)]
        · rw [filter_cons_of_neg (by simp [hk]), ih, if_neg hk]

end KeyGroups
