import Mathlib

/-!
# The last of the greatest

Going through a list and keeping an element whenever its rank is not below the kept one leaves the
last of the elements of greatest rank; elements without a rank are passed over.  The result of a
list that was cut into pieces can be read off one summary per piece (`latest_summaries`): keeping the
latest is associative.
-/

set_option linter.unusedSectionVars false

namespace Latest

open List

variable {α β : Type} [LinearOrder β] (rank : α → Option β)

/-- keep `r` unless it is unranked or below the kept element -/
def step (kept : Option α) (r : α) : Option α :=
  match rank r with
  | none => kept
  | some k =>
    match kept.bind rank with
    | none => some r
    | some c => if c ≤ k then some r else kept

def latest (l : List α) : Option α := l.foldl (step rank) none

def Ranked (kept : Option α) : Prop := ∀ c, kept = some c → ∃ k, rank c = some k

/-- the second of two kept elements, offered to the first -/
def join (kept later : Option α) : Option α :=
  match later with
  | none => kept
  | some w => step rank kept w

/-- an element stands for a list: unranked as the list has nothing to keep, or ranked as what the
list keeps, and related to it -/
def Summary (P : α → α → Prop) (m : α) (l : List α) : Prop :=
  match latest rank l with
  | none => rank m = none
  | some w => rank m = rank w ∧ P m w

def Same (P : α → α → Prop) : Option α → Option α → Prop
  | none, none => True
  | some m, some w => rank m = rank w ∧ P m w
  | _, _ => False

variable {rank}

theorem Ranked.none : Ranked rank (.none : Option α) := fun _ h => (nomatch h)

variable {kept : Option α}

theorem Ranked.step (h : Ranked rank kept) (r : α) : Ranked rank (step rank kept r) := by
  intro c hc
  unfold Latest.step at hc
  split at hc
  · exact h c hc
  · next k hk =>
    split at hc
    · obtain rfl := Option.some.inj hc
      exact ⟨k, hk⟩
    · split at hc
      · obtain rfl := Option.some.inj hc
        exact ⟨k, hk⟩
      · exact h c hc

theorem Ranked.foldl (h : Ranked rank kept) (l : List α) : Ranked rank (l.foldl (Latest.step rank) kept) := by
  induction l generalizing kept with
  | nil => exact h
  | cons r l ih => exact ih (h.step r)

theorem Ranked.latest (l : List α) : Ranked rank (latest rank l) := Ranked.none.foldl l

theorem step_unranked {r : α} (h : rank r = .none) : step rank kept r = kept := by
  unfold step
  rw [h]

theorem step_none {r : α} {k : β} (h : rank r = some k) : step rank .none r = some r := by
  unfold step
  rw [h]
  rfl

theorem step_some {r c : α} {k kc : β} (h : rank r = some k) (hc : rank c = some kc) :
    step rank (some c) r = if kc ≤ k then some r else some c := by
  unfold step
  rw [h, Option.bind_some, hc]

theorem step_join {kept later : Option α} (hk : Ranked rank kept) (hl : Ranked rank later) (r : α) :
    step rank (join rank kept later) r = join rank kept (step rank later r) := by
  cases hr : rank r with
  | none => rw [step_unranked hr, step_unranked hr]
  | some k =>
    cases later with
    | none =>
      rw [step_none hr]
      rfl
    | some w =>
      obtain ⟨kw, hw⟩ := hl w rfl
      show step rank (step rank kept w) r = join rank kept (step rank (some w) r)
      rw [step_some hr hw]
      cases kept with
      | none =>
        rw [step_none hw, step_some hr hw]
        split
        · exact (step_none hr).symm
        · exact (step_none hw).symm
      | some c =>
        obtain ⟨kc, hc⟩ := hk c rfl
        rw [step_some hw hc]
        by_cases h₁ : kc ≤ kw <;> by_cases h₂ : kw ≤ k
        · rw [if_pos h₁, if_pos h₂, step_some hr hw, if_pos h₂]
          show _ = step rank (some c) r
          rw [step_some hr hc, if_pos (h₁.trans h₂)]
        · rw [if_pos h₁, if_neg h₂, step_some hr hw, if_neg h₂]
          show _ = step rank (some c) w
          rw [step_some hw hc, if_pos h₁]
        · rw [if_neg h₁, if_pos h₂]
          rfl
        · -- both are below `c`
          rw [if_neg h₁, if_neg h₂, step_some hr hc]
          show _ = step rank (some c) w
          rw [step_some hw hc, if_neg h₁, if_neg fun h => h₁ (h.trans (not_le.mp h₂).le)]

theorem latest_concat (l : List α) (r : α) : latest rank (l ++ [r]) = step rank (latest rank l) r := by
  unfold latest
  rw [foldl_append]
  rfl

theorem foldl_eq_join (hk : Ranked rank kept) (l : List α) :
    l.foldl (step rank) kept = join rank kept (latest rank l) := by
  induction l using List.reverseRecOn with
  | nil => rfl
  | append_singleton l r ih =>
    rw [foldl_append, foldl_cons, foldl_nil, ih, latest_concat, step_join hk (Ranked.latest l)]

variable {P : α → α → Prop} {l : List α}

theorem Same.step {kept kept' : Option α} (h : Same rank P kept kept')
    (hk : Ranked rank kept') {m : α} (hm : Summary rank P m l) :
    Same rank P (step rank kept m) (join rank kept' (latest rank l)) := by
  unfold Summary at hm
  cases hl : latest rank l with
  | none =>
    rw [hl] at hm
    rw [step_unranked hm]
    exact h
  | some w =>
    rw [hl] at hm
    obtain ⟨hrank, hP⟩ := hm
    obtain ⟨k, hw⟩ := Ranked.latest l w hl
    have hmk := hrank.trans hw
    show Same rank P (Latest.step rank kept m) (Latest.step rank kept' w)
    cases kept' with
    | none =>
      cases kept with
      | none =>
        rw [step_none hmk, step_none hw]
        exact ⟨hrank, hP⟩
      | some c => exact h.elim
    | some c' =>
      cases kept with
      | none => exact h.elim
      | some c =>
        obtain ⟨kc, hc'⟩ := hk c' rfl
        have hc := h.1.trans hc'
        rw [step_some hmk hc, step_some hw hc']
        split
        · exact ⟨hrank, hP⟩
        · exact h

theorem latest_isSome {r : α} (hr : r ∈ l) {k : β} (hk : rank r = some k) : ∃ w, latest rank l = some w := by
  induction l using List.reverseRecOn with
  | nil => exact absurd hr not_mem_nil
  | append_singleton l x ih =>
    rw [latest_concat]
    cases hx : rank x with
    | none =>
      rw [step_unranked hx]
      rcases mem_append.mp hr with hr | hr
      · exact ih hr
      · rw [mem_singleton.mp hr, hx] at hk
        exact nomatch hk
    | some kx =>
      cases hl : latest rank l with
      | none => exact ⟨x, step_none hx⟩
      | some c =>
        obtain ⟨kc, hc⟩ := Ranked.latest l c hl
        rw [step_some hx hc]
        split
        · exact ⟨x, rfl⟩
        · exact ⟨c, rfl⟩

/-- **What is kept is the last of the greatest**: nothing before it has a greater rank, nothing behind
it as great a rank. -/
theorem latest_split : ∀ {w : α}, latest rank l = some w →
    ∃ pre post k, l = pre ++ w :: post ∧ rank w = some k ∧ (∀ x ∈ pre, ∀ k', rank x = some k' → k' ≤ k) ∧
      ∀ x ∈ post, ∀ k', rank x = some k' → k' < k := by
  induction l using List.reverseRecOn with
  | nil => exact fun h => (nomatch h)
  | append_singleton l r ih =>
    intro w h
    rw [latest_concat] at h
    cases hr : rank r with
    | none =>
      rw [step_unranked hr] at h
      obtain ⟨pre, post, k, rfl, hw, hpre, hpost⟩ := ih h
      refine ⟨pre, post ++ [r], k, by simp, hw, hpre, fun x hx k' hk' => ?_⟩
      rcases mem_append.mp hx with hx | hx
      · exact hpost x hx k' hk'
      · rw [mem_singleton.mp hx, hr] at hk'
        cases hk'
    | some k =>
      cases hl : latest rank l with
      | none =>
        rw [hl, step_none hr] at h
        cases h
        refine ⟨l, [], k, rfl, hr, fun x hx k' hk' => ?_, forall_mem_nil _⟩
        obtain ⟨c, hc⟩ := latest_isSome hx hk'
        rw [hl] at hc
        cases hc
      | some c =>
        obtain ⟨pre, post, kc, rfl, hc, hpre, hpost⟩ := ih hl
        rw [hl, step_some hr hc] at h
        split at h
        · next hle =>
          cases h
          refine ⟨pre ++ c :: post, [], k, rfl, hr, fun x hx k' hk' => ?_, forall_mem_nil _⟩
          rcases mem_append.mp hx with hx | hx
          · exact (hpre x hx k' hk').trans hle
          · rcases mem_cons.mp hx with rfl | hx
            · exact (Option.some_inj.mp (hk'.symm.trans hc)).le.trans hle
            · exact (hpost x hx k' hk').le.trans hle
        · next hgt =>
          cases h
          refine ⟨pre, post ++ [r], kc, by simp, hc, hpre, fun x hx k' hk' => ?_⟩
          rcases mem_append.mp hx with hx | hx
          · exact hpost x hx k' hk'
          · rw [mem_singleton.mp hx, hr] at hk'
            cases hk'
            exact not_le.mp hgt

theorem latest_mem {w : α} (h : latest rank l = some w) : w ∈ l := by
  obtain ⟨pre, post, -, rfl, -⟩ := latest_split h
  simp

theorem step_map {γ : Type} (f : γ → α) (kept : Option γ) (r : γ) :
    step rank (kept.map f) (f r) = (step (fun x => rank (f x)) kept r).map f := by
  unfold step
  beta_reduce
  cases rank (f r) with
  | none => rfl
  | some k =>
    cases kept with
    | none => rfl
    | some c =>
      dsimp only [Option.map_some, Option.bind_some]
      cases rank (f c) with
      | none => rfl
      | some kc => exact (apply_ite (Option.map f) (kc ≤ k) (some r) (some c)).symm

theorem latest_map {γ : Type} (f : γ → α) (l : List γ) :
    latest rank (l.map f) = (latest (fun x => rank (f x)) l).map f := by
  induction l using List.reverseRecOn with
  | nil => rfl
  | append_singleton l r ih => rw [map_append, map_singleton, latest_concat, latest_concat, ih, step_map]

theorem Summary.singleton {r : α} (h : ∀ r, P r r) : Summary rank P r [r] := by
  unfold Summary latest
  rw [foldl_cons, foldl_nil]
  cases hr : rank r with
  | none => rw [step_unranked hr]
  | some k =>
    rw [step_none hr]
    exact ⟨hr.symm, h r⟩

/-- **Pieces may be summarised.** -/
theorem latest_summaries {ms : List α} {ls : List (List α)} (h : List.Forall₂ (Summary rank P) ms ls) :
    Same rank P (latest rank ms) (latest rank ls.flatten) := by
  have hgen : ∀ {kept kept' : Option α}, Same rank P kept kept' → Ranked rank kept' →
      Same rank P (ms.foldl (step rank) kept) (ls.flatten.foldl (step rank) kept') := by
    induction h with
    | nil => exact fun hs _ => hs
    | @cons m l ms ls hm _ ih =>
      intro kept kept' hs hk
      rw [flatten_cons, foldl_append, foldl_eq_join hk l, foldl_cons]
      refine ih (hs.step hk hm) ?_
      rw [← foldl_eq_join hk l]
      exact hk.foldl l
  exact hgen trivial Ranked.none

end Latest
