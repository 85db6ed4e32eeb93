import Mathlib

/-!
# How many keys of a map carry a value

Counters kept beside a hash map (one per value, updated on every insertion) are right when each
equals the census of its value.

* `AList.census m P`: the number of keys of `m` whose value satisfies `P`;
* `census_insert_new`, `_old`: what an insertion under a fresh, and under a present, key does;
* `lookup_collect`: a map collected from entries with distinct keys;
* `lookup_eraseAll`: a map with the keys of a list removed.
-/

namespace AList

open List

variable {κ ν : Type}

/-- the number of keys whose value satisfies `P` -/
def census (m : AList fun _ : κ => ν) (P : ν → Bool) : Nat := m.entries.countP fun e => P e.2

@[simp] theorem census_empty (P : ν → Bool) : census (∅ : AList fun _ : κ => ν) P = 0 := rfl

variable [DecidableEq κ] {m : AList fun _ : κ => ν}

theorem census_insert_new {k : κ} (h : m.lookup k = none) (v : ν)
    (P : ν → Bool) : (m.insert k v).census P = m.census P + (P v).toNat := by
  unfold census
  rw [entries_insert_of_notMem (lookup_eq_none.mp h), countP_cons]
  cases P v <;> rfl

variable {l : List (Sigma fun _ : κ => ν)}

theorem countP_kerase {k : κ} {v : ν} (h : l.dlookup k = some v) (P : ν → Bool) :
    (l.kerase k).countP (fun e => P e.2) + (P v).toNat = l.countP fun e => P e.2 := by
  induction l with
  | nil => exact nomatch h
  | cons x l ih =>
    obtain ⟨a, w⟩ := x
    by_cases hk : k = a
    · subst hk
      rw [dlookup_cons_eq, Option.some_inj] at h
      rw [kerase_cons_eq (show k = (⟨k, w⟩ : Sigma fun _ : κ => ν).1 from rfl), countP_cons, h]
      cases P v <;> rfl
    · rw [dlookup_cons_ne _ _ hk] at h
      rw [kerase_cons_ne hk, countP_cons, countP_cons, ← ih h]
      omega

theorem census_insert_old {k : κ} {v : ν} (h : m.lookup k = some v) (w : ν) (P : ν → Bool) :
    (m.insert k w).census P + (P v).toNat = m.census P + (P w).toNat := by
  unfold census
  rw [entries_insert, countP_cons, ← countP_kerase h P]
  cases P w
  · simp
  · simp; omega

theorem census_eq_zero {P : ν → Bool} (h : ∀ k v, m.lookup k = some v → P v = false) : m.census P = 0 := by
  unfold census
  rw [countP_eq_zero]
  intro e he
  simpa using h e.1 e.2 (mem_lookup_iff.mpr he)

theorem lookup_collect {μ : Type} (f : ν → μ) (nd : l.NodupKeys) (acc : AList fun _ : κ => μ) (k : κ) :
    (l.foldl (fun m e => m.insert e.1 (f e.2)) acc).lookup k = ((l.dlookup k).map f).or (acc.lookup k) := by
  induction l generalizing acc with
  | nil => rfl
  | cons x l ih =>
    obtain ⟨a, v⟩ := x
    obtain ⟨ha, nd⟩ := nodupKeys_cons.mp nd
    rw [foldl_cons, ih nd]
    by_cases hk : k = a
    · subst hk
      rw [dlookup_eq_none.mpr ha, dlookup_cons_eq]
      simp [lookup_insert]
    · rw [dlookup_cons_ne l ⟨a, v⟩ hk, lookup_insert_ne hk]

theorem dlookup_filter (hnd : l.NodupKeys) (P : ν → Bool)
    (k : κ) : (l.filter fun e => P e.2).dlookup k = (l.dlookup k).filter P := by
  induction l with
  | nil => rfl
  | cons x l ih =>
    obtain ⟨a, v⟩ := x
    obtain ⟨ha, nd⟩ := nodupKeys_cons.mp hnd
    by_cases hk : k = a
    · subst hk
      rw [dlookup_cons_eq]
      cases hv : P v with
      | true =>
        rw [filter_cons_of_pos (by simpa using hv), dlookup_cons_eq]
        simp [Option.filter, hv]
      | false =>
        rw [filter_cons_of_neg (by simp [hv]), ih nd, dlookup_eq_none.mpr ha]
        simp [Option.filter, hv]
    · have hcons : ∀ l' : List (Sigma fun _ : κ => ν), List.dlookup k (⟨a, v⟩ :: l') = List.dlookup k l' :=
        fun l' => dlookup_cons_ne l' ⟨a, v⟩ hk
      rw [hcons, ← ih nd]
      cases hv : P v with
      | true => rw [filter_cons_of_pos (by simpa using hv), hcons]
      | false => rw [filter_cons_of_neg (by simp [hv])]

theorem lookup_eraseAll (l : List κ) (m : AList fun _ : κ => ν) (k : κ) :
    (l.foldl (fun m b => m.erase b) m).lookup k = if k ∈ l then none else m.lookup k := by
  induction l generalizing m with
  | nil => simp
  | cons a l ih =>
    rw [foldl_cons, ih]
    by_cases hk : k = a
    · subst hk
      simp
    · simp [hk, lookup_erase_ne hk]

end AList
