import Mathlib

/-!
# Maps that remember insertion order

* `IndexMap`: key-value pairs in insertion order, each key once;
* `IndexMap.same`: equality of maps: the order does not count;
* `same_keys`: equal maps have the same keys.
-/

set_option linter.unusedSectionVars false

structure IndexMap (κ ν : Type) where
  entries : List (κ × ν)
  nodup : (entries.map Prod.fst).Nodup
deriving DecidableEq, Repr

namespace IndexMap
variable {κ ν : Type}

def keys (m : IndexMap κ ν) : List κ := m.entries.map Prod.fst

variable [DecidableEq κ] [DecidableEq ν]

def same (a b : IndexMap κ ν) : Bool :=
  a.entries.length == b.entries.length &&
    a.entries.all (fun kv => b.entries.lookup kv.1 == some kv.2)

theorem mem_keys_of_lookup {l : List (κ × ν)} {k : κ} {v : ν} (h : l.lookup k = some v) :
    k ∈ l.map Prod.fst := by
  induction l with
  | nil => exact nomatch h
  | cons x l ih =>
    rw [List.lookup_cons] at h
    by_cases hk : k = x.1
    · simp [hk]
    · have hb : (k == x.1) = false := by simpa using hk
      rw [hb] at h
      exact List.mem_cons_of_mem _ (ih h)

theorem same_keys {a b : IndexMap κ ν} (h : a.same b = true) (k : κ) : k ∈ a.keys ↔ k ∈ b.keys := by
  simp only [same, Bool.and_eq_true, beq_iff_eq, List.all_eq_true] at h
  have hsub : a.keys ⊆ b.keys := by
    intro j hj
    obtain ⟨kv, hkv, rfl⟩ := List.mem_map.mp hj
    exact mem_keys_of_lookup (h.2 kv hkv)
  have hlen : b.keys.length ≤ a.keys.length := by simp [keys, h.1]
  have hperm := (List.subperm_of_subset a.nodup hsub).perm_of_length_le hlen
  exact hperm.mem_iff

end IndexMap
