import Paimon.Commit.Retry

/-!
# The conflict base of a retried attempt

`resolve_conflict_base_entries` carries the base of the previous attempt forward by the deltas of the
intervening snapshots, filtered by the partitions of the current attempt.

* `BaseOk`: a carried base: empty on partitions no attempt touched, and the live set on the partitions of the
  last attempt that never left the attempts since they entered (`Steady`);
* `resolveConflictBaseEntries_ok`: one attempt keeps it;
* `incremental_base_eq_scan`: on steady partitions the carried base is a fresh scan.

A partition that an overwrite stops touching is not carried forward.  When it is touched again its
old entries are still in the base: `stale_base_after_reentry`.  The entries of a Direct plan and the
new entries of an overwrite are in every attempt, so their partitions are always steady.
-/

namespace Paimon

open List

/-- the partition is among those of the entries; all of an unpartitioned table is -/
def touches (t : Table) (es : List ManifestEntry) (p : Bytes) : Bool :=
  !t.partitioned || decide (p ∈ es.map ManifestEntry.partition)

/-- counting attempts backwards, `p` is touched by some and then by none -/
def Steady (t : Table) (p : Bytes) (past : List (List ManifestEntry)) : Prop :=
  ∃ a b, past = a ++ b ∧ (∀ es ∈ a, touches t es p = true) ∧ ∀ es ∈ b, touches t es p = false

structure BaseOk (t : Table) (s : Snapshot) (base : List ManifestEntry)
    (past : List (List ManifestEntry)) : Prop where
  keyed : Net.Keyed ManifestEntry.identifier base
  adds : ∀ e ∈ base, e.isAdd = true
  known : ∀ e ∈ base, e ∈ s.entries
  untouched : ∀ i : Identifier, (∀ es ∈ past, touches t es i.partition = false) →
    Net.look ManifestEntry.identifier base i = none
  exact : ∀ (i : Identifier) now rest, past = now :: rest → touches t now i.partition = true →
    Steady t i.partition past → Net.look ManifestEntry.identifier base i = liveAt s i

variable {es base : List ManifestEntry} {t : Table} {s : Snapshot}

theorem look_scan (h : scanChangedPartitionEntries t (some s) es = .ok base) (i : Identifier) :
    Net.look ManifestEntry.identifier base i = if touches t es i.partition then liveAt s i else none := by
  obtain ⟨f, hf, h⟩ := bind_ok h
  obtain ⟨filtered, hfil, h⟩ := bind_ok h
  injection h with h
  rw [← h, filterPartitionOpt_ok hfil, look_mergeActive_filter (acceptsOpt f),
    buildEntriesPartitionFilter_ok hf]
  rfl

theorem scan_keyed (h : scanChangedPartitionEntries t (some s) es = .ok base) :
    Net.Keyed ManifestEntry.identifier base ∧ (∀ e ∈ base, e.isAdd = true) ∧ ∀ e ∈ base, e ∈ s.entries := by
  obtain ⟨f, _, h⟩ := bind_ok h
  obtain ⟨filtered, hfil, h⟩ := bind_ok h
  injection h with h
  rw [← h, mergeActiveEntries_eq]
  refine ⟨Net.keyed_net filtered, fun e he => Net.isAdd_of_mem_net he, fun e he => ?_⟩
  have hmem := Net.mem_of_mem_net he
  rw [filterPartitionOpt_ok hfil] at hmem
  exact (mem_filter.mp hmem).1

theorem BaseOk.of_scan (h : scanChangedPartitionEntries t (some s) es = .ok base)
    (past : List (List ManifestEntry)) : BaseOk t s base (es :: past) where
  keyed := (scan_keyed h).1
  adds := (scan_keyed h).2.1
  known := (scan_keyed h).2.2
  untouched i hi := by
    rw [look_scan h, hi es (by simp)]
    rfl
  exact i now rest he hnow _ := by
    injection he with he _
    rw [look_scan h, he, hnow]
    rfl

variable {plan0 : CommitEntriesPlan} {s latest : Snapshot}

theorem EntriesOf.newly_touched
    {now es : List ManifestEntry} {i : Identifier} (hnow : EntriesOf (some s) plan0 now)
    (hes : EntriesOf (some latest) plan0 es) (h1 : touches t es i.partition = true)
    (h2 : touches t now i.partition = false) : liveAt s i = none := by
  cases plan0 with
  | direct entries cl ix cf =>
    rw [show now = entries from hnow] at h2
    rw [show es = entries from hes, h2] at h1
    exact nomatch h1
  | overwrite f new ix cf cs ce =>
    obtain ⟨existing, rfl, _, hmem⟩ := hes
    obtain ⟨existing', rfl, _, hmem'⟩ := hnow
    simp only [touches, Bool.or_eq_false_iff, Bool.not_eq_false', decide_eq_false_iff_not] at h2
    simp only [touches, h2.1, Bool.not_true, Bool.false_or, decide_eq_true_eq] at h1
    by_contra hlive
    obtain ⟨e, he⟩ := Option.ne_none_iff_exists'.mp hlive
    have hep : e.partition = i.partition :=
      congrArg Identifier.partition (Net.look_some_key he)
    -- the partition is selected by the filter, so the earlier attempt deleted `e`
    have hacc : acceptsOpt f i.partition = true := by
      obtain ⟨x, hx, hxp⟩ := mem_map.mp h1
      rcases mem_append.mp hx with hx | hx
      · obtain ⟨y, hy, rfl⟩ := mem_map.mp hx
        rw [← hxp]
        exact ((hmem y).mp hy).2
      · exact absurd (mem_map.mpr ⟨x, mem_append_right _ hx, hxp⟩) h2.2
    have hex : e ∈ existing' := (hmem' e).mpr ⟨Net.look_some_mem he, by rw [hep]; exact hacc⟩
    refine h2.2 (mem_map.mpr ⟨e.withKind .delete, ?_, hep⟩)
    exact mem_append_left _ (mem_map.mpr ⟨e, hex, rfl⟩)

theorem BaseOk.advance
    {base now es d : List ManifestEntry} {rest : List (List ManifestEntry)}
    (hb : BaseOk t s base (now :: rest)) (hnow : EntriesOf (some s) plan0 now)
    (hes : EntriesOf (some latest) plan0 es) (hent : latest.entries = s.entries ++ d) :
    BaseOk t latest (mergeActiveEntries (base ++ d.filter (fun e => touches t es e.partition)))
      (es :: now :: rest) := by
  have hact : latest.active = applyDelta s.active d := active_of_entries (some s) hent
  have hlook : ∀ i, Net.look ManifestEntry.identifier
      (mergeActiveEntries (base ++ d.filter (fun e => touches t es e.partition))) i
      = if touches t es i.partition
        then Net.look ManifestEntry.identifier (applyDelta base d) i
        else Net.look ManifestEntry.identifier base i := by
    intro i
    have hbase := Net.look_run_adds hb.adds hb.keyed i
    rw [mergeActiveEntries_eq, Net.net_append]
    refine (Net.look_run_filter (fun j : Identifier => touches t es j.partition) _ d i).trans ?_
    rw [hbase]
    by_cases hp : touches t es i.partition
    · rw [if_pos hp, if_pos hp]
      exact Net.look_run_congr d hbase
    · rw [if_neg hp, if_neg hp]
  refine ⟨?_, ?_, ?_, fun i hi => ?_, fun i now' rest' he hto hst => ?_⟩
  · rw [mergeActiveEntries_eq]
    exact Net.keyed_net _
  · intro e he
    rw [mergeActiveEntries_eq] at he
    exact Net.isAdd_of_mem_net he
  · intro e he
    rw [mergeActiveEntries_eq] at he
    rw [hent]
    rcases mem_append.mp (Net.mem_of_mem_net he) with he | he
    · exact mem_append_left _ (hb.known e he)
    · exact mem_append_right _ (mem_filter.mp he).1
  · rw [hlook, hi es (by simp)]
    exact hb.untouched i (fun x hx => hi x (by simp [mem_cons.mp hx]))
  · injection he with he _
    subst he
    rw [hlook, hto, if_pos rfl]
    -- the previous base already agreed with the live set it was taken from
    have hprev : Net.look ManifestEntry.identifier base i = liveAt s i := by
      obtain ⟨a, b, hab, ha, hbf⟩ := hst
      cases a with
      | nil =>
        have : es ∈ b := by rw [nil_append] at hab; simp [← hab]
        rw [hbf es this] at hto
        exact nomatch hto
      | cons x a =>
        rw [cons_append, List.cons.injEq] at hab
        obtain ⟨_, hab⟩ := hab
        cases a with
        | nil =>
          have hall : ∀ x ∈ now :: rest, touches t x i.partition = false := by
            intro x hx
            rw [nil_append] at hab
            exact hbf x (hab ▸ hx)
          rw [hb.untouched i hall, hnow.newly_touched hes hto (hall now (by simp))]
        | cons y a =>
          have hy : now = y := by
            rw [cons_append, List.cons.injEq] at hab
            exact hab.1
          exact hb.exact i now rest rfl (ha now (by simp [hy]))
            ⟨y :: a, b, hab, (forall_mem_cons.mp ha).2, hbf⟩
    rw [liveAt, hact]
    exact Net.look_run_congr d hprev

/-- what is known of a retry state after the attempts `past` of `plan0` -/
def RetryOk (t : Table) (plan0 : CommitEntriesPlan) (h : List Snapshot) (rs : Option RetryState)
    (past : List (List ManifestEntry)) : Prop :=
  ∀ st, rs = some st → ∀ s, st.latestSnapshot = some s → s ∈ h ∧
    ∃ now rest, past = now :: rest ∧ EntriesOf (some s) plan0 now ∧
      ∀ base, st.baseDataFiles = some base → BaseOk t s base past

/-- **One attempt.**  Carried forward or scanned, the base is in order. -/
theorem resolveConflictBaseEntries_ok
    {h h' : List Snapshot} {u : List Int} {latest : Snapshot} {rs : Option RetryState}
    {past : List (List ManifestEntry)} (hl : Linked h')
    (hext : h <+: h') (hlatest : h.getLast? = some latest) (hrs : RetryOk t plan0 h rs past)
    (hes : EntriesOf (some latest) plan0 es)
    (hb : resolveConflictBaseEntries t (reader h' u) (some latest) rs es = .ok base) :
    BaseOk t latest base (es :: past) := by
  unfold resolveConflictBaseEntries at hb
  simp only [] at hb
  split at hb
  · rename_i s prev
    obtain ⟨hs, now, rest, rfl, hnow, hprev⟩ := hrs _ rfl s rfl
    obtain ⟨incremental, hinc, hb⟩ := bind_ok hb
    cases incremental with
    | none => exact .of_scan hb _
    | some d =>
      injection hb with hb
      obtain ⟨f, hf, hinc⟩ := bind_ok hinc
      obtain ⟨b, hbm, hids, hent⟩ := exists_since (hl.mono hext) hs hlatest
      rw [← hids] at hinc
      have hd := incrementalDeltas_ok hl (fun x hx => hext.subset (hbm x hx)) hinc
      have hfil : (fun e : ManifestEntry => acceptsOpt f e.partition)
          = fun e => touches t es e.partition := by
        funext e
        exact buildEntriesPartitionFilter_ok hf e.partition
      rw [← hb, hd, hfil]
      exact (hprev prev rfl).advance hnow hes hent
  · exact .of_scan hb _

section
variable {c : TableCommit} {b : Bool} {plan0 plan : CommitEntriesPlan} {h h' : List Snapshot}
  {rs : Option RetryState} {past : List (List ManifestEntry)} {u : List Int}

theorem Retried.retryOk (hr : Retried c b plan0 h plan rs past) : RetryOk c.table plan0 h rs past := by
  induction hr with
  | start _ _ => exact fun st hst => nomatch hst
  | wait _ hext _ ih =>
    intro st hst s hs
    obtain ⟨hm, hrest⟩ := ih st hst s hs
    exact ⟨hext.subset hm, hrest⟩
  | @attempt h h' u plan plan' rs r past hprev hext hl ha ih =>
    intro st hst s hs
    cases hst
    have hacc := resolveCommit_ok ha
    have hes := hprev.entriesOf hext hl hacc.entries
    have hlatest : h.getLast? = some s := hs
    rw [hlatest] at hes hacc
    refine ⟨hext.subset (mem_of_getLast? hlatest), r.entries, past, rfl, hes, fun base hb => ?_⟩
    exact resolveConflictBaseEntries_ok hl hext hlatest ih hes (hacc.detected base hb).1

/-- **The incremental conflict base is a fresh scan** on the partitions of the attempt, as long as
none of them left the attempts of the plan and came back. -/
theorem incremental_base_eq_scan {plan' : CommitEntriesPlan} {es base fresh : List ManifestEntry}
    (hr : Retried c b plan0 h plan rs past) (hext : h <+: h') (hl : Linked h')
    (ha : attemptEntries (reader h' u) h.getLast? plan = .ok (es, plan'))
    (hst : ∀ p, touches c.table es p = true → Steady c.table p (es :: past))
    (hb : resolveConflictBaseEntries c.table (reader h' u) h.getLast? rs es = .ok base)
    (hf : scanChangedPartitionEntries c.table h.getLast? es = .ok fresh) :
    ∀ e, touches c.table es e.partition = true → (e ∈ base ↔ e ∈ fresh) := by
  intro e he
  have hes := hr.entriesOf hext hl ha
  cases hlatest : h.getLast? with
  | none =>
    rw [hlatest] at hb hf
    obtain ⟨f, _, hf⟩ := bind_ok hf
    injection hb with hb
    injection hf with hf
    rw [← hb, ← hf]
  | some s =>
    rw [hlatest] at hb hf hes
    have hbase := resolveConflictBaseEntries_ok hl hext hlatest hr.retryOk hes hb
    rw [Net.mem_iff_look hbase.keyed, Net.mem_iff_look (scan_keyed hf).1, look_scan hf,
      hbase.exact e.identifier es past rfl he (hst e.partition he)]
    rw [show e.identifier.partition = e.partition from rfl, he, if_pos rfl]

end

/-! ## a partition that leaves and comes back -/

def truncateBoth (cs : Option Snapshot) (ce : List ManifestEntry) : CommitEntriesPlan :=
  .overwrite (some (.partitionSet [[1], [2]])) [] [] none cs ce

def bothSnapshot : Snapshot :=
  otherSnapshot 1 .append [] [partitionFile .add 1 "f", partitionFile .add 2 "g"]

def appendFirst : Snapshot :=
  otherSnapshot 2 .append [bothSnapshot.deltaEntries] [partitionFile .add 1 "f2"]

def dropFirst : Snapshot :=
  otherSnapshot 2 .overwrite [bothSnapshot.deltaEntries] [partitionFile .delete 1 "f"]

def refillFirst : Snapshot :=
  otherSnapshot 3 .append [bothSnapshot.deltaEntries, dropFirst.deltaEntries]
    [partitionFile .add 1 "f2"]

theorem truncateBoth_once : Retried partitionedCommit false (truncateBoth none []) [bothSnapshot]
    (truncateBoth (some bothSnapshot) [partitionFile .add 1 "f", partitionFile .add 2 "g"])
    (some ⟨some bothSnapshot, some [partitionFile .add 1 "f", partitionFile .add 2 "g"]⟩)
    [[partitionFile .delete 1 "f", partitionFile .delete 2 "g"]] := by
  have hl : Linked [bothSnapshot] := isChain_singleton _
  have start : Retried partitionedCommit false (truncateBoth none []) [bothSnapshot]
      (truncateBoth none []) none [] := .start hl rfl
  exact .attempt (u := []) start (prefix_refl _) hl rfl

/-- both partitions stay: the base carried over from `bothSnapshot` is the scanned one -/
theorem incremental_base_eq_scan_append : ∃ es base fresh,
    es = [partitionFile .delete 1 "f", partitionFile .delete 2 "g", partitionFile .delete 1 "f2"] ∧
    resolveConflictBaseEntries partitionedCommit.table (reader [bothSnapshot, appendFirst] [])
      (some appendFirst) (some ⟨some bothSnapshot,
        some [partitionFile .add 1 "f", partitionFile .add 2 "g"]⟩) es = .ok base ∧
    scanChangedPartitionEntries partitionedCommit.table (some appendFirst) es = .ok fresh ∧
    ∀ e : ManifestEntry, touches partitionedCommit.table es e.partition = true → (e ∈ base ↔ e ∈ fresh) := by
  have hl : Linked [bothSnapshot, appendFirst] := isChain_pair.mpr ⟨rfl, rfl⟩
  refine ⟨_, _, _, rfl, rfl, rfl, incremental_base_eq_scan (u := [])
    (.wait truncateBoth_once ⟨[appendFirst], rfl⟩ hl) (prefix_refl _) hl rfl ?_ rfl rfl⟩
  intro p hp
  have hp' : p = [1] ∨ p = [2] := by
    simp only [touches, partitionedCommit, partitionFile] at hp
    simp at hp
    tauto
  rcases hp' with rfl | rfl
  · exact ⟨_, [], (append_nil _).symm, by decide, by simp⟩
  · exact ⟨_, [], (append_nil _).symm, by decide, by simp⟩

/-- Partition 1 is emptied by another writer, the second attempt touches partition 2 only, then
partition 1 is written again: the third attempt still has the file dropped in between in its base. -/
theorem stale_base_after_reentry : ∃ plan rs past plan' es base fresh,
    Retried partitionedCommit false (truncateBoth none []) [bothSnapshot, dropFirst, refillFirst]
      plan rs past ∧
    attemptEntries (reader [bothSnapshot, dropFirst, refillFirst] []) (some refillFirst) plan
      = .ok (es, plan') ∧
    resolveConflictBaseEntries partitionedCommit.table
      (reader [bothSnapshot, dropFirst, refillFirst] []) (some refillFirst) rs es = .ok base ∧
    scanChangedPartitionEntries partitionedCommit.table (some refillFirst) es = .ok fresh ∧
    touches partitionedCommit.table es (partitionFile .add 1 "f").partition = true ∧
    partitionFile .add 1 "f" ∈ base ∧ partitionFile .add 1 "f" ∉ fresh := by
  have hl2 : Linked [bothSnapshot, dropFirst] := isChain_pair.mpr ⟨rfl, rfl⟩
  have hl3 : Linked [bothSnapshot, dropFirst, refillFirst] :=
    isChain_cons_cons.mpr ⟨⟨rfl, rfl⟩, isChain_pair.mpr ⟨rfl, rfl⟩⟩
  have waited := Retried.wait truncateBoth_once ⟨[dropFirst], rfl⟩ hl2
  have twice : Retried partitionedCommit false (truncateBoth none []) [bothSnapshot, dropFirst]
      (truncateBoth (some dropFirst) [partitionFile .add 2 "g"])
      (some ⟨some dropFirst, some [partitionFile .add 1 "f", partitionFile .add 2 "g"]⟩)
      [[partitionFile .delete 2 "g"], [partitionFile .delete 1 "f", partitionFile .delete 2 "g"]] :=
    .attempt (u := []) waited (prefix_refl _) hl2 rfl
  exact ⟨_, _, _, _, _, _, _, .wait twice ⟨[refillFirst], rfl⟩ hl3, rfl, rfl, rfl, by decide,
    by decide, by decide⟩

end Paimon
