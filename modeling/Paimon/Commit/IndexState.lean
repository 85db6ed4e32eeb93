import Paimon.Commit.ExactlyOnce
import Paimon.Commit.Published

/-!
# Consistency of the published index manifest

* `Consistent data index`: every data file named by a deletion vector is live, no data file is named by two
  deletion-vector entries, and global indexes of one kind cover disjoint row ranges;
* `mergeIndexEntries_ok`: what the merge of the index manifest guarantees about its result;
* `activeFilesAfter_live`: the file keys the reference check works with are live in the published snapshot;
* `Consistent.publish`: one accepted attempt, and `index_manifest_consistent` every run.

The deletion-vector check looks only at added deletion vectors and at deleted files.  A deletion
vector that is neither added nor names a deleted file was consistent before and still is.
-/

namespace Paimon

open List

/-- two global indexes of one field, type and extra fields share no row -/
def RowsApart (a b : IndexManifestEntry) : Prop :=
  ∀ ma mb, a.indexFile.globalIndexMeta = some ma → b.indexFile.globalIndexMeta = some mb →
    ma.indexFieldId = mb.indexFieldId → a.indexFile.indexType = b.indexFile.indexType →
    ma.extraFieldIds.getD [] = mb.extraFieldIds.getD [] →
    ma.rowRangeEnd < mb.rowRangeStart ∨ mb.rowRangeEnd < ma.rowRangeStart

def FilesApart (a b : IndexManifestEntry) : Prop :=
  isDeletionVectors a = true → isDeletionVectors b = true → ∀ k ∈ dvFiles a, k ∉ dvFiles b

def KeyLive (data : List ManifestEntry) (k : FileKey) : Prop := ∃ d ∈ data, d.fileKey = k

structure Consistent (data : List ManifestEntry) (index : List IndexManifestEntry) : Prop where
  dvLive : ∀ e ∈ index, isDeletionVectors e = true → ∀ k ∈ dvFiles e, KeyLive data k
  dvOnce : index.Pairwise FilesApart
  rowsApart : index.Pairwise RowsApart

theorem Consistent.sublist {data : List ManifestEntry} {a b : List IndexManifestEntry}
    (hc : Consistent data b) (hs : a.Sublist b) : Consistent data a where
  dvLive e he := hc.dvLive e (hs.subset he)
  dvOnce := hc.dvOnce.sublist hs
  rowsApart := hc.rowsApart.sublist hs

theorem consistent_nil (data : List ManifestEntry) : Consistent data [] :=
  ⟨fun _ he => absurd he (by simp), List.Pairwise.nil, List.Pairwise.nil⟩

/-! ## normalization -/

theorem foldl_normalizeStep_sublist (es acc : List IndexManifestEntry) :
    (es.foldl normalizeStep acc).Sublist (acc ++ es) := by
  induction es generalizing acc with
  | nil => simp
  | cons e es ih =>
    have hstep : (normalizeStep acc e).Sublist (acc ++ [e]) := by
      unfold normalizeStep
      cases e.kind with
      | add => exact filter_sublist.append_right [e]
      | delete => exact filter_sublist.trans (sublist_append_left acc [e])
    have h := (ih (normalizeStep acc e)).trans (hstep.append_right es)
    rwa [append_assoc] at h

theorem normalizeIndexEntries_sublist (es : List IndexManifestEntry) :
    (normalizeIndexEntries es).Sublist es := foldl_normalizeStep_sublist es []

theorem foldl_normalizeStep_kind {es acc : List IndexManifestEntry}
    (hacc : ∀ x ∈ acc, x.kind = .add) : ∀ x ∈ es.foldl normalizeStep acc, x.kind = .add := by
  induction es generalizing acc with
  | nil => exact hacc
  | cons e es ih =>
    refine ih (fun x hx => ?_)
    unfold normalizeStep at hx
    cases hk : e.kind with
    | add =>
      simp only [hk, mem_append, mem_filter, mem_singleton] at hx
      rcases hx with hx | rfl
      · exact hacc x hx.1
      · exact hk
    | delete =>
      simp only [hk, mem_filter] at hx
      exact hacc x hx.1

theorem readPrevIndexEntries_some (s : Snapshot) :
    readPrevIndexEntries (some s) = normalizeIndexEntries (s.indexManifest.getD []) := by
  cases h : s.indexManifest <;> simp [readPrevIndexEntries, h, normalizeIndexEntries]

variable {latest : Option Snapshot}

theorem readPrevIndexEntries_kind {e : IndexManifestEntry} (h : e ∈ readPrevIndexEntries latest) :
    e.kind = .add := by
  cases latest with
  | none => exact absurd h (by simp [readPrevIndexEntries])
  | some s =>
    rw [readPrevIndexEntries_some] at h
    exact foldl_normalizeStep_kind (by simp) e h

/-! ## what the merge checks -/

variable {a b : IndexManifestEntry}

theorem globalIndexOverlap_false (ha : a.kind = .add)
    (hb : b.kind = .add) (h : globalIndexOverlap a b = false) : RowsApart a b := by
  intro ma mb hma hmb hfield htype hextra
  simp only [globalIndexOverlap, ha, hb, hma, hmb, hfield, htype, sameExtraFieldIds, hextra,
    beq_self_eq_true, Bool.true_and, rangesOverlap, Bool.and_eq_false_iff,
    decide_eq_false_iff_not] at h
  omega

variable {es : List IndexManifestEntry}

theorem checkOverlapWith_ok {left : IndexManifestEntry}
    (h : checkOverlapWith left es = .ok ()) : ∀ e ∈ es, globalIndexOverlap left e = false := by
  induction es with
  | nil => simp
  | cons x es ih =>
    simp only [checkOverlapWith] at h
    split at h
    · exact nomatch h
    · rename_i hx
      intro e he
      rcases mem_cons.mp he with rfl | he
      · simpa using hx
      · exact ih h e he

theorem validateGlobalIndexOverlap_ok {added retained : List IndexManifestEntry}
    (h : validateGlobalIndexOverlap added retained = .ok ()) :
    ∀ a ∈ retained, ∀ b ∈ added, globalIndexOverlap a b = false := by
  induction retained with
  | nil => simp
  | cons x retained ih =>
    obtain ⟨_, hx, h⟩ := bind_ok h
    exact forall_mem_cons.mpr ⟨checkOverlapWith_ok hx, ih h⟩

theorem validateAddedGlobalIndexOverlap_ok {added : List IndexManifestEntry}
    (h : validateAddedGlobalIndexOverlap added = .ok ()) :
    added.Pairwise (fun a b => globalIndexOverlap a b = false) := by
  induction added with
  | nil => exact List.Pairwise.nil
  | cons x added ih =>
    obtain ⟨_, hx, h⟩ := bind_ok h
    exact pairwise_cons.mpr ⟨checkOverlapWith_ok hx, ih h⟩

theorem insertDvFiles_ok {files fs r : List FileKey} (h : insertDvFiles files fs = .ok r) :
    (∀ k ∈ fs, k ∉ files) ∧ (∀ k, k ∈ r ↔ k ∈ files ∨ k ∈ fs) := by
  induction fs generalizing files with
  | nil =>
    injection h with h
    simp [← h]
  | cons f fs ih =>
    simp only [insertDvFiles] at h
    split at h
    · exact nomatch h
    · rename_i hf
      obtain ⟨h1, h2⟩ := ih h
      refine ⟨?_, ?_⟩
      · intro k hk
        rcases mem_cons.mp hk with rfl | hk
        · exact hf
        · exact fun hm => h1 k hk (mem_cons_of_mem _ hm)
      · intro k
        rw [h2 k]
        simp only [mem_cons]
        tauto

theorem checkDvUnique_ok {names files : List FileKey}
    (h : checkDvUnique names files es = .ok ()) :
    (∀ e ∈ es, ∀ k ∈ dvFiles e, k ∉ files) ∧ es.Pairwise (fun a b => ∀ k ∈ dvFiles a, k ∉ dvFiles b) := by
  induction es generalizing names files with
  | nil => exact ⟨by simp, List.Pairwise.nil⟩
  | cons e es ih =>
    simp only [checkDvUnique] at h
    split at h
    · exact nomatch h
    · obtain ⟨files', hins, h⟩ := bind_ok h
      obtain ⟨hnew, hmem⟩ := insertDvFiles_ok hins
      obtain ⟨ih1, ih2⟩ := ih h
      refine ⟨?_, pairwise_cons.mpr ⟨?_, ih2⟩⟩
      · intro x hx k hk
        rcases mem_cons.mp hx with rfl | hx
        · exact hnew k hk
        · exact fun hf => ih1 x hx k hk ((hmem k).mpr (Or.inl hf))
      · intro x hx k hk hk'
        exact ih1 x hx k hk' ((hmem k).mpr (Or.inr hk))

theorem removeDeleted_sublist {all deletions r : List IndexManifestEntry}
    (h : removeDeleted all deletions = .ok r) : r.Sublist all := by
  induction deletions generalizing all with
  | nil =>
    injection h with h
    rw [h]
  | cons d deletions ih =>
    simp only [removeDeleted] at h
    split at h
    · exact (ih h).trans (eraseIdx_sublist _ _)
    · split at h
      · exact nomatch h
      · exact ih h

variable {previous new all : List IndexManifestEntry}

theorem mergeIndexEntries_ok (h : mergeIndexEntries previous new false = .ok all) : ∃ retained,
      retained.Sublist previous ∧ all = retained ++ new.filter (fun e => e.kind = .add) ∧
      (∀ a ∈ retained, ∀ b ∈ new.filter (fun e => e.kind = .add), globalIndexOverlap a b = false) ∧
      (new.filter (fun e => e.kind = .add)).Pairwise (fun a b => globalIndexOverlap a b = false) ∧
      all.Pairwise FilesApart := by
  obtain ⟨kept, hkept, h⟩ := bind_ok h
  obtain ⟨_, hov, h⟩ := bind_ok h
  obtain ⟨_, hadd, h⟩ := bind_ok h
  obtain ⟨_, hdv, h⟩ := bind_ok h
  injection h with h
  refine ⟨_, filter_sublist.trans (removeDeleted_sublist hkept), h.symm,
    validateGlobalIndexOverlap_ok hov, validateAddedGlobalIndexOverlap_ok hadd, ?_⟩
  have hpair := pairwise_filter.mp (checkDvUnique_ok hdv).2
  rw [h] at hpair
  exact hpair.imp (fun hab ha hb => hab ha hb)

theorem mergeIndexEntries_rowsApart (hk : ∀ e ∈ previous, e.kind = .add) (hp : previous.Pairwise RowsApart)
    (h : mergeIndexEntries previous new false = .ok all) : all.Pairwise RowsApart := by
  obtain ⟨retained, hsub, rfl, hov, hadd, _⟩ := mergeIndexEntries_ok h
  have hnew : ∀ e ∈ new.filter (fun e => e.kind = .add), e.kind = .add := by
    intro e he
    simpa using (mem_filter.mp he).2
  refine pairwise_append.mpr ⟨hp.sublist hsub, ?_, ?_⟩
  · exact hadd.imp_of_mem (fun ha hb => globalIndexOverlap_false (hnew _ ha) (hnew _ hb))
  · intro a ha b hb
    exact globalIndexOverlap_false (hk a (hsub.subset ha)) (hnew b hb) (hov a ha b hb)

/-! ## equality of index entries -/

theorem dvFiles_same (h : a.same b = true) :
    isDeletionVectors a = isDeletionVectors b ∧ ∀ k, k ∈ dvFiles a ↔ k ∈ dvFiles b := by
  simp only [IndexManifestEntry.same, Bool.and_eq_true, beq_iff_eq] at h
  obtain ⟨hstrip, hranges⟩ := h
  have hpart : a.partition = b.partition := congrArg (fun x => x.partition) hstrip
  have hbucket : a.bucket = b.bucket := congrArg (fun x => x.bucket) hstrip
  have htype : a.indexFile.indexType = b.indexFile.indexType :=
    congrArg (fun x => x.indexFile.indexType) hstrip
  refine ⟨by simp [isDeletionVectors, htype], fun k => ?_⟩
  unfold dvFiles
  cases ha : a.indexFile.deletionVectorsRanges with
  | none =>
    cases hb : b.indexFile.deletionVectorsRanges with
    | none => simp
    | some mb => rw [ha, hb] at hranges; exact nomatch hranges
  | some ma =>
    cases hb : b.indexFile.deletionVectorsRanges with
    | none => rw [ha, hb] at hranges; exact nomatch hranges
    | some mb =>
      rw [ha, hb] at hranges
      simp only [mem_map, hpart, hbucket, IndexMap.same_keys hranges]

theorem sameIndexEntries_mem {as bs : List IndexManifestEntry}
    (h : sameIndexEntries as bs = true) {b : IndexManifestEntry} (hb : b ∈ bs) :
    ∃ a ∈ as, a.same b = true := by
  induction as generalizing bs with
  | nil =>
    cases bs with
    | nil => exact absurd hb (by simp)
    | cons x bs => exact nomatch h
  | cons a as ih =>
    cases bs with
    | nil => exact nomatch h
    | cons x bs =>
      simp only [sameIndexEntries, Bool.and_eq_true] at h
      rcases mem_cons.mp hb with rfl | hb
      · exact ⟨a, by simp, h.1⟩
      · obtain ⟨y, hy, hs⟩ := ih h.2 hb
        exact ⟨y, by simp [hy], hs⟩

/-! ## live file keys -/

theorem fileKey_of_identifier {a b : ManifestEntry} (h : a.identifier = b.identifier) :
    a.fileKey = b.fileKey := by
  have hp : a.partition = b.partition := congrArg Identifier.partition h
  have hb : a.bucket = b.bucket := congrArg Identifier.bucket h
  have hn : a.file.fileName = b.file.fileName := congrArg Identifier.fileName h
  rw [ManifestEntry.fileKey, ManifestEntry.fileKey, hp, hb, hn]

variable {keys : List FileKey}

theorem activeFilesAfter_live {live es : List ManifestEntry}
    (h : ∀ k ∈ keys, KeyLive live k) :
    ∀ k ∈ activeFilesAfter keys es, KeyLive (applyDelta live es) k := by
  induction es generalizing keys live with
  | nil => exact h
  | cons e es ih =>
    simp only [activeFilesAfter]
    rw [applyDelta, Net.run_cons]
    cases hk : e.kind with
    | add =>
      refine ih (fun k hkey => ?_)
      have he : Net.step ManifestEntry.identifier ManifestEntry.isAdd live e
          = live.filter (fun x => x.identifier ≠ e.identifier) ++ [e] := by
        rw [Net.step, if_pos (ManifestEntry.isAdd_add hk)]
      rw [he]
      rcases mem_cons.mp hkey with rfl | hkey
      · exact ⟨e, by simp, rfl⟩
      · obtain ⟨d, hd, hdk⟩ := h k hkey
        by_cases hid : d.identifier = e.identifier
        · exact ⟨e, by simp, by rw [← hdk, fileKey_of_identifier hid]⟩
        · exact ⟨d, by simp [hd, hid], hdk⟩
    | delete =>
      refine ih (fun k hkey => ?_)
      have he : Net.step ManifestEntry.identifier ManifestEntry.isAdd live e
          = live.filter (fun x => x.identifier ≠ e.identifier) := by
        rw [Net.step, if_neg (by simp [ManifestEntry.isAdd_delete hk])]
      rw [he]
      obtain ⟨hkey, hne⟩ := mem_filter.mp hkey
      obtain ⟨d, hd, hdk⟩ := h k hkey
      have hid : d.identifier ≠ e.identifier := by
        intro hid
        have := fileKey_of_identifier hid
        rw [hdk] at this
        simp [this] at hne
      exact ⟨d, by simp [hd, hid], hdk⟩

variable {es : List ManifestEntry} {k : FileKey}

theorem mem_activeFilesAfter
    (hk : k ∈ keys) (hno : k ∉ (es.filter (fun e => e.kind = .delete)).map ManifestEntry.fileKey) :
    k ∈ activeFilesAfter keys es := by
  induction es generalizing keys with
  | nil => exact hk
  | cons e es ih =>
    have hrest : k ∉ (es.filter (fun e => e.kind = .delete)).map ManifestEntry.fileKey := by
      intro hm
      refine hno ?_
      rw [filter_cons]
      split
      · exact mem_cons_of_mem _ hm
      · exact hm
    simp only [activeFilesAfter]
    cases hkind : e.kind with
    | add => exact ih (mem_cons_of_mem _ hk) hrest
    | delete =>
      refine ih (mem_filter.mpr ⟨hk, ?_⟩) hrest
      have hne : k ≠ e.fileKey := by
        rintro rfl
        exact hno (mem_map.mpr ⟨e, by simp [hkind], rfl⟩)
      simpa using hne

variable {c : TableCommit} {n : Int}

theorem KeyLive.prepared {es r live : List ManifestEntry} {next : Option Int}
    (hp : prepareEntries c n latest es = .ok (r, next))
    (hlive : Net.Keyed ManifestEntry.identifier live) (h : KeyLive (applyDelta live es) k) :
    KeyLive (applyDelta live r) k := by
  obtain ⟨d, hd, hdk⟩ := h
  have hlook := (Net.mem_iff_look (Net.keyed_run hlive es) d).mp hd
  have heq := look_prepared hp live d.identifier
  rw [hlook] at heq
  cases hr : Net.look ManifestEntry.identifier
      (Net.run ManifestEntry.identifier ManifestEntry.isAdd live r) d.identifier with
  | none => rw [hr] at heq; exact nomatch heq
  | some x =>
    refine ⟨x, Net.look_some_mem hr, ?_⟩
    rw [← hdk]
    exact fileKey_of_identifier (Net.look_some_key hr)

/-! ## one attempt -/

variable {f : Option PartitionFilter}

theorem scanSnapshotEntries_subset {r : List ManifestEntry}
    (h : scanSnapshotEntries latest f = .ok r) : r ⊆ activeAt latest := by
  cases latest with
  | none =>
    injection h with h
    simp [← h]
  | some s => exact fun e he => ((mem_readSnapshotEntries h e).mp he).1

variable {t : Table}

theorem checkDeletionVectorReferences_ok
    {ix merged : List IndexManifestEntry} (h : checkDeletionVectorReferences t latest es ix merged = .ok ()) :
    ∀ k ∈ referencedFiles es ix merged, KeyLive (applyDelta (activeAt latest) es) k := by
  unfold checkDeletionVectorReferences at h
  simp only [] at h
  split at h
  · rename_i hnil
    simp [hnil]
  · obtain ⟨f, _, h⟩ := bind_ok h
    obtain ⟨base, hbase, h⟩ := bind_ok h
    intro k hk
    have hkey := forM_ok h k hk
    split at hkey
    · rename_i hactive
      refine activeFilesAfter_live (fun j hj => ?_) k hactive
      obtain ⟨d, hd, rfl⟩ := mem_map.mp hj
      exact ⟨d, scanSnapshotEntries_subset hbase hd, rfl⟩
    · exact nomatch hkey

theorem dvLive_merged {previous ix merged : List IndexManifestEntry}
    (hprev : ∀ e ∈ previous, isDeletionVectors e = true → ∀ k ∈ dvFiles e,
      KeyLive (activeAt latest) k) (hm : mergeIndexEntries previous ix false = .ok merged)
    (h : checkDeletionVectorReferences t latest es ix merged = .ok ()) :
    ∀ e ∈ merged, isDeletionVectors e = true → ∀ k ∈ dvFiles e,
      KeyLive (applyDelta (activeAt latest) es) k := by
  intro e he hdv k hk
  by_cases href : k ∈ referencedFiles es ix merged
  · exact checkDeletionVectorReferences_ok h k href
  · -- neither added nor naming a deleted file: retained, and live before
    have hnot : ¬ (((ix.filter (fun e => e.kind = .add ∧ isDeletionVectors e)).map
        (fun e => fileKey e.partition e.bucket e.indexFile.fileName)).contains
          (fileKey e.partition e.bucket e.indexFile.fileName) ||
        ((es.filter (fun e => e.kind = .delete)).map ManifestEntry.fileKey).contains k) = true := by
      intro hin
      exact href (mem_flatMap.mpr ⟨e, mem_filter.mpr ⟨he, hdv⟩, mem_filter.mpr ⟨hk, hin⟩⟩)
    simp only [Bool.or_eq_true, contains_iff_mem, not_or] at hnot
    obtain ⟨hnotadd, hnotdel⟩ := hnot
    obtain ⟨retained, hsub, rfl, _⟩ := mergeIndexEntries_ok hm
    rcases mem_append.mp he with he | he
    · have hlive := hprev e (hsub.subset he) hdv k hk
      have hone : ∀ j ∈ [k], KeyLive (activeAt latest) j := by simpa using hlive
      exact activeFilesAfter_live hone k (mem_activeFilesAfter (by simp) hnotdel)
    · obtain ⟨he, hadd⟩ := mem_filter.mp he
      refine absurd (mem_map.mpr ⟨e, mem_filter.mpr ⟨he, ?_⟩, rfl⟩) hnotadd
      simpa [hdv] using hadd

theorem retainedIndexEntries_sublist
    {es r : List IndexManifestEntry} (h : retainedIndexEntries f es = .ok r) : r.Sublist es := by
  induction es generalizing r with
  | nil =>
    injection h with h
    rw [h]
  | cons e es ih =>
    cases f with
    | none =>
      injection h with h
      rw [← h]
      exact nil_sublist _
    | some g =>
      obtain ⟨dropped, _, h⟩ := bind_ok h
      obtain ⟨rest, hrest, h⟩ := bind_ok h
      injection h with h
      rw [← h]
      split
      · exact (ih hrest).cons e
      · exact (ih hrest).cons_cons e

variable {plan plan' : CommitEntriesPlan} {rs : Option RetryState} {r : ResolvedCommit} {read : Reader}

theorem resolveCommit_index
    {b : Bool}
    (h : resolveCommit c read plan latest rs b = .ok (plan', r)) : ∃ old ix all,
      old.Sublist (readPrevIndexEntries latest) ∧ mergeIndexEntries old ix false = .ok all ∧
      checkDeletionVectorReferences c.table latest r.entries ix all = .ok () ∧
      r = withIndex latest (readPrevIndexEntries latest) all r.entries r.changelogEntries r.kind
        r.baseDataFiles := by
  cases plan with
  | direct es cl ix cf =>
    obtain ⟨r', hr, h⟩ := bind_ok h
    cases h
    obtain ⟨base, updates, all, _, _, _, hall, hdv, rfl⟩ := resolveDirect_ok hr
    exact ⟨_, _, all, List.Sublist.refl _, hall, hdv, rfl⟩
  | overwrite f new ix cf cs ce =>
    obtain ⟨⟨es, cs', ce'⟩, _, h⟩ := bind_ok h
    obtain ⟨r', hr, h⟩ := bind_ok h
    cases h
    obtain ⟨base, retained, all, _, _, hret, hall, hdv, rfl⟩ := resolveOverwrite_ok hr
    exact ⟨retained, ix, all, retainedIndexEntries_sublist hret, hall, hdv, rfl⟩

theorem activeAt_keyed (latest : Option Snapshot) : Net.Keyed ManifestEntry.identifier (activeAt latest) := by
  cases latest with
  | none => exact Net.keyed_nil
  | some s =>
    show Net.Keyed ManifestEntry.identifier s.active
    rw [Snapshot.active, mergeActiveEntries_eq]
    exact Net.keyed_net _

variable {t : Snapshot}

theorem Prepared.index_cases {all : List IndexManifestEntry}
    {es cl : List ManifestEntry} {kind : CommitKind} {base : Option (List ManifestEntry)}
    (hp : Prepared c (withIndex latest (readPrevIndexEntries latest) all es cl kind base) latest n t) :
    (readPrevIndexEntries (some t)).Sublist all ∨
      (readPrevIndexEntries (some t) = readPrevIndexEntries latest ∧
        sameIndexEntries all (readPrevIndexEntries latest) = true) := by
  have hi := hp.index
  rw [readPrevIndexEntries_some]
  by_cases hsame : sameIndexEntries all (readPrevIndexEntries latest) = true
  · right
    refine ⟨?_, hsame⟩
    simp only [withIndex, hsame] at hi
    rw [hi]
    cases latest with
    | none => rfl
    | some s =>
      rw [readPrevIndexEntries_some]
      rfl
  · left
    simp only [withIndex, hsame] at hi
    rw [hi]
    exact normalizeIndexEntries_sublist all

/-- **One accepted attempt keeps the index manifest consistent.** -/
theorem Consistent.publish
    {b : Bool}
    (hc : Consistent (activeAt latest) (readPrevIndexEntries latest))
    (hr : resolveCommit c read plan latest rs b = .ok (plan', r)) (hp : Prepared c r latest n t) :
    Consistent t.active (readPrevIndexEntries (some t)) := by
  obtain ⟨old, ix, all, hsub, hall, hdv, hres⟩ := resolveCommit_index hr
  obtain ⟨next, hdelta⟩ := hp.delta
  have hold := hc.sublist hsub
  have hlive : ∀ e ∈ all, isDeletionVectors e = true → ∀ k ∈ dvFiles e, KeyLive t.active k := by
    intro e he hedv k hk
    rw [hp.follows.active]
    exact (dvLive_merged hold.dvLive hall hdv e he hedv k hk).prepared hdelta (activeAt_keyed latest)
  have hmerged : Consistent t.active all := by
    obtain ⟨_, _, _, _, _, hfiles⟩ := mergeIndexEntries_ok hall
    refine ⟨hlive, hfiles, mergeIndexEntries_rowsApart ?_ hold.rowsApart hall⟩
    exact fun e he => readPrevIndexEntries_kind (hsub.subset he)
  rw [hres] at hp
  rcases hp.index_cases with hindex | ⟨hindex, hsame⟩
  · exact hmerged.sublist hindex
  · -- nothing changed: the files of each entry are those of an equal merged entry
    rw [hindex]
    refine ⟨fun e he hedv k hk => ?_, hc.dvOnce, hc.rowsApart⟩
    obtain ⟨a, ha, has⟩ := sameIndexEntries_mem hsame he
    obtain ⟨hisdv, hfiles⟩ := dvFiles_same has
    exact hlive a ha (by rw [hisdv, hedv]) k ((hfiles k).mpr hk)

/-! ## runs -/

/-- **Published index manifests are consistent**: an accepted attempt over a consistent snapshot
publishes a consistent one, hence all snapshots of every run from the empty table are. -/
theorem index_manifest_consistent : (∀ (c : TableCommit) (read : Reader) (plan plan' : CommitEntriesPlan)
      (latest : Option Snapshot) (rs : Option RetryState) (b : Bool) (r : ResolvedCommit) (n : Int)
      (t : Snapshot), Consistent (activeAt latest) (readPrevIndexEntries latest) →
      resolveCommit c read plan latest rs b = .ok (plan', r) →
      prepareSnapshot c r latest n = .ok t →
      Consistent t.active (readPrevIndexEntries (some t))) ∧
    ∀ (ι : Type) [DecidableEq ι] (cs : ι → Committer) (evs : List (ι × Action)) (s : System ι),
      (System.init cs []).run cs evs = some s →
      ∀ t ∈ s.history, Consistent t.active (readPrevIndexEntries (some t)) := by
  refine ⟨fun c read plan plan' latest rs b r n t hc hr hp => hc.publish hr (prepareSnapshot_ok hp),
    fun ι _ cs evs s hrun => published_induction hrun ?_⟩
  rintro i a x _ _ hprev ⟨u, plan, rs, past, plan', r, _, hr, hprep⟩
  refine Consistent.publish ?_ hr hprep
  cases hl : a.getLast? with
  | none => exact consistent_nil _
  | some y => exact hprev y (mem_of_getLast? hl)

/-- a writer of one file, and a DELETE that adds a deletion vector for it -/
def deleteRows : Bool → Committer :=
  twoCommitters (directCommitter 1 [plainFile .add "f"] []) (directCommitter 2 []
    [{ kind := .add, partition := [], bucket := 0,
       indexFile := { indexType := deletionVectorsIndexType, fileName := "dv",
                      deletionVectorsRanges :=
                        some ⟨[("f", { offset := 0, length := 4 })], by decide⟩ } }])

/-- a deletion vector is published over the file it names -/
theorem index_manifest_consistent_delete : ∃ s, (System.init deleteRows []).run deleteRows
      (attemptOf false (.answered none) ++ attemptOf true (.answered none)) = some s ∧
    s.history.map (fun t => (readPrevIndexEntries (some t)).length) = [0, 1] ∧
    ∀ t ∈ s.history, Consistent t.active (readPrevIndexEntries (some t)) := by
  have hrun : ∃ s, (System.init deleteRows []).run deleteRows
      (attemptOf false (.answered none) ++ attemptOf true (.answered none)) = some s ∧
      s.history.map (fun t => (readPrevIndexEntries (some t)).length) = [0, 1] := ⟨_, rfl, rfl⟩
  obtain ⟨s, hs, hlen⟩ := hrun
  exact ⟨s, hs, hlen, index_manifest_consistent.2 Bool deleteRows _ s hs⟩

end Paimon
