import Paimon.Commit.IndexState
import Paimon.Commit.RowTracking
import Paimon.Table.RowRangeAlgebra

/-!
# Published global indexes and the values they were built from

A global index with a data-evolution source names the snapshot its build has read.  When a commit that adds it
passes `check_global_index_sources`, the rows of the index exist after the commit, and their indexed values are
those of the source snapshot.

* `Holder`: a file that holds a field of a row: it covers the row and writes the field;
* `value`: what some reader makes of the holders of a field;
* `History`: snapshots that follow from one another, where compactions keep values;
* `holders_run`: entries none of which holds the field, or replaces a file that does, leave the holders
  alone;
* `published_from`: row tracking gives new files row ids from `next_row_id` on, and changes no others.
-/

namespace Paimon

open List

/-! ## values -/

section values
variable (t : Table)

def covers (e : ManifestEntry) (x : Int) : Prop := ∃ r, e.file.rowIdRange = some r ∧ r.1 ≤ x ∧ x ≤ r.2

def writesField (e : ManifestEntry) (f : Int) : Prop := ∃ ids, writeFieldIds t e.file = .ok ids ∧ f ∈ ids

/-- a file of the partition and bucket that holds the field `f` of the row `x` -/
structure Holder (partition : Bytes) (bucket x f : Int) (e : ManifestEntry) : Prop where
  partition : partitionKey e.partition = partitionKey partition
  bucket : e.bucket = bucket
  covers : covers e x
  writes : writesField t e f

def holders (live : List ManifestEntry) (partition : Bytes) (bucket x f : Int) : Set ManifestEntry :=
  {e | e ∈ live ∧ Holder t partition bucket x f e}

/-- The value of a field of a row, for a reader `view` that looks at the files that hold it. -/
def value {V : Type} (view : Set ManifestEntry → Int → Int → V) (live : List ManifestEntry) (partition : Bytes)
    (bucket x f : Int) : V :=
  view (holders t live partition bucket x f) x f

structure SameContent (a b : ManifestEntry) : Prop where
  rowIds : a.file.rowIdRange = b.file.rowIdRange
  schema : a.file.schemaId = b.file.schemaId
  writeCols : a.file.writeCols = b.file.writeCols

def OneFile (entries : List ManifestEntry) : Prop :=
  ∀ a ∈ entries, ∀ b ∈ entries, a.identifier = b.identifier → SameContent a b

end values

variable {live delta : List ManifestEntry}

section frame
variable {t : Table} {partition : Bytes} {bucket x f : Int}

theorem writeFieldIds_congr {a b : DataFileMeta} (hschema : a.schemaId = b.schemaId) (hcols : a.writeCols = b.writeCols) :
    writeFieldIds t a = writeFieldIds t b := by
  unfold writeFieldIds
  rw [hschema, hcols]

theorem Holder.transfer {a b : ManifestEntry} (h : Holder t partition bucket x f a) (hid : a.identifier = b.identifier)
    (hsame : SameContent a b) : Holder t partition bucket x f b where
  partition := by
    have : a.partition = b.partition := congrArg Identifier.partition hid
    rw [← this]
    exact h.partition
  bucket := (congrArg Identifier.bucket hid).symm.trans h.bucket
  covers := by
    obtain ⟨r, hr, hx⟩ := h.covers
    exact ⟨r, hsame.rowIds ▸ hr, hx⟩
  writes := by
    obtain ⟨ids, hids, hf⟩ := h.writes
    exact ⟨ids, writeFieldIds_congr hsame.schema hsame.writeCols ▸ hids, hf⟩

/-- **Entries that neither hold the field nor replace a file that does leave its holders alone.** -/
theorem holders_run (hlive : Net.Keyed ManifestEntry.identifier live)
    (hnone : ∀ d ∈ delta, ¬Holder t partition bucket x f d)
    (hkept : ∀ d ∈ delta, ∀ e ∈ live, e.identifier = d.identifier → ¬Holder t partition bucket x f e) :
    holders t (applyDelta live delta) partition bucket x f = holders t live partition bucket x f := by
  ext e
  constructor
  · rintro ⟨he, hholder⟩
    obtain he | ⟨he, -⟩ := Net.mem_run he
    · exact ⟨he, hholder⟩
    · exact absurd hholder (hnone e he)
  · rintro ⟨he, hholder⟩
    refine ⟨?_, hholder⟩
    have hlook := (Net.mem_iff_look hlive e).mp he
    have huntouched : ∀ d ∈ delta, d.identifier ≠ e.identifier := fun d hd hid => hkept d hd e he hid.symm hholder
    exact Net.look_some_mem ((Net.look_run_skip huntouched live).trans hlook)

end frame

/-! ## the column check -/

variable {sources : List (Int × IndexManifestEntry)} {m : GlobalIndexMeta}

section columns
variable {t : Table}

theorem sameIndexPartition_iff (a b : Bytes) : sameIndexPartition a b = true ↔ partitionKey a = partitionKey b := by
  unfold sameIndexPartition partitionKey
  have hnil : isEmptyPartition [] = true := rfl
  simp only [Bool.or_eq_true, beq_iff_eq, Bool.and_eq_true]
  constructor
  · rintro (rfl | ⟨ha, hb⟩)
    · rfl
    · rw [if_pos ha, if_pos hb]
  · intro h
    by_cases ha : isEmptyPartition a = true
    · by_cases hb : isEmptyPartition b = true
      · exact .inr ⟨ha, hb⟩
      · rw [if_pos ha, if_neg hb] at h
        rw [← h] at hb
        exact absurd hnil hb
    · by_cases hb : isEmptyPartition b = true
      · rw [if_neg ha, if_pos hb] at h
        rw [h] at ha
        exact absurd hnil ha
      · rw [if_neg ha, if_neg hb] at h
        exact .inl h

/-- **A change that passes the check holds no indexed field of a row of the index.** -/
theorem checkIndexColumnChanges_ok {changes : List ManifestEntry}
    {snapshotId : Option Int} (h : checkIndexColumnChanges t sources changes snapshotId = .ok ())
    {source : Int × IndexManifestEntry} (hsource : source ∈ sources) (hlater : ∀ id, snapshotId = some id → source.1 < id)
    (hm : source.2.indexFile.globalIndexMeta = some m) {change : ManifestEntry}
    (hchange : change ∈ changes) {x f : Int} (hx : m.rowRangeStart ≤ x ∧ x ≤ m.rowRangeEnd)
    (hf : f ∈ indexedFieldIds m) : ¬Holder t source.2.partition source.2.bucket x f change := by
  rintro ⟨hpartition, hbucket, ⟨⟨start, stop⟩, hrange, hstart, hstop⟩, ⟨ids, hids, hwritten⟩⟩
  have hchange := forM_ok h change hchange
  rw [hrange] at hchange
  dsimp only at hchange hstart hstop
  generalize hoverlap : List.filter _ sources = overlapping at hchange
  have hmem : source ∈ overlapping := by
    rw [← hoverlap]
    refine mem_filter.mpr ⟨hsource, ?_⟩
    have hrows : rangesOverlap start stop m.rowRangeStart m.rowRangeEnd = true := by
      simp only [rangesOverlap, Bool.and_eq_true, decide_eq_true_iff]
      omega
    rw [hm, (sameIndexPartition_iff _ _).mpr hpartition.symm, hbucket]
    cases snapshotId with
    | none => simp [hrows]
    | some id => simp [hrows, hlater id rfl]
  rw [hids] at hchange
  by_cases hnil : overlapping = []
  · rw [hnil] at hmem
    exact absurd hmem not_mem_nil
  · rw [if_neg hnil] at hchange
    have hone := forM_ok hchange source hmem
    rw [hm] at hone
    dsimp only at hone
    rw [if_pos (any_eq_true.mpr ⟨f, hf, contains_iff_mem.mpr hwritten⟩)] at hone
    cases hone

end columns

/-! ## what a snapshot publishes -/

/-- `d` as it is published: the same file, with new row ids from `start` on if it had none -/
structure PublishedAs (start : Int) (d d' : ManifestEntry) : Prop where
  identifier : d'.identifier = d.identifier
  schema : d'.file.schemaId = d.file.schemaId
  writeCols : d'.file.writeCols = d.file.writeCols
  rowIds : d'.file.rowIdRange = d.file.rowIdRange ∨
    (d.file.rowIdRange = none ∧ ∀ r, d'.file.rowIdRange = some r → start ≤ r.1)

/-- every counter is at least `start` -/
structure RowTracking.Above (start : Int) (st : RowTracking) : Prop where
  normal : start ≤ st.start
  blobDefault : start ≤ st.blobStartDefault
  blob : ∀ field, start ≤ st.blobStart field
  vector : start ≤ st.vectorStoreStart

variable {next : Option Int} {e : ManifestEntry}

section publish
variable {start n : Int} {st st' : RowTracking} {e e' : ManifestEntry}

theorem rowIdRange_first {f : DataFileMeta} {r : Int × Int} (h : f.rowIdRange = some r) : f.firstRowId = some r.1 := by
  unfold DataFileMeta.rowIdRange at h
  split at h
  · cases h
  · next first hfirst =>
    split at h
    · cases h
    · split at h
      · cases h
        exact hfirst
      · cases h

theorem publishedAs_kept (start n : Int) (e : ManifestEntry) : PublishedAs start e (assignSnapshotId n e) := by
  obtain ⟨-, low, high, hfile⟩ := assignSnapshotId_file n e
  have hid : (assignSnapshotId n e).identifier = e.identifier := by
    rw [← untracked_identifier, untracked_assignSnapshotId, untracked_identifier]
  refine ⟨hid, ?_, ?_, .inl ?_⟩
  · rw [hfile]
  · rw [hfile]
  · rw [hfile]
    rfl

theorem publishedAs_assigned (n : Int) (hneeds : needsRowIds e = true) {first : Int}
    (hfirst : start ≤ first) : PublishedAs start e ((assignSnapshotId n e).withFirstRowId first) := by
  have hkept := publishedAs_kept start n e
  have hnone : e.file.firstRowId = none := by
    simp only [needsRowIds, Bool.and_eq_true, Option.isNone_iff_eq_none] at hneeds
    exact hneeds.1.2
  refine ⟨hkept.identifier, hkept.schema, hkept.writeCols, .inr ⟨?_, fun r hr => ?_⟩⟩
  · unfold DataFileMeta.rowIdRange
    rw [hnone]
  · have := rowIdRange_first hr
    cases this
    exact hfirst

theorem Assigned.published (h : Assigned n st e e' st') (hcount : 0 ≤ e.file.rowCount) (hst : st.Above start) :
    st'.Above start ∧ PublishedAs start e e' := by
  cases h with
  | kept _ => exact ⟨hst, publishedAs_kept start n e⟩
  | @blob field hblob _ =>
    refine ⟨⟨hst.normal, hst.blobDefault, fun other => ?_, hst.vector⟩,
      publishedAs_assigned n (needsRowIds_of_blob hblob) (hst.blob field)⟩
    have hother := hst.blob other
    unfold RowTracking.blobStart at hother ⊢
    dsimp only
    by_cases ho : other = field
    · subst ho
      rw [Function.update_self, Option.getD_some]
      omega
    · rwa [Function.update_of_ne ho]
  | vector hvector _ =>
    have := hst.vector
    exact ⟨⟨hst.normal, hst.blobDefault, hst.blob, by dsimp only; omega⟩,
      publishedAs_assigned n (needsRowIds_of_vector hvector) hst.vector⟩
  | normal hnormal =>
    have := hst.normal
    have hneeds : needsRowIds e = true := by
      simp only [isNewNormal, Bool.and_eq_true] at hnormal
      exact hnormal.1.1
    exact ⟨⟨by dsimp only; omega, hst.normal, fun _ => hst.normal, hst.vector⟩,
      publishedAs_assigned n hneeds hst.normal⟩

theorem Tracks.published {files : List (ManifestEntry × ManifestEntry)} (h : Tracks n st files st')
    (hcounts : ∀ f ∈ files, 0 ≤ f.1.file.rowCount) (hst : st.Above start) : ∀ f ∈ files, PublishedAs start f.1 f.2 := by
  induction h with
  | nil => exact forall_mem_nil _
  | cons hf _ ih =>
    obtain ⟨hst', hpub⟩ := hf.published (hcounts _ mem_cons_self) hst
    intro f hmem
    obtain rfl | hmem := mem_cons.mp hmem
    · exact hpub
    · exact ih (forall_mem_cons.mp hcounts).2 hst' f hmem

/-- **A published entry is a resolved one**, with new row ids from `next_row_id` on if it had none. -/
theorem published_from {c : TableCommit} {latest : Option Snapshot} {es r : List ManifestEntry}
    (h : prepareEntries c n latest es = .ok (r, next)) (hcounts : ∀ e ∈ es, 0 ≤ e.file.rowCount) :
    ∀ d' ∈ r, ∃ d ∈ es, PublishedAs (firstRowIdStart latest) d d' := by
  have hself : ∀ d ∈ es, ∃ d₀ ∈ es, PublishedAs (firstRowIdStart latest) d₀ d := fun d hd =>
    ⟨d, hd, rfl, rfl, rfl, .inl rfl⟩
  unfold prepareEntries at h
  split at h
  · cases h
    exact hself
  · dsimp only at h
    split at h
    · cases h
      exact hself
    · obtain ⟨⟨assigned, next'⟩, hassign, h⟩ := bind_ok h
      cases h
      obtain ⟨hlen, st', htracks, -⟩ := assignRowTrackingFrom_tracks hassign
      have hordered : (ordered c.table.rowTrackingPartitionGroupOnCommit es).Perm es := ordered_perm _ _
      intro d' hd'
      obtain ⟨d, hd⟩ : ∃ d, (d, d') ∈ (ordered c.table.rowTrackingPartitionGroupOnCommit es).zip assigned := by
        obtain ⟨i, hi, rfl⟩ := mem_iff_getElem.mp hd'
        have hi' : i < (ordered c.table.rowTrackingPartitionGroupOnCommit es).length := hlen ▸ hi
        exact ⟨_, mem_iff_getElem?.mpr ⟨i, getElem?_zip_eq_some.mpr
          ⟨getElem?_eq_getElem hi', getElem?_eq_getElem hi⟩⟩⟩
      have hmem : ∀ f ∈ (ordered c.table.rowTrackingPartitionGroupOnCommit es).zip assigned, f.1 ∈ es := fun f hf =>
        hordered.mem_iff.mp (of_mem_zip hf).1
      refine ⟨d, hmem _ hd, htracks.published (fun f hf => hcounts f.1 (hmem f hf)) ?_ _ hd⟩
      exact ⟨le_refl _, le_refl _, fun _ => le_refl _, le_refl _⟩

end publish

/-! ## sources -/

variable {partition : Bytes} {additions : List IndexManifestEntry}

section sources
variable {read : Reader} {latest : Snapshot} {current : List ManifestEntry}

theorem deserializeIndexSource_pos {bytes : Bytes} {id : Int} (h : deserializeIndexSource bytes = .ok id) : 0 < id := by
  unfold deserializeIndexSource at h
  split at h
  · cases h
  · dsimp only at h
    split at h
    · cases h
    · split at h
      · cases h
      · next hpos =>
        cases h
        omega

theorem collectIndexSources_ok
    (h : collectIndexSources read (some latest) current additions = .ok sources) {e : IndexManifestEntry}
    (he : e ∈ additions) (hm : e.indexFile.globalIndexMeta = some m) :
    (∃ r ∈ coveredRanges current e.partition e.bucket, r.fromId ≤ m.rowRangeStart ∧ m.rowRangeEnd ≤ r.toId) ∧
    (isDataEvolutionMeta m.sourceMeta = true →
      ∃ id, deserializeIndexSource (m.sourceMeta.getD []) = .ok id ∧ id ≤ latest.id ∧ (id, e) ∈ sources) := by
  induction additions generalizing sources with
  | nil => exact absurd he not_mem_nil
  | cons a additions ih =>
    unfold collectIndexSources at h
    cases ha : a.indexFile.globalIndexMeta with
    | none =>
      rw [ha] at h
      obtain rfl | he := mem_cons.mp he
      · rw [ha] at hm
        cases hm
      · exact ih h he
    | some ma =>
      rw [ha] at h
      dsimp only at h
      split at h
      · cases h
      next hcovered =>
      have hranges : ∃ r ∈ coveredRanges current a.partition a.bucket, r.fromId ≤ ma.rowRangeStart ∧ ma.rowRangeEnd ≤ r.toId := by
        rw [Bool.not_eq_true, Bool.not_eq_false'] at hcovered
        obtain ⟨r, hr, hin⟩ := any_eq_true.mp hcovered
        rw [Bool.and_eq_true, decide_eq_true_iff, decide_eq_true_iff] at hin
        exact ⟨r, hr, hin⟩
      split at h
      · next hplain =>
        obtain rfl | he := mem_cons.mp he
        · rw [ha] at hm
          cases hm
          refine ⟨hranges, fun hsource => ?_⟩
          rw [hsource] at hplain
          cases hplain
        · exact ih h he
      · obtain ⟨id, hid, h⟩ := bind_ok h
        split at h
        · cases h
        next hle =>
        have hrest : ∃ rest, collectIndexSources read (some latest) current additions = .ok rest ∧
            sources = (id, a) :: rest := by
          split at h
          · obtain ⟨_, -, h⟩ := bind_ok h
            obtain ⟨rest, hrest, h⟩ := bind_ok h
            cases h
            exact ⟨rest, hrest, rfl⟩
          · obtain ⟨rest, hrest, h⟩ := bind_ok h
            cases h
            exact ⟨rest, hrest, rfl⟩
        obtain ⟨rest, hrest, rfl⟩ := hrest
        obtain rfl | he := mem_cons.mp he
        · rw [ha] at hm
          cases hm
          exact ⟨hranges, fun _ => ⟨id, hid, by omega, mem_cons_self⟩⟩
        · obtain ⟨hcov, hsource⟩ := ih hrest he
          refine ⟨hcov, fun hmeta => ?_⟩
          obtain ⟨id', hid', hle', hmem⟩ := hsource hmeta
          exact ⟨id', hid', hle', mem_cons_of_mem _ hmem⟩

theorem covers_of_coveredRanges {bucket x : Int} {r : RowRange}
    (hr : r ∈ coveredRanges current partition bucket) (hx : r.fromId ≤ x ∧ x ≤ r.toId) :
    ∃ e ∈ current, partitionKey e.partition = partitionKey partition ∧ e.bucket = bucket ∧ covers e x := by
  have hmem : x ∈ RowRange.rows (coveredRanges current partition bucket) := ⟨r, hr, hx⟩
  unfold coveredRanges at hmem
  rw [rows_mergeRowRanges] at hmem
  obtain ⟨q, hq, hxq⟩ := hmem
  obtain ⟨e, he, hrange⟩ := mem_filterMap.mp hq
  obtain ⟨he, hkey⟩ := mem_filter.mp he
  rw [decide_eq_true_iff] at hkey
  refine ⟨e, he, hkey.1, hkey.2, ?_⟩
  split at hrange
  · cases hrange
  · next start stop hsome =>
    split at hrange
    · cases hrange
      exact ⟨(start, stop), hsome, hxq⟩
    · cases hrange

theorem foldl_min_le (ss : List (Int × IndexManifestEntry)) (first : Int) :
    ss.foldl (fun acc x => min acc x.1) first ≤ first ∧ ∀ x ∈ ss, ss.foldl (fun acc x => min acc x.1) first ≤ x.1 := by
  induction ss generalizing first with
  | nil => exact ⟨le_refl _, forall_mem_nil _⟩
  | cons a ss ih =>
    obtain ⟨hle, hall⟩ := ih (min first a.1)
    rw [foldl_cons]
    refine ⟨hle.trans (min_le_left _ _), fun x hx => ?_⟩
    obtain rfl | hx := mem_cons.mp hx
    · exact hle.trans (min_le_right _ _)
    · exact hall x hx

end sources

/-! ## an accepted commit -/

variable {t : Table}

section accepted
variable {c : TableCommit} {read : Reader} {latest : Snapshot} {dataEntries : List ManifestEntry}
  {indexEntries : List IndexManifestEntry}

theorem ite_bind_result {α β : Type} (b : Prop) [Decidable b] (x y : Result α) (k : α → Result β) :
    (if b then x >>= k else y >>= k) = (if b then x else y) >>= k := by
  split <;> rfl

variable {ix : IndexManifestEntry}

theorem indexFilter_accepts {filter : Option PartitionFilter}
    (hdecode : t.partitioned = true → ∀ p, t.decodePartition p = .ok () → isEmptyPartition p = false)
    (h : (if t.partitioned then
        (do let f ← fromPartitionSet t (additions.map IndexManifestEntry.partition) return some f)
      else pure none : Result (Option PartitionFilter)) = .ok filter)
    (hix : ix ∈ additions) {p : Bytes} (hp : partitionKey p = partitionKey ix.partition) :
    acceptsOpt filter p = true := by
  split at h
  · next hpart =>
    obtain ⟨f, hf, h⟩ := bind_ok h
    cases h
    have hmem : ix.partition ∈ additions.map IndexManifestEntry.partition := mem_map_of_mem hix
    have hempty : isEmptyPartition ix.partition = false := by
      obtain ⟨_, hall, -⟩ := bind_ok hf
      exact hdecode hpart _ (forM_ok hall _ hmem)
    have hpartition : p = ix.partition := by
      unfold partitionKey at hp
      rw [hempty, if_neg Bool.false_ne_true] at hp
      split at hp
      · rw [← hp] at hempty
        cases hempty
      · exact hp
    rw [fromPartitionSet_ok hf, hpartition]
    exact decide_eq_true hmem
  · cases h
    rfl

/-- what the check has seen of one added index -/
structure SourceChecked (c : TableCommit) (read : Reader) (latest : Snapshot) (dataEntries : List ManifestEntry)
    (ix : IndexManifestEntry) (m : GlobalIndexMeta) (source : Int) : Prop where
  positive : 0 < source
  le : source ≤ latest.id
  data : ∀ x f, m.rowRangeStart ≤ x ∧ x ≤ m.rowRangeEnd → f ∈ indexedFieldIds m → ∀ d ∈ dataEntries,
    ¬Holder c.table ix.partition ix.bucket x f d
  later : ∀ id, source < id → id ≤ latest.id → ∃ snapshot, ((id = latest.id ∧ snapshot = latest) ∨ read id = .ok snapshot) ∧
    (snapshot.commitKind = .compact ∨
      ∀ x f, m.rowRangeStart ≤ x ∧ x ≤ m.rowRangeEnd → f ∈ indexedFieldIds m → ∀ d ∈ snapshot.deltaEntries,
        ¬Holder c.table ix.partition ix.bucket x f d)

theorem checkGlobalIndexSources_ok (hevolution : c.dataEvolutionEnabled = true)
    (hdecode : c.table.partitioned = true → ∀ p, c.table.decodePartition p = .ok () → isEmptyPartition p = false)
    (h : checkGlobalIndexSources c read (some latest) dataEntries indexEntries = .ok ())
    (hix : ix ∈ indexEntries) (hadd : ix.kind = .add)
    (hm : ix.indexFile.globalIndexMeta = some m) :
    (∀ x, m.rowRangeStart ≤ x ∧ x ≤ m.rowRangeEnd → ∃ scanned, scanned ⊆ latest.active ∧
      ∃ e ∈ mergeActiveEntries (scanned ++ dataEntries),
        partitionKey e.partition = partitionKey ix.partition ∧ e.bucket = ix.bucket ∧ covers e x) ∧
    (isDataEvolutionMeta m.sourceMeta = true → ∃ source, deserializeIndexSource (m.sourceMeta.getD []) = .ok source ∧
      SourceChecked c read latest dataEntries ix m source) := by
  unfold checkGlobalIndexSources at h
  dsimp only at h
  have hmem : ix ∈ indexEntries.filter fun e => decide (e.kind = .add ∧ e.indexFile.globalIndexMeta.isSome) :=
    mem_filter.mpr ⟨hix, decide_eq_true ⟨hadd, by rw [hm]; rfl⟩⟩
  generalize indexEntries.filter (fun e => decide (e.kind = .add ∧ e.indexFile.globalIndexMeta.isSome)) = additions
    at h hmem
  rw [hevolution, if_neg (by simpa using ne_nil_of_mem hmem), ite_bind_result] at h
  obtain ⟨filter, hfilter, h⟩ := bind_ok h
  obtain ⟨scanned, hscanned, h⟩ := bind_ok h
  obtain ⟨sources, hsources, h⟩ := bind_ok h
  obtain ⟨⟨r, hr, hfrom, hto⟩, hsource⟩ := collectIndexSources_ok hsources hmem hm
  refine ⟨fun x hx => ⟨scanned, scanSnapshotEntries_subset hscanned, ?_⟩, fun hmeta => ?_⟩
  · exact covers_of_coveredRanges hr ⟨hfrom.trans hx.1, hx.2.trans hto⟩
  obtain ⟨source, hid, hle, hin⟩ := hsource hmeta
  refine ⟨source, hid, ?_⟩
  cases sources with
  | nil => exact absurd hin not_mem_nil
  | cons first rest =>
    obtain ⟨_, hdata, hloop⟩ := bind_ok h
    refine ⟨deserializeIndexSource_pos hid, hle, fun x f hx hf d hd => ?_, fun id hlater hidle => ?_⟩
    · exact checkIndexColumnChanges_ok hdata hin (fun _ hid => by cases hid) hm hd hx hf
    have hearliest : rest.foldl (fun acc x => min acc x.1) first.1 ≤ source := by
      obtain ⟨hfirst, hall⟩ := foldl_min_le rest first.1
      obtain rfl | hin' := mem_cons.mp hin
      · exact hfirst
      · exact hall _ hin'
    have hone := forM_ok hloop id (mem_idsAfter.mpr ⟨by omega, hidle⟩)
    rw [ite_bind_result] at hone
    obtain ⟨snapshot, hread, hone⟩ := bind_ok hone
    refine ⟨snapshot, ?_, ?_⟩
    · split at hread
      · next heq =>
        cases hread
        exact .inl ⟨heq, rfl⟩
      · exact .inr hread
    · split at hone
      · next hcompact => exact .inl hcompact
      · obtain ⟨changes, hchanges, hone⟩ := bind_ok hone
        refine .inr fun x f hx hf d hd hholder => ?_
        have hd' : d ∈ changes := by
          rw [filterPartitionOpt_ok hchanges]
          exact mem_filter.mpr ⟨hd, indexFilter_accepts hdecode hfilter hmem hholder.partition⟩
        exact checkIndexColumnChanges_ok hone hin (fun _ heq => by cases heq; exact hlater) hm hd' hx hf hholder

end accepted

/-! ## histories -/

/-- The snapshots up to the latest, which reads give back: each has the files of the one before it changed by its
delta, entries of one identifier carry one file, and a compaction keeps every value. -/
structure History (t : Table) {V : Type} (view : Set ManifestEntry → Int → Int → V) (read : Reader)
    (snapshot : Int → Snapshot) (latest : Snapshot) : Prop where
  ends : snapshot latest.id = latest
  reads : ∀ id s, read id = .ok s → s = snapshot id
  follows : ∀ id, 1 < id → id ≤ latest.id → ∀ e,
    e ∈ (snapshot id).active ↔ e ∈ applyDelta (snapshot (id - 1)).active (snapshot id).deltaEntries
  oneFile : ∀ id, 1 < id → id ≤ latest.id → OneFile ((snapshot (id - 1)).active ++ (snapshot id).deltaEntries)
  compaction : ∀ id, 1 < id → id ≤ latest.id → (snapshot id).commitKind = .compact → ∀ partition bucket x f,
    value t view (snapshot id).active partition bucket x f = value t view (snapshot (id - 1)).active partition bucket x f

section histories
variable {c : TableCommit} {read : Reader} {latest : Snapshot} {dataEntries : List ManifestEntry}
  {ix : IndexManifestEntry} {m : GlobalIndexMeta} {source : Int} {V : Type}
  {view : Set ManifestEntry → Int → Int → V} {snapshot : Int → Snapshot} {x f : Int}

theorem active_keyed (s : Snapshot) : Net.Keyed ManifestEntry.identifier s.active := activeAt_keyed (some s)

variable {bucket : Int}

theorem holders_delta
    (hlive : Net.Keyed ManifestEntry.identifier live) (hone : OneFile (live ++ delta))
    (hnone : ∀ d ∈ delta, ¬Holder t partition bucket x f d) :
    holders t (applyDelta live delta) partition bucket x f = holders t live partition bucket x f :=
  holders_run hlive hnone fun d hd e he hid hholder =>
    hnone d hd (hholder.transfer hid (hone e (mem_append_left _ he) d (mem_append_right _ hd) hid))

/-- **From the source to the latest snapshot no indexed value changes.** -/
theorem value_since_source (hhistory : History c.table view read snapshot latest)
    (hchecked : SourceChecked c read latest dataEntries ix m source)
    (hx : m.rowRangeStart ≤ x ∧ x ≤ m.rowRangeEnd) (hf : f ∈ indexedFieldIds m) :
    value c.table view latest.active ix.partition ix.bucket x f
      = value c.table view (snapshot source).active ix.partition ix.bucket x f := by
  have hsteps : ∀ id, source ≤ id → id ≤ latest.id →
      value c.table view (snapshot id).active ix.partition ix.bucket x f
        = value c.table view (snapshot source).active ix.partition ix.bucket x f := by
    intro id hid
    induction id, hid using Int.leInduction with
    | base => exact fun _ => rfl
    | succ id hid ih =>
      intro hle
      have hpos := hchecked.positive
      rw [← ih (by omega)]
      have hprev : id + 1 - 1 = id := by omega
      obtain ⟨s, hs, hcases⟩ := hchecked.later (id + 1) (by omega) hle
      have hsnap : s = snapshot (id + 1) := by
        obtain ⟨heq, rfl⟩ | hread := hs
        · rw [heq, hhistory.ends]
        · exact hhistory.reads _ _ hread
      subst hsnap
      obtain hcompact | hnone := hcases
      · have := hhistory.compaction (id + 1) (by omega) hle hcompact ix.partition ix.bucket x f
        rwa [hprev] at this
      · have hone := hhistory.oneFile (id + 1) (by omega) hle
        have hfollows := hhistory.follows (id + 1) (by omega) hle
        rw [hprev] at hone hfollows
        unfold value
        congr 1
        rw [← holders_delta (active_keyed _) hone (hnone x f hx hf)]
        ext e
        exact and_congr_left' (hfollows e)
  have := hsteps latest.id hchecked.le (le_refl _)
  rwa [hhistory.ends] at this

theorem published_not_holder {start : Int} {d d' : ManifestEntry}
    (hpub : PublishedAs start d d') (hd : ¬Holder t partition bucket x f d) (hx : x < start) :
    ¬Holder t partition bucket x f d' := by
  intro hholder
  obtain hsame | hnew := hpub.rowIds
  · exact hd (hholder.transfer hpub.identifier ⟨hsame, hpub.schema, hpub.writeCols⟩)
  · obtain ⟨r, hr, hle, -⟩ := hholder.covers
    have := hnew.2 r hr
    omega

theorem covers_published {n : Int} {published : List ManifestEntry}
    (hpublish : prepareEntries c n (some latest) dataEntries = .ok (published, next))
    (hcounts : ∀ e ∈ dataEntries, 0 ≤ e.file.rowCount) (hone : OneFile (latest.active ++ dataEntries))
    {scanned : List ManifestEntry} (hscanned : scanned ⊆ latest.active)
    (he : e ∈ mergeActiveEntries (scanned ++ dataEntries)) (hx : covers e x) :
    ∃ e' ∈ applyDelta latest.active published, e'.identifier = e.identifier ∧ covers e' x := by
  rw [mergeActiveEntries_eq] at he
  have hlook := (Net.mem_net _ _).mp he
  have hmem : e ∈ latest.active ++ dataEntries := by
    obtain he | he := mem_append.mp (Net.mem_of_mem_net he)
    · exact mem_append_left _ (hscanned he)
    · exact mem_append_right _ he
  -- the commit's entries decide the file, or leave it as it was
  have hafter : ∃ y, Net.look ManifestEntry.identifier (applyDelta latest.active dataEntries) e.identifier = some y := by
    by_cases htouched : ∃ d ∈ dataEntries, d.identifier = e.identifier
    · rw [Net.net_append] at hlook
      exact ⟨e, (Net.look_run_touched htouched _ _).trans hlook⟩
    · push Not at htouched
      rw [applyDelta, Net.look_run_skip htouched]
      have hold : e ∈ latest.active := by
        obtain he | he := mem_append.mp hmem
        · exact he
        · exact absurd rfl (htouched e he)
      exact ⟨e, (Net.mem_iff_look (active_keyed latest) e).mp hold⟩
  obtain ⟨y, hy⟩ := hafter
  have hprepared := look_prepared hpublish latest.active e.identifier
  unfold applyDelta at hy
  rw [hy] at hprepared
  obtain ⟨e', he', -⟩ := Option.map_eq_some_iff.mp hprepared
  have hid : e'.identifier = e.identifier := Net.look_some_key he'
  refine ⟨e', Net.look_some_mem he', hid, ?_⟩
  obtain ⟨r, hr, hxr⟩ := hx
  obtain hlive | ⟨hpub, -⟩ := Net.mem_run (Net.look_some_mem he')
  · have hsame := hone e' (mem_append_left _ hlive) e hmem hid
    exact ⟨r, hsame.rowIds.trans hr, hxr⟩
  · obtain ⟨d, hd, hd'⟩ := published_from hpublish hcounts e' hpub
    have hsame := hone d (mem_append_right _ hd) e hmem (hd'.identifier.symm.trans hid)
    obtain hrange | hnew := hd'.rowIds
    · exact ⟨r, hrange.trans (hsame.rowIds.trans hr), hxr⟩
    · rw [← hsame.rowIds, hnew.1] at hr
      cases hr

end histories

def indexedTable : Table where
  partitioned := false
  fields := [⟨1, "a"⟩, ⟨2, "b"⟩]

def indexedCommit : TableCommit where
  table := indexedTable
  commitUser := "user"
  totalBuckets := -1
  commitMaxRetries := 1
  rowTrackingEnabled := true
  dataEvolutionEnabled := true

def baseFile : ManifestEntry :=
  ⟨.add, [], 0, -1, { fileName := "base", rowCount := 10, fileSource := some 0, firstRowId := some 0 }⟩

def updateFile : ManifestEntry :=
  ⟨.add, [], 0, -1,
    { fileName := "update", rowCount := 10, minSequenceNumber := 1, maxSequenceNumber := 1, fileSource := some 0,
      firstRowId := some 0, writeCols := some ["a"] }⟩

def updatedSnapshot : Snapshot where
  id := 1
  baseManifestList := []
  deltaManifestList := [[baseFile, updateFile]]
  commitUser := "user"
  commitIdentifier := 1
  commitKind := .append
  totalRecordCount := some 20
  deltaRecordCount := some 20
  nextRowId := some 10

def indexOfA : IndexManifestEntry where
  kind := .add
  partition := []
  bucket := 0
  indexFile := {
    indexType := "btree"
    fileName := "index"
    globalIndexMeta := some {
      rowRangeStart := 0
      rowRangeEnd := 9
      indexFieldId := 1
      sourceMeta := some [0x44, 0x45, 0x49, 0x58, 0, 0, 0, 1, 0, 0, 0, 0, 0, 0, 0, 1] } }

def appendedFile : ManifestEntry :=
  ⟨.add, [], 0, -1, { fileName := "new", rowCount := 5, fileSource := some 0 }⟩

/-- the deletion of a file, without the row ids the file had -/
def deletedUpdate : ManifestEntry :=
  ⟨.delete, [], 0, -1,
    { fileName := "update", rowCount := 10, minSequenceNumber := 1, maxSequenceNumber := 1, fileSource := some 0,
      writeCols := some ["a"] }⟩

end Paimon
