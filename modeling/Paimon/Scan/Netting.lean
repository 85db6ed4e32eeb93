import Paimon.Scan.Manifests

/-!
# Pruning before netting

A scan drops manifests, blocks and entries before additions and deletions are netted.  Dropping an
addition alone loses a file, dropping a deletion alone revives one.  Neither happens: whatever a
filter drops holds no entry that passes all filters (`readEntries_filter`), and entries of one file
pass alike (`passes_alike`), so the filters may as well run after the netting
(`Net.survivors_filter`).

* `MetadataCovers`, `SidecarCovers`: manifest metadata and sidecars are true of their entries;
* `SameFile`: entries of one identifier carry one file;
* `retainManifest_sound`, `readManifest_filter`: nothing that passes is dropped.

A NaN literal of NOT BETWEEN is read one way for an entry and the other way for a manifest:
`nan_literal_revives` is a scan that returns a deleted file.
-/

namespace Paimon.Scan

open List

/-! ## what a snapshot promises -/

structure MetadataCovers (fields : List DataField) (m : ManifestFile) : Prop where
  partitions : fields ≠ [] → ∀ e ∈ m.entries, PartitionCovered fields
    (m.metadata.numAddedFiles + m.metadata.numDeletedFiles) m.metadata.partitionStats e.partition
  buckets : ∀ minBucket maxBucket, m.metadata.minBucket = some minBucket →
    m.metadata.maxBucket = some maxBucket → minBucket ≤ maxBucket →
    ∀ e ∈ m.entries, minBucket ≤ e.bucket ∧ e.bucket ≤ maxBucket
  totalBuckets : ∀ t, m.metadata.totalBuckets = some t → ∀ e ∈ m.entries, e.totalBuckets = t
  rowIds : ∀ range, ScanFilters.manifestRowIdRange m.metadata = some range → ∀ e ∈ m.entries,
    ∃ r, e.file.rowIdRange = some r ∧ range.1 ≤ r.1 ∧ r.2 ≤ range.2

/-- what a block of a sidecar says is true of the entries of the block -/
structure BlockCovers (entries : List ScanEntry) (b : SidecarBlock) : Prop where
  partitions : ∀ ps, b.partitions = some ps → ∀ e ∈ entries, e.partition ∈ ps
  rows : ∀ p, b.rows = some p → ∀ e ∈ entries, ∃ r, e.file.rowIdRange = some r ∧
    (p.minimum ≤ r.1 ∧ r.2 ≤ p.maximum) ∧ ∃ range ∈ p.ranges, range.1 ≤ r.1 ∧ r.2 ≤ range.2
  buckets : ∀ bs, b.buckets = some bs → ∀ e ∈ entries, (e.bucket, e.totalBuckets) ∈ bs

def SidecarCovers (m : ManifestFile) : Prop :=
  ∀ sidecar, m.sidecar = some sidecar → List.Forall₂ BlockCovers m.blocks sidecar

/-- entries of one identifier carry one file in one bucket layout -/
def SameFile (entries : List ScanEntry) : Prop :=
  ∀ a ∈ entries, ∀ b ∈ entries, a.identifier = b.identifier →
    a.totalBuckets = b.totalBuckets ∧ a.file = b.file ∧ a.stats = b.stats

section
variable (scan : ScanFilters)

/-! ## one entry -/

variable {entries : List ScanEntry}

theorem passes_alike (h : SameFile entries) {a b : ScanEntry}
    (ha : a ∈ entries) (hb : b ∈ entries) (hid : a.identifier = b.identifier) :
    scan.passes a = scan.passes b := by
  obtain ⟨htotal, hfile, hstats⟩ := h a ha b hb hid
  have hpart : a.partition = b.partition := congrArg Identifier.partition hid
  have hbucket : a.bucket = b.bucket := congrArg Identifier.bucket hid
  have hvalue : valueStatsRows a scan.schemaFields = valueStatsRows b scan.schemaFields := by
    unfold valueStatsRows
    rw [hfile, hstats]
  have hkey : keyStatsRows a scan.schemaFields scan.keyFields
      = keyStatsRows b scan.schemaFields scan.keyFields := by
    unfold keyStatsRows
    rw [hfile, hstats]
  unfold ScanFilters.passes ScanFilters.entryFilter ScanFilters.postFilter
    ScanFilters.dataFileMatchesPredicatesWithKeyStats ScanFilters.retainEntryRowRange
  rw [htotal, hfile, hpart, hbucket, hvalue, hkey]

variable {scan}
variable {e : ScanEntry}

theorem passes_cases (h : scan.passes e = true) :
    scan.entryFilter e = true ∧ scan.postFilter e = true ∧ scan.retainEntryRowRange e = true := by
  unfold ScanFilters.passes at h
  simpa only [Bool.and_eq_true, and_assoc] using h

theorem entryFilter_cases (h : scan.entryFilter e = true) : (scan.onlyRealBuckets = true → 0 ≤ e.bucket) ∧
      scan.bucketTargeted e.bucket e.totalBuckets = true ∧
      scan.partitionPasses e.partition = true := by
  unfold ScanFilters.entryFilter at h
  rw [Bool.and_eq_true, Bool.and_eq_true] at h
  refine ⟨fun hreal => ?_, h.1.2, h.2⟩
  have hb := h.1.1
  rw [hreal, Bool.true_and, Bool.not_eq_true', decide_eq_false_iff_not] at hb
  omega

variable {index : RowRangeIndex} {r : Int × Int}

theorem rowRange_within (hindex : scan.rowRangeIndex = some index)
    (h : scan.retainEntryRowRange e = true) (hr : e.file.rowIdRange = some r)
    {low high : Int} (hlow : low ≤ r.1) (hhigh : r.2 ≤ high) : index.intersects low high = true := by
  unfold ScanFilters.retainEntryRowRange at h
  rw [hindex, hr] at h
  exact RowRangeIndex.intersects_mono h hlow hhigh

/-! ## whole manifests -/

variable {m : ManifestFile}

theorem retainPartition_sound (hfields : scan.partitionFields.length < 2 ^ 31)
    (hbuilt : ∀ filter, scan.partitionFilter = some filter → Built scan.partitionFields filter)
    (hcov : MetadataCovers scan.partitionFields m) (he : e ∈ m.entries)
    (h : scan.partitionPasses e.partition = true) : scan.retainPartition m.metadata = true := by
  unfold ScanFilters.partitionPasses at h
  unfold ScanFilters.retainPartition
  cases hfilter : scan.partitionFilter with
  | none => rfl
  | some filter =>
    rw [hfilter] at h
    by_cases hempty : scan.partitionFields = []
    · unfold PartitionFilter.matchesManifest
      rw [hempty]
      rfl
    · exact matchesManifest_sound hfields (hbuilt filter hfilter) (hcov.partitions hempty e he) h

theorem retainManifestBucket_sound (hcov : MetadataCovers scan.partitionFields m)
    (he : e ∈ m.entries) (hreal : scan.onlyRealBuckets = true → 0 ≤ e.bucket)
    (h : scan.bucketTargeted e.bucket e.totalBuckets = true) :
    scan.retainManifestBucket m.metadata = true := by
  unfold ScanFilters.retainManifestBucket
  split
  · next minBucket maxBucket hmin hmax =>
    split
    · rfl
    next hle =>
    obtain ⟨hlow, hhigh⟩ := hcov.buckets minBucket maxBucket hmin hmax (by omega) e he
    split
    · next hneg =>
      rw [Bool.and_eq_true, decide_eq_true_iff] at hneg
      have := hreal hneg.1
      omega
    split
    · next compute totalBuckets hcompute htotal =>
      split
      · rfl
      obtain ⟨ht, -⟩ := Option.filter_eq_some_iff.mp htotal
      unfold ScanFilters.bucketTargeted at h
      rw [hcompute, hcov.totalBuckets totalBuckets ht e he] at h
      dsimp only at h
      split
      · rfl
      · next targets htargets =>
        rw [htargets] at h
        exact any_eq_true.mpr ⟨e.bucket, contains_iff_mem.mp h, decide_eq_true ⟨hlow, hhigh⟩⟩
    · rfl
  · rfl

theorem retainManifestRowRange_sound (hcov : MetadataCovers scan.partitionFields m)
    (he : e ∈ m.entries) (h : scan.retainEntryRowRange e = true) :
    scan.retainManifestRowRange m.metadata = true := by
  unfold ScanFilters.retainManifestRowRange
  split
  · rfl
  · next index hindex =>
    split
    · rfl
    · next low high hrange =>
      obtain ⟨r, hr, hlow, hhigh⟩ := hcov.rowIds (low, high) hrange e he
      exact rowRange_within hindex h hr hlow hhigh

/-- **A manifest with an entry that passes is read.** -/
theorem retainManifest_sound (hfields : scan.partitionFields.length < 2 ^ 31)
    (hbuilt : ∀ filter, scan.partitionFilter = some filter → Built scan.partitionFields filter)
    (hcov : MetadataCovers scan.partitionFields m) (he : e ∈ m.entries)
    (h : scan.passes e = true) : scan.retainManifest m = true := by
  obtain ⟨hentry, -, hrow⟩ := passes_cases h
  obtain ⟨hreal, hbucket, hpart⟩ := entryFilter_cases hentry
  unfold ScanFilters.retainManifest
  rw [retainPartition_sound hfields hbuilt hcov he hpart,
    retainManifestBucket_sound hcov he hreal hbucket, retainManifestRowRange_sound hcov he hrow]
  rfl

/-! ## blocks -/

theorem rowsSelected_sound (hindex : scan.rowRangeIndex = some index)
    {p : RowPayload} (hr : e.file.rowIdRange = some r)
    (henv : p.minimum ≤ r.1 ∧ r.2 ≤ p.maximum)
    (hrange : ∃ range ∈ p.ranges, range.1 ≤ r.1 ∧ r.2 ≤ range.2)
    (h : scan.retainEntryRowRange e = true) : ScanFilters.rowsSelected index p = true := by
  unfold ScanFilters.rowsSelected
  rw [rowRange_within hindex h hr henv.1 henv.2, Bool.true_and, Bool.or_eq_true]
  obtain ⟨range, hmem, hlow, hhigh⟩ := hrange
  exact .inr (any_eq_true.mpr ⟨range, hmem, rowRange_within hindex h hr hlow hhigh⟩)

/-- **A block with an entry that passes is selected.** -/
theorem blockSelected_sound {b : SidecarBlock}
    (hcov : BlockCovers entries b) (he : e ∈ entries) (h : scan.passes e = true) :
    scan.blockSelected scan.rowRangeIndex b = true := by
  obtain ⟨hentry, -, hrow⟩ := passes_cases h
  obtain ⟨-, hbucket, hpart⟩ := entryFilter_cases hentry
  unfold ScanFilters.blockSelected
  rw [Bool.and_eq_true, Bool.and_eq_true]
  refine ⟨⟨?_, ?_⟩, ?_⟩
  · split
    · next index p hindex hp =>
      obtain ⟨r, hr, henv, hrange⟩ := hcov.rows p hp e he
      exact rowsSelected_sound hindex hr henv hrange hrow
    · rfl
  · split
    · next filter ps hfilter hps =>
      unfold ScanFilters.partitionPasses at hpart
      rw [hfilter] at hpart
      exact any_eq_true.mpr ⟨e.partition, hcov.partitions ps hps e he, hpart⟩
    · rfl
  · split
    · next bs _ hbs =>
      exact any_eq_true.mpr ⟨(e.bucket, e.totalBuckets), hcov.buckets bs hbs e he, hbucket⟩
    · rfl

theorem selected_filter {blocks : List (List ScanEntry)} {sidecar : List SidecarBlock}
    (hcov : List.Forall₂ BlockCovers blocks sidecar) :
    (((blocks.zip (sidecar.map (scan.blockSelected scan.rowRangeIndex))).filter Prod.snd).flatMap
      Prod.fst).filter scan.passes = blocks.flatten.filter scan.passes := by
  induction hcov with
  | nil => rfl
  | @cons entries b blocks sidecar hb _ ih =>
    rw [map_cons, zip_cons_cons, filter_cons, flatten_cons, filter_append, ← ih]
    split
    · rw [flatMap_cons, filter_append]
    · next hsel =>
      have hnone : entries.filter scan.passes = [] :=
        filter_eq_nil_iff.mpr fun e he hpass => hsel (blockSelected_sound hb he hpass)
      rw [hnone, nil_append]

/-- **What is read of a manifest holds all of its entries that pass, in order.** -/
theorem readManifest_filter (hcov : SidecarCovers m) :
    (scan.readManifest scan.rowRangeIndex m).filter scan.passes = m.entries.filter scan.passes := by
  unfold ScanFilters.readManifest
  split
  · rfl
  split
  · rfl
  · next sidecar hsidecar =>
    split
    · rfl
    dsimp only
    split
    · rfl
    · exact selected_filter (hcov sidecar hsidecar)

theorem earlier_filters (l : List ScanEntry) :
    ((l.filter scan.entryFilter).filter scan.postFilter).filter scan.passes = l.filter scan.passes := by
  rw [filter_filter, filter_filter]
  refine filter_congr fun e _ => ?_
  unfold ScanFilters.passes
  cases scan.entryFilter e <;> cases scan.postFilter e <;> cases scan.retainEntryRowRange e <;> rfl

variable {manifests : List ManifestFile}

/-- **All that is read before netting holds every entry that passes, in manifest order.** -/
theorem readEntries_filter (hfields : scan.partitionFields.length < 2 ^ 31)
    (hbuilt : ∀ filter, scan.partitionFilter = some filter → Built scan.partitionFields filter)
    (hmeta : ∀ m ∈ manifests, MetadataCovers scan.partitionFields m)
    (hside : ∀ m ∈ manifests, SidecarCovers m) :
    (scan.readEntries scan.rowRangeIndex manifests).filter scan.passes
      = (manifests.flatMap ManifestFile.entries).filter scan.passes := by
  unfold ScanFilters.readEntries
  induction manifests with
  | nil => rfl
  | cons m manifests ih =>
    have hrest := ih (forall_mem_cons.mp hmeta).2 (forall_mem_cons.mp hside).2
    rw [filter_cons, flatMap_cons, filter_append, ← hrest]
    split
    · rw [flatMap_cons, filter_append, earlier_filters, readManifest_filter (hside m mem_cons_self)]
    · next hdrop =>
      have hnone : m.entries.filter scan.passes = [] :=
        filter_eq_nil_iff.mpr fun e he hpass =>
          hdrop (retainManifest_sound hfields hbuilt (hmeta m mem_cons_self) he hpass)
      rw [hnone, nil_append]

variable {rowIndex : Option RowRangeIndex}

theorem mem_of_readManifest (h : e ∈ scan.readManifest rowIndex m) : e ∈ m.entries := by
  unfold ScanFilters.readManifest at h
  split at h
  · exact h
  split at h
  · exact h
  split at h
  · exact h
  dsimp only at h
  split at h
  · exact h
  obtain ⟨x, hx, he⟩ := mem_flatMap.mp h
  exact mem_flatten.mpr ⟨x.1, (of_mem_zip (mem_filter.mp hx).1).1, he⟩

theorem mem_of_readEntries
    (h : e ∈ scan.readEntries rowIndex manifests) : e ∈ manifests.flatMap ManifestFile.entries := by
  unfold ScanFilters.readEntries at h
  obtain ⟨m, hm, he⟩ := mem_flatMap.mp h
  have hread := (mem_filter.mp (mem_filter.mp he).1).1
  exact mem_flatMap.mpr ⟨m, (mem_filter.mp hm).1, mem_of_readManifest hread⟩

theorem passes_of_readEntries (h : e ∈ scan.readEntries rowIndex manifests) :
    scan.passes e = scan.retainEntryRowRange e := by
  unfold ScanFilters.readEntries at h
  obtain ⟨m, -, he⟩ := mem_flatMap.mp h
  obtain ⟨hread, hpost⟩ := mem_filter.mp he
  obtain ⟨-, hentry⟩ := mem_filter.mp hread
  unfold ScanFilters.passes
  rw [hentry, hpost]
  rfl

end

/-! ## netting -/

theorem mergeManifestEntries_eq (entries : List ScanEntry) :
    mergeManifestEntries entries = Net.survivors ScanEntry.identifier ScanEntry.isAdd entries := by
  have hkind : (fun e : ScanEntry => e.kind == .delete) = fun e => !e.isAdd := by
    funext e
    unfold ScanEntry.isAdd
    cases e.kind <;> rfl
  unfold mergeManifestEntries Net.survivors Net.deleted
  rw [hkind]
  rfl

def snapshotEntries (base delta : List ManifestFile) : List ScanEntry :=
  (base ++ delta).flatMap ManifestFile.entries

def liveIn (entries : List ScanEntry) (e : ScanEntry) : Bool :=
  e.isAdd && !entries.any fun d => !d.isAdd && decide (d.identifier = e.identifier)

theorem survivors_eq (entries : List ScanEntry) :
    Net.survivors ScanEntry.identifier ScanEntry.isAdd entries = entries.filter (liveIn entries) := by
  unfold Net.survivors
  refine filter_congr fun e _ => ?_
  unfold liveIn
  congr 2
  rw [Bool.eq_iff_iff, contains_iff_mem, Net.mem_deleted, any_eq_true]
  refine exists_congr fun d => and_congr_right fun _ => ?_
  rw [Bool.and_eq_true, Bool.not_eq_true', decide_eq_true_iff]

/-- a table with one partition field -/
def partitionOf (d : Datum) (t : TypeRoot) : Bytes := (BinaryRow.fromDatums [(some d, t)]).toSerializedBytes

def noStats : BinaryTableStats := ⟨[], [], []⟩

def fileEntry (kind : FileKind) (partition : Bytes) (bucket : Int) (name : String) (firstRowId : Int) :
    ScanEntry where
  kind := kind
  partition := partition
  bucket := bucket
  totalBuckets := 2
  file := { fileName := name, rowCount := 10, firstRowId := some firstRowId }
  stats := ⟨noStats, noStats, none⟩

/-- the statistics of a manifest whose partitions lie between two values -/
def partitionBounds (low high : Datum) (t : TypeRoot) : BinaryTableStats :=
  ⟨partitionOf low t, partitionOf high t, [some 0]⟩

theorem partitionCovered_one {f : DataField} {files : Int} {stats : BinaryTableStats}
    {partition : Bytes} {row : BinaryRow} {d low high : Datum}
    (hrow : fromSerializedBytes partition = some row)
    (hd : extractDatum row 0 f.dataType.root = .ok (some d)) (hfiles : 0 < files)
    (hnull : stats.nullCounts.getD 0 none ≠ some files)
    (hmin : statsDatum (fromSerializedBytes stats.minValues) 0 f.dataType.root = some low)
    (hmax : statsDatum (fromSerializedBytes stats.maxValues) 0 f.dataType.root = some high)
    (hlow : cmpLe low d = true) (hhigh : cmpLe d high = true) :
    PartitionCovered [f] files stats partition := by
  refine ⟨row, hrow, fun i g hg => ?_⟩
  obtain ⟨hi, rfl⟩ := List.getElem?_eq_some_iff.mp hg
  obtain rfl : i = 0 := by simpa using hi
  refine ⟨some d, hd, hfiles, nofun, fun _ _ => hnull, fun d' low' hd' hlow' => ?_,
    fun d' high' hd' hhigh' => ?_⟩
  · obtain rfl := Option.some.inj hd'
    obtain rfl := Option.some.inj (hmin.symm.trans hlow')
    exact hlow
  · obtain rfl := Option.some.inj hd'
    obtain rfl := Option.some.inj (hmax.symm.trans hhigh')
    exact hhigh

def regionField : DataField := ⟨"region", ⟨.int, true⟩⟩

def regionIs (n : Int) : Predicate := .leaf "region" 0 ⟨.int, true⟩ .eq [.int n]

def firstA : ScanEntry := fileEntry .add (partitionOf (.int 1) .int) 0 "a" 0
def otherRegion : ScanEntry := fileEntry .add (partitionOf (.int 2) .int) 1 "b" 10
def deletedA : ScanEntry := fileEntry .delete (partitionOf (.int 1) .int) 0 "a" 0
def secondA : ScanEntry := fileEntry .add (partitionOf (.int 1) .int) 0 "c" 20

/-- two blocks with a sidecar -/
def regionBase : ManifestFile where
  metadata := { numAddedFiles := 2, numDeletedFiles := 0
                partitionStats := partitionBounds (.int 1) (.int 2) .int
                minBucket := some 0, maxBucket := some 1, totalBuckets := some 2
                minRowId := some 0, maxRowId := some 19 }
  blocks := [[firstA], [otherRegion]]
  sidecar := some
    [⟨some [partitionOf (.int 1) .int], some ⟨0, 9, []⟩, some [(0, 2)]⟩,
      ⟨some [partitionOf (.int 2) .int], some ⟨10, 19, []⟩, some [(1, 2)]⟩]

def regionDelta : ManifestFile where
  metadata := { numAddedFiles := 1, numDeletedFiles := 1
                partitionStats := partitionBounds (.int 1) (.int 1) .int
                minBucket := some 0, maxBucket := some 0, totalBuckets := some 2
                minRowId := some 0, maxRowId := some 29 }
  blocks := [[deletedA, secondA]]

def regionScan : ScanFilters where
  partitionFilter := some (fromPredicate (regionIs 1) [regionField])
  partitionFields := [regionField]
  targetBuckets := some fun _ => some [0]
  rowRangeIndex := some (RowRangeIndex.create [⟨0, 5, by decide⟩, ⟨15, 25, by decide⟩])
  manifestSidecarEnabled := true

theorem region_covers : MetadataCovers [regionField] regionBase ∧ MetadataCovers [regionField] regionDelta := by
  constructor
  all_goals
    refine ⟨fun _ e he => ?_, fun minBucket maxBucket hmin hmax _ e he => ?_, fun t ht e he => ?_,
      fun range hr e he => ?_⟩
    · simp only [regionBase, regionDelta, ManifestFile.entries, flatten_cons, flatten_nil,
        cons_append, nil_append, mem_cons, not_mem_nil, or_false] at he
      rcases he with rfl | rfl
      all_goals
        exact partitionCovered_one rfl rfl (by decide) (by decide) rfl rfl (by decide +kernel)
          (by decide +kernel)
    · obtain rfl := Option.some.inj hmin
      obtain rfl := Option.some.inj hmax
      revert e
      decide +kernel
    · obtain rfl := Option.some.inj ht
      revert e
      decide +kernel
    · obtain rfl := Option.some.inj hr
      simp only [regionBase, regionDelta, ManifestFile.entries, flatten_cons, flatten_nil,
        cons_append, nil_append, mem_cons, not_mem_nil, or_false] at he
      rcases he with rfl | rfl <;> exact ⟨_, rfl, by decide, by decide⟩

theorem regionBase_sidecar : SidecarCovers regionBase := by
  intro sidecar hs
  obtain rfl := Option.some.inj hs
  refine .cons ⟨fun ps hps e he => ?_, fun p hp e he => ?_, fun bs hbs e he => ?_⟩
    (.cons ⟨fun ps hps e he => ?_, fun p hp e he => ?_, fun bs hbs e he => ?_⟩ .nil)
  all_goals obtain rfl := mem_singleton.mp he
  · obtain rfl := Option.some.inj hps
    exact mem_singleton.mpr rfl
  · obtain rfl := Option.some.inj hp
    exact ⟨(0, 9), rfl, by decide, (0, 9), mem_singleton.mpr rfl, by decide⟩
  · obtain rfl := Option.some.inj hbs
    exact mem_singleton.mpr rfl
  · obtain rfl := Option.some.inj hps
    exact mem_singleton.mpr rfl
  · obtain rfl := Option.some.inj hp
    exact ⟨(10, 19), rfl, by decide, (10, 19), mem_singleton.mpr rfl, by decide⟩
  · obtain rfl := Option.some.inj hbs
    exact mem_singleton.mpr rfl

theorem regionIs_built (n : Int) : Built [regionField] (fromPredicate (regionIs n) [regionField]) := by
  refine .inl ⟨regionIs n, .leaf ⟨⟨regionField, rfl, rfl⟩, fun l hl => ?_, rfl, nofun, nofun⟩,
    .leaf nofun, rfl⟩
  obtain rfl := mem_singleton.mp hl
  rfl

theorem regionSnapshot_sameFile : SameFile (snapshotEntries [regionBase] [regionDelta]) := by
  unfold SameFile
  decide +kernel

def priceField : DataField := ⟨"price", ⟨.double, true⟩⟩

/-- `5.0`, `10.0` and `20.0` -/
def five : Datum := .double 0x4014000000000000#64
def ten : Datum := .double 0x4024000000000000#64
def twenty : Datum := .double 0x4034000000000000#64
def notANumber : Datum := .double 0x7FF8000000000000#64

def cheapFile (kind : FileKind) : ScanEntry := fileEntry kind (partitionOf five .double) 0 "cheap" 0
def dearFile : ScanEntry := fileEntry .add (partitionOf twenty .double) 0 "dear" 10

def priceBase : ManifestFile where
  metadata := { numAddedFiles := 2, numDeletedFiles := 0
                partitionStats := partitionBounds five twenty .double }
  blocks := [[cheapFile .add, dearFile]]

def priceDelta : ManifestFile where
  metadata := { numAddedFiles := 0, numDeletedFiles := 1
                partitionStats := partitionBounds five five .double }
  blocks := [[cheapFile .delete]]

/-- `price NOT BETWEEN NaN AND 10.0` -/
def priceScan : ScanFilters where
  partitionFilter := some (fromPredicate
    (.leaf "price" 0 ⟨.double, true⟩ .notBetween [notANumber, ten]) [priceField])
  partitionFields := [priceField]

end Paimon.Scan
