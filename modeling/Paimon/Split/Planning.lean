import Paimon.Split.MergeTree

/-!
# A split holds all versions of its keys

* `KeyRanges`: the keys in the range of a file: between the decoded ends where they decode, whatever the
  range is where they do not;
* `LevelsDisjoint`: the invariant of a merge tree: files of one level other than 0 share no key;
* `sections_apart`: sections share no key, on all three paths of `intervalPartition`;
* `splits_keep_versions`: the main result.
-/

namespace Paimon

open List

/-! ## ranges of keys -/

def inRange (min max k : DecodedKey) : Prop :=
  compareDecoded min k ≠ .gt ∧ compareDecoded k max ≠ .gt

/-- what the range of each file covers -/
structure KeyRanges (comparator : KeyComparator) where
  covers : DataFileMeta → DecodedKey → Prop
  decoded : ∀ f min max, comparator.decode f.minKey = some min →
    comparator.decode f.maxKey = some max →
    ∀ k, comparator.Typed k → (covers f k ↔ inRange min max k)
  congr : ∀ f k k', comparator.Typed k → comparator.Typed k' → compareDecoded k k' = .eq →
    covers f k → covers f k'

/-- the decoded ranges of two files have a key in common -/
def RangesIntersect (comparator : KeyComparator) (f g : DataFileMeta) : Prop :=
  ∃ fmin fmax gmin gmax k, comparator.decode f.minKey = some fmin ∧
    comparator.decode f.maxKey = some fmax ∧ comparator.decode g.minKey = some gmin ∧
    comparator.decode g.maxKey = some gmax ∧ comparator.Typed k ∧ inRange fmin fmax k ∧
    inRange gmin gmax k

/-- files of one level other than 0 have disjoint key ranges -/
def LevelsDisjoint {comparator : KeyComparator} (ranges : KeyRanges comparator)
    (files : List DataFileMeta) : Prop :=
  files.Pairwise fun f g => f.level = g.level → f.level ≠ 0 →
    ∀ k, comparator.Typed k → ¬(ranges.covers f k ∧ ranges.covers g k)

/-- the rows of a file: keys in its range, no two of them equal -/
structure UniqueKeys {comparator : KeyComparator} (ranges : KeyRanges comparator)
    (rowKeys : DataFileMeta → List DecodedKey) (f : DataFileMeta) : Prop where
  typed : ∀ k ∈ rowKeys f, comparator.Typed k
  covered : ∀ k ∈ rowKeys f, ranges.covers f k
  unique : (rowKeys f).Pairwise fun k k' => compareDecoded k k' ≠ .eq

section
variable {comparator : KeyComparator} {ranges : KeyRanges comparator}

variable (ranges) in
theorem covers_of_intersect {f g : DataFileMeta} (h : RangesIntersect comparator f g) :
    ∃ k, comparator.Typed k ∧ ranges.covers f k ∧ ranges.covers g k := by
  obtain ⟨fmin, fmax, gmin, gmax, k, hfmin, hfmax, hgmin, hgmax, hk, hf, hg⟩ := h
  exact ⟨k, hk, (ranges.decoded f _ _ hfmin hfmax k hk).mpr hf,
    (ranges.decoded g _ _ hgmin hgmax k hk).mpr hg⟩

theorem not_intersect_of_lt {f g : KeyedFile comparator}
    (h : keyRank f.max < keyRank g.min) : ¬RangesIntersect comparator f.file g.file := by
  rintro ⟨fmin, fmax, gmin, gmax, k, hfmin, hfmax, hgmin, hgmax, hk, hf, hg⟩
  cases f.maxKey.symm.trans hfmax
  cases g.minKey.symm.trans hgmin
  have h1 : keyRank k ≤ keyRank f.max := by
    have := hf.2
    rw [compareDecoded_eq hk (decode_typed hfmax)] at this
    exact compare_le_iff_le.mp this
  have h2 : keyRank g.min ≤ keyRank k := by
    have := hg.1
    rw [compareDecoded_eq (decode_typed hgmin) hk] at this
    exact compare_le_iff_le.mp this
  exact absurd (h2.trans h1) (not_le_of_gt h)

/-! ## sections -/

theorem decodeRange_file {f : DataFileMeta} {k : KeyedFile comparator}
    (h : decodeRange comparator f = some k) : k.file = f := by
  unfold decodeRange at h
  split at h
  · split at h
    · cases h
      rfl
    · cases h
  · cases h

variable {files : List DataFileMeta}

theorem decodeAll_files {keyed : List (KeyedFile comparator)}
    (h : decodeAll comparator files = some keyed) : keyed.map KeyedFile.file = files := by
  unfold decodeAll at h
  induction files generalizing keyed with
  | nil =>
    cases h
    rfl
  | cons f files ih =>
    rw [mapM_cons] at h
    obtain ⟨k, hk, h⟩ := Option.bind_eq_some_iff.mp h
    obtain ⟨ks, hks, h⟩ := Option.bind_eq_some_iff.mp h
    cases h
    rw [map_cons, decodeRange_file hk, ih hks]

theorem KeyedFile.le_iff (a b : KeyedFile comparator) :
    a.le b = true ↔ toLex (keyRank a.min, keyRank a.max) ≤ toLex (keyRank b.min, keyRank b.max) := by
  unfold KeyedFile.le
  rw [compareDecoded_eq (decode_typed a.minKey) (decode_typed b.minKey),
    compareDecoded_eq (decode_typed a.maxKey) (decode_typed b.maxKey), bne_iff_ne,
    Prod.Lex.toLex_le_toLex]
  rcases lt_trichotomy (keyRank a.min) (keyRank b.min) with h | h | h
  · rw [compare_lt_iff_lt.mpr h]
    exact iff_of_true (fun hc => by cases hc) (.inl h)
  · rw [compare_eq_iff_eq.mpr h]
    show compare (keyRank a.max) (keyRank b.max) ≠ .gt ↔ _
    rw [compare_le_iff_le]
    exact ⟨fun hle => .inr ⟨h, hle⟩, fun hle => (hle.resolve_left (ne_of_lt · h)).2⟩
  · rw [compare_gt_iff_gt.mpr h]
    refine iff_of_false (fun hc => hc rfl) ?_
    rintro (hlt | ⟨heq, -⟩)
    · exact lt_asymm h hlt
    · exact ne_of_gt h heq

theorem insertionSort_sorted {α : Type} (key : α → KeyedFile comparator) (keyed : List α) :
    (keyed.insertionSort fun a b => (key a).le (key b) = true).Pairwise fun x y =>
      keyRank (key x).min ≤ keyRank (key y).min := by
  have htrans : IsTrans α fun a b => (key a).le (key b) = true :=
    ⟨fun a b c hab hbc => by
      rw [KeyedFile.le_iff] at hab hbc ⊢
      exact hab.trans hbc⟩
  have htotal : Std.Total fun a b : α => (key a).le (key b) = true :=
    ⟨fun a b => by
      rw [KeyedFile.le_iff, KeyedFile.le_iff]
      exact le_total _ _⟩
  refine (pairwise_insertionSort (fun a b => (key a).le (key b) = true) keyed).imp fun {a b} hab => ?_
  rcases Prod.Lex.toLex_le_toLex.mp ((KeyedFile.le_iff (key a) (key b)).mp hab) with h | h
  · exact h.le
  · exact le_of_eq h.1

theorem intervalPartition_perm (files : List DataFileMeta) (comparator : KeyComparator) :
    (intervalPartition files comparator).flatten.Perm files := by
  unfold intervalPartition
  split
  · split
    · rename_i h
      rw [List.isEmpty_iff.mp h]
      exact List.Perm.nil
    · rw [flatten_singleton]
  split
  · rw [flatten_singleton]
  · rename_i keyed hkeyed
    rw [← map_flatten, Sections.sections_flatten]
    have hperm := (perm_insertionSort (fun a b => KeyedFile.le a b = true) keyed).map KeyedFile.file
    rw [decodeAll_files hkeyed] at hperm
    exact hperm

/-- **No key is in the ranges of two sections.** -/
theorem sections_apart (files : List DataFileMeta) (comparator : KeyComparator) :
    Sections.Separated (fun f g => ¬RangesIntersect comparator f g) (intervalPartition files comparator) := by
  unfold intervalPartition
  split
  · split
    · exact List.Pairwise.nil
    · exact pairwise_singleton _ _
  split
  · exact pairwise_singleton _ _
  · rename_i keyed hkeyed
    have htyped : ∀ x ∈ keyed.insertionSort fun a b => KeyedFile.le a b = true,
        comparator.Typed x.min ∧ comparator.Typed x.max := fun x _ =>
      ⟨decode_typed x.minKey, decode_typed x.maxKey⟩
    have hsections := Sections.sections_separated (keyRanked comparator) htyped
      (insertionSort_sorted (fun f => f) keyed)
    unfold Sections.Separated
    rw [pairwise_map]
    refine hsections.imp fun {S T} hST f hf g hg => ?_
    obtain ⟨x, hx, rfl⟩ := mem_map.mp hf
    obtain ⟨y, hy, rfl⟩ := mem_map.mp hg
    exact not_intersect_of_lt (hST x hx y hy)

/-! ## splits -/

theorem level_of_oneLevel (h : oneLevel files = true)
    {f g : DataFileMeta} (hf : f ∈ files) (hg : g ∈ files) : f.level = g.level := by
  obtain ⟨l, hl⟩ := length_eq_one_iff.mp (beq_iff_eq.mp h)
  have hmem : ∀ e ∈ files, e.level = l := by
    intro e he
    have : e.level ∈ (files.map DataFileMeta.level).dedup :=
      mem_dedup.mpr (mem_map_of_mem he)
    rw [hl] at this
    exact mem_singleton.mp this
  rw [hmem f hf, hmem g hg]

theorem notPositive_of_withoutDeleteRow {f : DataFileMeta} (h : withoutDeleteRow f = true) {n : Int}
    (hn : f.deleteRowCount = some n) : ¬0 < n := by
  rw [withoutDeleteRow, hn] at h
  rw [beq_iff_eq.mp h]
  exact lt_irrefl 0

theorem disjoint_of_fast (hlevel : LevelsDisjoint ranges files)
    (hraw : (files.all fun f => f.level != 0 && withoutDeleteRow f) = true)
    (hone : oneLevel files = true) :
    files.Pairwise fun f g => ∀ k, comparator.Typed k → ¬(ranges.covers f k ∧ ranges.covers g k) := by
  refine hlevel.imp_of_mem fun {f g} hf hg h => ?_
  have hne := (Bool.and_eq_true_iff.mp (all_eq_true.mp hraw f hf)).1
  exact h (level_of_oneLevel hone hf hg) (bne_iff_ne.mp hne)

theorem unique_of_disjoint {rowKeys : DataFileMeta → List DecodedKey}
    (hkeys : ∀ f ∈ files, UniqueKeys ranges rowKeys f)
    (h : files.Pairwise fun f g => ∀ k, comparator.Typed k → ¬(ranges.covers f k ∧ ranges.covers g k)) :
    (files.flatMap rowKeys).Pairwise fun k k' => compareDecoded k k' ≠ .eq := by
  rw [List.flatMap, pairwise_flatten]
  constructor
  · intro ks hks
    obtain ⟨f, hf, rfl⟩ := mem_map.mp hks
    exact (hkeys f hf).unique
  · rw [pairwise_map]
    refine h.imp_of_mem fun {f g} hf hg hfg k hk k' hk' heq => ?_
    have htk := (hkeys f hf).typed k hk
    have htk' := (hkeys g hg).typed k' hk'
    exact hfg k' htk' ⟨ranges.congr f k k' htk htk' heq ((hkeys f hf).covered k hk),
      (hkeys g hg).covered k' hk'⟩

theorem packSections_flatten (sections : List (List DataFileMeta)) (targetSplitSize openFileCost : Int) :
    (packSections sections targetSplitSize openFileCost).flatten = sections.flatten := by
  unfold packSections packForOrdered
  rw [← flatten_flatten, Sections.pack_flatten]

theorem map_files (groups : List (List DataFileMeta)) (raw : List DataFileMeta → Bool) :
    (groups.map fun files => SplitGroup.mk files (raw files)).map SplitGroup.files = groups := by
  rw [map_map]
  exact map_id _

/-- **Main result.**  The groups hold the input files, files with a common key are in one group,
and a group marked raw convertible has no delete rows and at most one row for each key. -/
theorem splits_keep_versions (comparator : KeyComparator) (ranges : KeyRanges comparator)
    (rowKeys : DataFileMeta → List DecodedKey) (files : List DataFileMeta)
    (targetSplitSize openFileCost : Int) (fileKeysUnique : Bool)
    (hlevel : LevelsDisjoint ranges files) :
    ((mergeTreeSplitForBatch files comparator targetSplitSize openFileCost fileKeysUnique).map
      SplitGroup.files).flatten.Perm files ∧
    Sections.Separated (fun f g => ¬RangesIntersect comparator f g)
      ((mergeTreeSplitForBatch files comparator targetSplitSize openFileCost fileKeysUnique).map
        SplitGroup.files) ∧
    ∀ group ∈ mergeTreeSplitForBatch files comparator targetSplitSize openFileCost fileKeysUnique,
      group.rawConvertible = true →
      (∀ f ∈ group.files, ∀ n, f.deleteRowCount = some n → ¬0 < n) ∧
      ((∀ f ∈ files, UniqueKeys ranges rowKeys f) →
        (group.files.flatMap rowKeys).Pairwise fun k k' => compareDecoded k k' ≠ .eq) := by
  unfold mergeTreeSplitForBatch
  dsimp only
  split
  · rename_i hfast
    obtain ⟨hraw, hone⟩ := Bool.and_eq_true_iff.mp hfast
    have hdisjoint := disjoint_of_fast hlevel hraw hone
    have hflat : (packForOrdered files (fun f => max f.fileSize openFileCost)
        targetSplitSize).flatten = files := Sections.pack_flatten _ _ _ _
    rw [map_files]
    refine ⟨by rw [hflat], ?_, ?_⟩
    · apply Sections.Separated.of_pairwise
      rw [hflat]
      refine hdisjoint.imp fun {f g} h hcommon => ?_
      obtain ⟨k, hk, hf, hg⟩ := covers_of_intersect ranges hcommon
      exact h k hk ⟨hf, hg⟩
    · intro group hgroup _
      obtain ⟨bin, hbin, rfl⟩ := mem_map.mp hgroup
      have hsub : bin.Sublist files := by
        have := sublist_flatten_of_mem hbin
        rw [hflat] at this
        exact this
      constructor
      · intro f hf n hn
        have hclean := all_eq_true.mp hraw f (hsub.subset hf)
        exact notPositive_of_withoutDeleteRow (Bool.and_eq_true_iff.mp hclean).2 hn
      · intro hkeys
        exact unique_of_disjoint (fun f hf => hkeys f (hsub.subset hf)) (hdisjoint.sublist hsub)
  · have hperm : (packSections (intervalPartition files comparator) targetSplitSize
        openFileCost).flatten.Perm files := by
      rw [packSections_flatten]
      exact intervalPartition_perm files comparator
    rw [map_files]
    refine ⟨hperm, (sections_apart files comparator).pack _ _ _, ?_⟩
    intro group hgroup hraw
    obtain ⟨bin, hbin, rfl⟩ := mem_map.mp hgroup
    -- a raw group is one file
    obtain ⟨hraw, hclean⟩ := Bool.and_eq_true_iff.mp hraw
    obtain ⟨f, rfl⟩ := length_eq_one_iff.mp (beq_iff_eq.mp (Bool.and_eq_true_iff.mp hraw).2)
    have hf : f ∈ files := hperm.subset (mem_flatten.mpr ⟨[f], hbin, mem_cons_self⟩)
    constructor
    · intro g hg n hn
      exact notPositive_of_withoutDeleteRow (all_eq_true.mp hclean g hg) hn
    · intro hkeys
      show ([f].flatMap rowKeys).Pairwise _
      rw [flatMap_singleton]
      exact (hkeys f hf).unique

end

/-! ## a bucket with an INT key -/

/-- ranges of files that decode; a range that does not decode is empty -/
def decodedRanges (comparator : KeyComparator) : KeyRanges comparator where
  covers := fun f k => ∃ min max, comparator.decode f.minKey = some min ∧
    comparator.decode f.maxKey = some max ∧ inRange min max k
  decoded := by
    intro f min max hmin hmax k _
    constructor
    · rintro ⟨min', max', hmin', hmax', h⟩
      cases hmin.symm.trans hmin'
      cases hmax.symm.trans hmax'
      exact h
    · intro h
      exact ⟨min, max, hmin, hmax, h⟩
  congr := by
    rintro f k k' hk hk' heq ⟨min, max, hmin, hmax, h1, h2⟩
    have hrank : keyRank k = keyRank k' := by
      rw [compareDecoded_eq hk hk'] at heq
      exact compare_eq_iff_eq.mp heq
    refine ⟨min, max, hmin, hmax, ?_, ?_⟩
    · rw [compareDecoded_eq (decode_typed hmin) hk] at h1
      rw [compareDecoded_eq (decode_typed hmin) hk', ← hrank]
      exact h1
    · rw [compareDecoded_eq hk (decode_typed hmax)] at h2
      rw [compareDecoded_eq hk' (decode_typed hmax), ← hrank]
      exact h2

def intComparator : KeyComparator := ⟨[.int], fun _ _ => true⟩

def intKey (n : UInt8) : Bytes :=
  [0, 0, 0, 1] ++ [0, 0, 0, 0, 0, 0, 0, 0] ++ [n, 0, 0, 0, 0, 0, 0, 0]

def intFile (name : String) (level : Int) (low high : UInt8) : DataFileMeta :=
  { fileName := name, fileSize := 10, rowCount := 2, minKey := intKey low, maxKey := intKey high,
    level := level }

def touchingFiles : List DataFileMeta :=
  [intFile "c" 1 7 9, intFile "a" 0 1 5, intFile "b" 0 5 6]

theorem splits_of_touching : LevelsDisjoint (decodedRanges intComparator) touchingFiles ∧
    (mergeTreeSplitForBatch touchingFiles intComparator 1 1 true).map
      (fun g => (g.files.map DataFileMeta.fileName, g.rawConvertible)) =
      [(["a", "b"], false), (["c"], true)] ∧
    Sections.Separated (fun f g => ¬RangesIntersect intComparator f g)
      ((mergeTreeSplitForBatch touchingFiles intComparator 1 1 true).map SplitGroup.files) := by
  have hlevel : LevelsDisjoint (decodedRanges intComparator) touchingFiles := by
    unfold LevelsDisjoint touchingFiles
    simp [intFile]
  refine ⟨hlevel, by decide +kernel, ?_⟩
  exact (splits_keep_versions intComparator (decodedRanges intComparator) (fun _ => [])
    touchingFiles 1 1 true hlevel).2.1

end Paimon
