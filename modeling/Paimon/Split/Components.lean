import Paimon.Lib.Traverse
import Paimon.Split.Planning

/-!
# Sections are connected components

`interval_partition` of `table/merge_tree_split_generator.rs` over files whose key ranges decode: the
sections are the connected components of the overlap of key ranges (`interval_partition_components`).
A range that is missing, cannot be decoded or is inverted makes one section of all files.
-/

namespace Paimon

/-- both ends of the key range decode, and the range is not inverted -/
def Decodes (comparator : KeyComparator) (file : DataFileMeta) : Prop :=
  ∃ min max, comparator.decode file.minKey = some min ∧ comparator.decode file.maxKey = some max ∧
    compareDecoded min max ≠ .gt

/-- the key range of `f` ends below the key range of `g` -/
def RangeBelow (comparator : KeyComparator) (f g : DataFileMeta) : Prop :=
  ∃ fmax gmin, comparator.decode f.maxKey = some fmax ∧ comparator.decode g.minKey = some gmin ∧
    compareDecoded fmax gmin = .lt

section
variable {comparator : KeyComparator} {files : List DataFileMeta}

theorem decodeRange_isSome {f : DataFileMeta} :
    (∃ k, decodeRange comparator f = some k) ↔ Decodes comparator f := by
  constructor
  · rintro ⟨k, hk⟩
    have hfile := decodeRange_file hk
    exact ⟨k.min, k.max, hfile ▸ k.minKey, hfile ▸ k.maxKey, k.ordered⟩
  · rintro ⟨min, max, hmin, hmax, hle⟩
    unfold decodeRange
    split
    · next min' max' hmin' hmax' =>
      obtain rfl := Option.some.inj (hmin.symm.trans hmin')
      obtain rfl := Option.some.inj (hmax.symm.trans hmax')
      exact ⟨_, dif_pos hle⟩
    · next hnone => exact absurd hmax (hnone min max hmin)

theorem decodeAll_isSome :
    (∃ keyed, decodeAll comparator files = some keyed) ↔ ∀ f ∈ files, Decodes comparator f := by
  unfold decodeAll
  rw [Traverse.option_mapM_isSome]
  exact forall₂_congr fun f _ => decodeRange_isSome

theorem KeyedFile.rank_le (a : KeyedFile comparator) : keyRank a.min ≤ keyRank a.max := by
  have h := a.ordered
  rw [compareDecoded_eq (decode_typed a.minKey) (decode_typed a.maxKey)] at h
  exact compare_le_iff_le.mp h

theorem KeyedFile.inRange_of {a : KeyedFile comparator} {k : DecodedKey} (hk : comparator.Typed k)
    (hmin : keyRank a.min ≤ keyRank k) (hmax : keyRank k ≤ keyRank a.max) : inRange a.min a.max k := by
  constructor
  · rw [compareDecoded_eq (decode_typed a.minKey) hk]
    exact compare_le_iff_le.mpr hmin
  · rw [compareDecoded_eq hk (decode_typed a.maxKey)]
    exact compare_le_iff_le.mpr hmax

theorem intersect_of_meets (a b : KeyedFile comparator)
    (h : Sections.Meets keyRank KeyedFile.min KeyedFile.max a b) :
    RangesIntersect comparator a.file b.file := by
  obtain ⟨hab, hba⟩ := h
  obtain hle | hle := le_total (keyRank a.min) (keyRank b.min)
  · have hk := decode_typed b.minKey
    exact ⟨a.min, a.max, b.min, b.max, b.min, a.minKey, a.maxKey, b.minKey, b.maxKey, hk,
      KeyedFile.inRange_of hk hle hba, KeyedFile.inRange_of hk (le_refl _) b.rank_le⟩
  · have hk := decode_typed a.minKey
    exact ⟨a.min, a.max, b.min, b.max, a.min, a.minKey, a.maxKey, b.minKey, b.maxKey, hk,
      KeyedFile.inRange_of hk (le_refl _) a.rank_le, KeyedFile.inRange_of hk hle hab⟩

theorem rangeBelow_of_lt {a b : KeyedFile comparator} (h : keyRank a.max < keyRank b.min) :
    RangeBelow comparator a.file b.file := by
  refine ⟨a.max, b.min, a.maxKey, b.minKey, ?_⟩
  rw [compareDecoded_eq (decode_typed a.maxKey) (decode_typed b.minKey)]
  exact compare_lt_iff_lt.mpr h

end

/-- **Sections are the connected components of the overlap of key ranges.**  If every range decodes, the
sections hold the input files, the ranges of an earlier section lie below those of a later one, and any two
files of a section are linked by a chain of its files whose ranges intersect.  Otherwise all files are one
section. -/
theorem interval_partition_components (comparator : KeyComparator) (files : List DataFileMeta)
    (hlen : 2 ≤ files.length) :
    ((∀ f ∈ files, Decodes comparator f) → (intervalPartition files comparator).flatten.Perm files ∧
      Sections.Separated (RangeBelow comparator) (intervalPartition files comparator) ∧
      ∀ group ∈ intervalPartition files comparator, Sections.Linked (RangesIntersect comparator) group) ∧
    ((∃ f ∈ files, ¬ Decodes comparator f) → intervalPartition files comparator = [files]) := by
  refine ⟨fun h => ⟨intervalPartition_perm files comparator, ?_⟩, ?_⟩
  · obtain ⟨keyed, hkeyed⟩ := decodeAll_isSome.mpr h
    set sorted := keyed.insertionSort fun a b => KeyedFile.le a b = true with hsorted
    have hparts : intervalPartition files comparator =
        (Sections.sections compareDecoded KeyedFile.min KeyedFile.max sorted).map
          (List.map KeyedFile.file) := by
      unfold intervalPartition
      rw [if_neg (by omega), hkeyed]
    have htyped : ∀ x ∈ sorted, comparator.Typed x.min ∧ comparator.Typed x.max ∧
        keyRank x.min ≤ keyRank x.max := fun x _ =>
      ⟨decode_typed x.minKey, decode_typed x.maxKey, x.rank_le⟩
    have horder := insertionSort_sorted (fun f => f) keyed
    rw [hparts]
    constructor
    · have hsep := Sections.sections_separated (keyRanked comparator)
        (fun x hx => ⟨(htyped x hx).1, (htyped x hx).2.1⟩) horder
      unfold Sections.Separated
      rw [List.pairwise_map]
      refine hsep.imp fun {S T} hST f hf g hg => ?_
      obtain ⟨x, hx, rfl⟩ := List.mem_map.mp hf
      obtain ⟨y, hy, rfl⟩ := List.mem_map.mp hg
      exact rangeBelow_of_lt (hST x hx y hy)
    · intro group hgroup
      obtain ⟨S, hS, rfl⟩ := List.mem_map.mp hgroup
      exact (Sections.sections_linked (keyRanked comparator) htyped horder S hS).map intersect_of_meets
  · rintro ⟨f, hf, hfail⟩
    unfold intervalPartition
    rw [if_neg (by omega)]
    split
    · rfl
    · next keyed hkeyed => exact absurd (decodeAll_isSome.mp ⟨keyed, hkeyed⟩ f hf) hfail

theorem interval_partition_touching :
    Sections.Separated (RangeBelow intComparator) (intervalPartition touchingFiles intComparator) ∧
    (intervalPartition touchingFiles intComparator).map (List.map DataFileMeta.fileName) =
      [["a", "b"], ["c"]] ∧
    intervalPartition [intFile "a" 0 5 1, intFile "b" 0 7 8] intComparator =
      [[intFile "a" 0 5 1, intFile "b" 0 7 8]] := by
  have hdecodes : ∀ f ∈ touchingFiles, Decodes intComparator f := by
    intro f hf
    refine decodeRange_isSome.mp (Option.isSome_iff_exists.mp ?_)
    revert f hf
    decide +kernel
  refine ⟨((interval_partition_components intComparator touchingFiles (by decide)).1 hdecodes).2.1,
    by decide +kernel, ?_⟩
  -- the range of `a` is inverted
  refine (interval_partition_components intComparator _ (by decide)).2
    ⟨intFile "a" 0 5 1, List.mem_cons_self, fun hcon => ?_⟩
  have hnone : (decodeRange intComparator (intFile "a" 0 5 1)).isSome = false := by decide +kernel
  rw [Option.isSome_iff_exists.mpr (decodeRange_isSome.mpr hcon)] at hnone
  exact absurd hnone Bool.true_eq_false_eq_False

end Paimon
