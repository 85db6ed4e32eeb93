import Paimon.Lib.RunPacking
import Paimon.Split.Components

/-!
# Packing files into sorted runs

`pack_sorted_runs_by` of `table/merge_tree_split_generator.rs`: payloads whose files have key ranges are
packed into runs that can be read by concatenation (`RunPacking.pack`).  An undecodable range, or a run
that the final check does not accept, means one payload per run.

`pack_sorted_runs_optimal`: if every range decodes the runs are an optimal interval colouring, and the
final check accepts them.
-/

namespace Paimon

open List

section
variable {T : Type}

def singletonRuns (items : List T) : List (List T) := items.map fun item => [item]

def decodeItems (comparator : KeyComparator) (fileMeta : T → DataFileMeta) (items : List T) :
    Option (List (T × KeyedFile comparator)) :=
  (items.mapM fun item => decodeRange comparator (fileMeta item)).map items.zip

def greedyRuns {comparator : KeyComparator} (keyed : List (T × KeyedFile comparator)) : List (List T) :=
  (RunPacking.pack compareDecoded (fun p => p.2.min) (fun p => p.2.max)
    (keyed.insertionSort fun a b => a.2.le b.2 = true)).map fun run => run.1.map Prod.fst

/-- the previous maximum is strictly less than the next minimum -/
def pairSound (comparator : KeyComparator) (previous next : DataFileMeta) : Bool :=
  match comparator.decode previous.maxKey, comparator.decode next.minKey with
  | some previousMax, some nextMin => compareDecoded previousMax nextMin == .lt
  | _, _ => false

/-- `run.windows(2).all(..)` -/
def runSound (comparator : KeyComparator) (fileMeta : T → DataFileMeta) : List T → Bool
  | a :: b :: rest =>
    pairSound comparator (fileMeta a) (fileMeta b) && runSound comparator fileMeta (b :: rest)
  | _ => true

def packSortedRunsBy (items : List T) (comparator : KeyComparator) (fileMeta : T → DataFileMeta) :
    List (List T) :=
  if items.length ≤ 1 then if items.isEmpty then [] else [items]
  else
    match decodeItems comparator fileMeta items with
    | none => singletonRuns items
    | some keyed =>
      let runs := greedyRuns keyed
      if runs.all (runSound comparator fileMeta) then runs else singletonRuns runs.flatten

def packSortedRuns (files : List DataFileMeta) (comparator : KeyComparator) : List (List DataFileMeta) :=
  packSortedRunsBy files comparator id

/-- the payloads whose key range holds the key -/
def overlapDepth (comparator : KeyComparator) (fileMeta : T → DataFileMeta) (items : List T)
    (key : DecodedKey) : Nat :=
  items.countP fun item =>
    match comparator.decode (fileMeta item).minKey, comparator.decode (fileMeta item).maxKey with
    | some min, some max => compareDecoded min key != .gt && compareDecoded key max != .gt
    | _, _ => false

variable {comparator : KeyComparator} {fileMeta : T → DataFileMeta} {items : List T}
  {keyed : List (T × KeyedFile comparator)}

theorem decodeItems_spec (h : decodeItems comparator fileMeta items = some keyed) :
    keyed.map Prod.fst = items ∧ ∀ p ∈ keyed, p.2.file = fileMeta p.1 := by
  obtain ⟨ranges, hranges, rfl⟩ := Option.map_eq_some_iff.mp h
  have hall := Traverse.option_mapM.mp hranges
  refine ⟨map_fst_zip hall.length_eq.le, fun p hp => ?_⟩
  exact decodeRange_file (forall₂_iff_zip.mp hall |>.2 hp)

theorem decodeItems_isSome : (∃ keyed, decodeItems comparator fileMeta items = some keyed) ↔
      ∀ item ∈ items, Decodes comparator (fileMeta item) := by
  unfold decodeItems
  simp only [Option.map_eq_some_iff]
  constructor
  · rintro ⟨-, ranges, hranges, -⟩ item hitem
    exact decodeRange_isSome.mp (Traverse.option_mapM_isSome.mp ⟨ranges, hranges⟩ item hitem)
  · intro h
    obtain ⟨ranges, hranges⟩ := Traverse.option_mapM_isSome.mpr fun item hitem =>
      decodeRange_isSome.mpr (h item hitem)
    exact ⟨_, ranges, hranges, rfl⟩

/-! ## the loop on decoded ranges -/

/-- the payloads sorted by their ranges, as the loop takes them -/
def sortKeyed (keyed : List (T × KeyedFile comparator)) : List (T × KeyedFile comparator) :=
  keyed.insertionSort fun a b => a.2.le b.2 = true

theorem sortKeyed_perm (keyed : List (T × KeyedFile comparator)) : (sortKeyed keyed).Perm keyed :=
  perm_insertionSort _ keyed

theorem sortKeyed_sorted (keyed : List (T × KeyedFile comparator)) :
    (sortKeyed keyed).Pairwise fun x y => keyRank x.2.min ≤ keyRank y.2.min :=
  insertionSort_sorted Prod.snd keyed

theorem keyed_item (p : T × KeyedFile comparator) :
    RunPacking.Item comparator.Typed keyRank (fun p : T × KeyedFile comparator => p.2.min)
      (fun p => p.2.max) p :=
  ⟨decode_typed p.2.minKey, decode_typed p.2.maxKey, p.2.rank_le⟩

theorem greedy_packed (keyed : List (T × KeyedFile comparator)) :
    RunPacking.Packed keyRank (fun p : T × KeyedFile comparator => p.2.min) (fun p => p.2.max)
      (RunPacking.pack compareDecoded (fun p : T × KeyedFile comparator => p.2.min) (fun p => p.2.max)
        (sortKeyed keyed)) (sortKeyed keyed) :=
  (RunPacking.pack_inv (keyRanked comparator) (fun p _ => keyed_item p) (sortKeyed_sorted keyed)).1

theorem greedyRuns_perm (keyed : List (T × KeyedFile comparator)) :
    (greedyRuns keyed).flatten.Perm (keyed.map Prod.fst) := by
  have hperm := ((greedy_packed keyed).perm.trans (sortKeyed_perm keyed)).map Prod.fst
  rw [map_flatten, map_map] at hperm
  exact hperm

theorem greedyRuns_chain (hfile : ∀ p ∈ keyed, p.2.file = fileMeta p.1) : ∀ run ∈ greedyRuns keyed,
      run.Pairwise fun a b => RangeBelow comparator (fileMeta a) (fileMeta b) := by
  intro run hrun
  obtain ⟨r, hr, rfl⟩ := mem_map.mp hrun
  rw [pairwise_map]
  refine ((greedy_packed keyed).below r hr).imp_of_mem fun {a b} ha hb hab => ?_
  have hmem : ∀ p ∈ r.1, p.2.file = fileMeta p.1 := fun p hp =>
    hfile p ((sortKeyed_perm keyed).mem_iff.mp ((greedy_packed keyed).mem_seen hr hp))
  rw [← hmem a ha, ← hmem b hb]
  exact rangeBelow_of_lt hab

theorem pairSound_of_below {f g : DataFileMeta} (h : RangeBelow comparator f g) :
    pairSound comparator f g = true := by
  obtain ⟨fmax, gmin, hf, hg, hlt⟩ := h
  unfold pairSound
  rw [hf, hg]
  exact beq_iff_eq.mpr hlt

theorem runSound_of_chain {run : List T}
    (h : run.Pairwise fun a b => RangeBelow comparator (fileMeta a) (fileMeta b)) :
    runSound comparator fileMeta run = true := by
  induction run with
  | nil => rfl
  | cons a run ih =>
    obtain ⟨ha, hrun⟩ := pairwise_cons.mp h
    cases run with
    | nil => rfl
    | cons b rest =>
      rw [runSound, Bool.and_eq_true]
      exact ⟨pairSound_of_below (ha b mem_cons_self), ih hrun⟩

/-- **The final check accepts the runs of the loop.** -/
theorem packSortedRunsBy_eq (h : decodeItems comparator fileMeta items = some keyed) :
    packSortedRunsBy items comparator fileMeta = greedyRuns keyed := by
  obtain ⟨hfst, hfile⟩ := decodeItems_spec h
  unfold packSortedRunsBy
  split
  · -- with at most one payload the loop has nothing to choose
    match keyed, hfst with
    | [], hfst =>
      obtain rfl : items = [] := hfst.symm
      rfl
    | [p], hfst =>
      obtain rfl : items = [p.1] := hfst.symm
      rfl
    | p :: q :: rest, hfst =>
      have := congrArg List.length hfst
      simp only [length_map, length_cons] at this
      omega
  · rw [h]
    refine if_pos (all_eq_true.mpr fun run hrun => ?_)
    exact runSound_of_chain (greedyRuns_chain hfile run hrun)

/-! ## depth -/

theorem overlapDepth_eq (h : decodeItems comparator fileMeta items = some keyed) {k : DecodedKey}
    (hk : comparator.Typed k) :
    overlapDepth comparator fileMeta items k =
      (sortKeyed keyed).countP (RunPacking.covers keyRank (fun p : T × KeyedFile comparator => p.2.min)
        (fun p => p.2.max) (keyRank k)) := by
  obtain ⟨hfst, hfile⟩ := decodeItems_spec h
  rw [(sortKeyed_perm keyed).countP_eq, overlapDepth, ← hfst, countP_map]
  refine countP_congr fun p hp => ?_
  dsimp only [Function.comp]
  rw [← hfile p hp, p.2.minKey, p.2.maxKey]
  dsimp only
  rw [compareDecoded_eq (decode_typed p.2.minKey) hk, compareDecoded_eq hk (decode_typed p.2.maxKey),
    Bool.and_eq_true, bne_iff_ne, bne_iff_ne, compare_le_iff_le, compare_le_iff_le]
  exact decide_eq_true_iff.symm

end

/-- **The runs are an optimal interval colouring.**  If every range decodes, the runs of the loop are
returned; they hold the input, in a run every file ends below the next, and there are as many as ranges
that hold one key, at most. -/
theorem pack_sorted_runs_optimal {T : Type} (comparator : KeyComparator) (fileMeta : T → DataFileMeta)
    (items : List T) (h : ∀ item ∈ items, Decodes comparator (fileMeta item)) :
    (∃ keyed, decodeItems comparator fileMeta items = some keyed ∧
      (greedyRuns keyed).all (runSound comparator fileMeta) = true ∧
      packSortedRunsBy items comparator fileMeta = greedyRuns keyed) ∧
    (packSortedRunsBy items comparator fileMeta).flatten.Perm items ∧
    (∀ run ∈ packSortedRunsBy items comparator fileMeta,
      run.Pairwise fun a b => RangeBelow comparator (fileMeta a) (fileMeta b)) ∧
    IsGreatest {n | ∃ key, comparator.Typed key ∧ n = overlapDepth comparator fileMeta items key}
      (packSortedRunsBy items comparator fileMeta).length := by
  obtain ⟨keyed, hkeyed⟩ := decodeItems_isSome.mpr h
  obtain ⟨hfst, hfile⟩ := decodeItems_spec hkeyed
  have hchain := greedyRuns_chain hfile
  rw [packSortedRunsBy_eq hkeyed]
  refine ⟨⟨keyed, hkeyed, ?_, rfl⟩, hfst ▸ greedyRuns_perm keyed, hchain, ?_, ?_⟩
  · exact all_eq_true.mpr fun run hrun => runSound_of_chain (hchain run hrun)
  all_goals
    obtain ⟨hle, hex⟩ := RunPacking.pack_depth (keyRanked comparator)
      (fun p (_ : p ∈ sortKeyed keyed) => keyed_item p) (sortKeyed_sorted keyed)
    have hlen : (greedyRuns keyed).length = (RunPacking.pack compareDecoded
        (fun p : T × KeyedFile comparator => p.2.min) (fun p => p.2.max) (sortKeyed keyed)).length :=
      length_map _
    rw [hlen]
  · obtain hnil | ⟨p, hp, heq⟩ := hex
    · -- no payload: a key of NULLs has depth 0
      have htyped : comparator.Typed (comparator.keyTypes.map fun _ => none) := by
        unfold KeyComparator.Typed
        rw [forall₂_map_right_iff]
        exact forall₂_same.mpr fun _ _ => trivial
      refine ⟨_, htyped, ?_⟩
      rw [overlapDepth_eq hkeyed htyped, hnil]
      rfl
    · have hk := decode_typed p.2.minKey
      exact ⟨p.2.min, hk, by rw [overlapDepth_eq hkeyed hk]; exact heq⟩
  · rintro n ⟨k, hk, rfl⟩
    rw [overlapDepth_eq hkeyed hk]
    exact hle _

/-- two files that touch at 5 and one above them: two runs -/
theorem pack_sorted_runs_touching :
    (packSortedRuns touchingFiles intComparator).map (List.map DataFileMeta.fileName) = [["a"], ["b", "c"]] ∧
    IsGreatest {n | ∃ key, intComparator.Typed key ∧ n = overlapDepth intComparator id touchingFiles key}
      (packSortedRunsBy touchingFiles intComparator id).length := by
  refine ⟨by decide +kernel, (pack_sorted_runs_optimal intComparator id touchingFiles fun f hf => ?_).2.2.2⟩
  refine decodeRange_isSome.mp (Option.isSome_iff_exists.mp ?_)
  revert f hf
  decide +kernel

end Paimon
