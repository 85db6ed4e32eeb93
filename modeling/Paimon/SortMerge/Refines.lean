import Paimon.Lib.Traverse
import Paimon.SortMerge.Invariant
import Paimon.SortMerge.MergeFunction

/-!
# The sort-merge stream refines merging by key groups

The specification takes the rows of all streams, by stream index and then position, groups them by
key (`KeyGroups.keyGroups`), gives each group to the merge function in ascending order of the keys
and keeps the rows that are not omitted (`mergeGroups`).

`iterate_spec` is the step: one round of the outer loop consumes exactly the group of the least key
and records its result; `mergeLoop_spec` is the run.
-/

set_option linter.unusedSectionVars false

namespace Paimon.SortMerge
open KeyGroups List

variable {κ σ τ ο : Type} [LinearOrder κ] [DecidableEq τ]

/-! ## the specification -/

/-- the output row of a merge result; a materialized row is checked -/
def Config.keep (cfg : Config κ σ τ ο) : KeyResult κ σ τ ο → Result (Option ο)
  | .sourceRow row => .ok (some row.output)
  | .materializedRow batch =>
    match cfg.checkMaterialized batch with
    | .error e => .error e
    | .ok () => .ok batch.rows.head?
  | .omitKey => .ok none
  | .materializedDeleteRow _ => .ok none

def Config.mergeRows (cfg : Config κ σ τ ο) (rows : List (InputRow κ σ ο)) : Result (Option ο) :=
  cfg.mergeFunction.value rows >>= cfg.keep

/-- merge group by group up to the first error -/
def Config.mergeGroups (cfg : Config κ σ τ ο) : List (κ × List (InputRow κ σ ο)) → List ο × Option Error
  | [] => ([], none)
  | (_, rows) :: groups =>
    match cfg.mergeRows rows with
    | .error e => ([], some e)
    | .ok row => (row.toList ++ (mergeGroups cfg groups).1, (mergeGroups cfg groups).2)

/-! ## recorded rows -/

def Pending (st : State κ σ ο) (rows : List ο) : Prop :=
  List.Forall₂ (fun p o => outputRowAt st.batchBuffer p = some o) st.outputIndices rows

theorem outputRowAt_mono {buffer buffer' : List (BufferedBatch κ σ ο)} {p : Nat × Nat} {o : ο}
    (hp : buffer <+: buffer') (h : outputRowAt buffer p = some o) :
    outputRowAt buffer' p = some o := by
  unfold outputRowAt at h ⊢
  obtain ⟨b, hb, ho⟩ := Option.bind_eq_some_iff.mp h
  rw [getElem?_mono hp hb]
  exact ho

theorem outputRowAt_source {buffer : List (BufferedBatch κ σ ο)} {b r : Nat}
    {row : InputRow κ σ ο} (h : sourceRowAt buffer b r = some row) :
    outputRowAt buffer (b, r) = some row.output := by
  unfold sourceRowAt at h
  unfold outputRowAt
  split at h
  · rename_i batch hb
    rw [hb]
    show (batch[r]?).map InputRow.output = _
    rw [h]
    rfl
  · cases h

variable {rows : List ο} {st st' : State κ σ ο}

theorem Pending.mono (h : Pending st rows) (hbuf : st.batchBuffer <+: st'.batchBuffer)
    (hidx : st'.outputIndices = st.outputIndices) :
    Pending st' rows := by
  unfold Pending
  rw [hidx]
  exact h.imp fun _ _ ho => outputRowAt_mono hbuf ho

variable {st : State κ σ ο}

theorem Pending.build (h : Pending st rows) (hne : st.outputIndices ≠ []) :
    buildOutputInterleave st.batchBuffer st.outputIndices = .ok rows := by
  unfold buildOutputInterleave
  have hbuf : st.batchBuffer.isEmpty = false := by
    cases hb : st.batchBuffer with
    | cons => rfl
    | nil =>
      unfold Pending at h
      rw [hb] at h
      generalize st.outputIndices = indices at h hne
      cases h with
      | nil => exact absurd rfl hne
      | cons ho _ => simp [outputRowAt] at ho
  rw [hbuf, Traverse.option_mapM.mpr h]
  rfl

/-! ## one round -/

/-- everything but the buffer and the output indices -/
structure SameStreams (st st' : State κ σ ο) : Prop where
  streams : st'.streams = st.streams
  cursors : st'.cursors = st.cursors
  tree : st'.tree = st.tree

theorem SameStreams.rowsLeft (h : SameStreams st st') :
    (∀ i, st'.remaining i = st.remaining i) ∧ st'.numStreams = st.numStreams ∧
      st'.rowsLeft = st.rowsLeft := by
  have hr : ∀ i, st'.remaining i = st.remaining i := by
    intro i
    rw [State.remaining, State.remaining, h.cursors, h.streams]
  have hn : st'.numStreams = st.numStreams := by
    rw [State.numStreams, State.numStreams, h.tree]
  refine ⟨hr, hn, ?_⟩
  rw [State.rowsLeft, State.rowsLeft, hn]
  exact flatMap_congr fun i _ => hr i

theorem record_spec (cfg : Config κ σ τ ο) (h : Good st) (hp : Pending st rows) {result : MergeResult τ ο}
    {value : KeyResult κ σ τ ο} (ha : Agrees st.batchBuffer (.ok result) (.ok value)) :
    match cfg.keep value with
    | .error e => st.record cfg result = .error e
    | .ok row => ∃ st', st.record cfg result = .ok st' ∧ Good st' ∧ SameStreams st st' ∧
        st.batchBuffer <+: st'.batchBuffer ∧ st.outputIndices <+: st'.outputIndices ∧
        Pending st' (rows ++ row.toList) := by
  cases result with
  | sourceRow b r =>
    cases value with
    | sourceRow row =>
      refine ⟨_, rfl, ⟨h.pos, h.inRange, h.played, h.registered, h.exhausted, h.delivers⟩,
        ⟨rfl, rfl, rfl⟩, prefix_rfl, prefix_append .., ?_⟩
      exact rel_append hp (.cons (outputRowAt_source ha) .nil)
    | _ => exact ha.elim
  | materializedRow batch =>
    cases value with
    | materializedRow batch' =>
      have hb : batch = batch' := ha
      subst hb
      cases hchk : cfg.checkMaterialized batch with
      | error e => simp only [Config.keep, State.record, hchk]
      | ok _ =>
      obtain ⟨o, ho⟩ := Config.checkMaterialized_ok hchk
      simp only [Config.keep, State.record, hchk]
      refine ⟨_, rfl, ⟨h.pos, h.inRange, h.played, fun i c hc => ?_, h.exhausted, h.delivers⟩,
        ⟨rfl, rfl, rfl⟩, prefix_append .., prefix_append .., ?_⟩
      · obtain ⟨b, hb, hbuf⟩ := h.registered i c hc
        exact ⟨b, hb, getElem?_mono (prefix_append ..) hbuf⟩
      · refine rel_append (hp.imp fun _ _ hx =>
          outputRowAt_mono (prefix_append ..) hx) ?_
        rw [ho]
        refine .cons ?_ .nil
        simp [outputRowAt, BufferedBatch.rowForOutput]
    | _ => exact ha.elim
  | materializedDeleteRow batch =>
    cases value with
    | materializedDeleteRow batch' =>
      exact ⟨st, rfl, h, ⟨rfl, rfl, rfl⟩, prefix_rfl, prefix_rfl, by simpa using hp⟩
    | _ => exact ha.elim
  | omitKey =>
    cases value with
    | omitKey => exact ⟨st, rfl, h, ⟨rfl, rfl, rfl⟩, prefix_rfl, prefix_rfl, by simpa using hp⟩
    | _ => exact ha.elim

variable {cfg : Config κ σ τ ο}

theorem flushFull_spec (hb : 1 ≤ cfg.batchSize) (h : Good st) (hp : Pending st rows) :
    ∃ st' batch, st.flushFull cfg = .ok (st', batch) ∧ Good st' ∧ SameStreams st st' ∧
      ((batch = none ∧ st' = st) ∨ (batch = some rows ∧ st'.outputIndices = [])) := by
  unfold State.flushFull
  by_cases hfull : cfg.batchSize ≤ st.outputIndices.length
  · have hne : st.outputIndices ≠ [] := by
      intro hnil
      rw [hnil] at hfull
      exact absurd hfull (by simp; omega)
    rw [if_pos hfull, hp.build hne]
    have hgood : Good { st with outputIndices := [] } :=
      ⟨h.pos, h.inRange, h.played, h.registered, h.exhausted, h.delivers⟩
    exact ⟨_, _, rfl, compact_good hgood, ⟨rfl, rfl, rfl⟩, .inr ⟨rfl, rfl⟩⟩
  · rw [if_neg hfull]
    exact ⟨st, none, rfl, h, ⟨rfl, rfl, rfl⟩, .inl ⟨rfl, rfl⟩⟩

def Sorted (st : State κ σ ο) : Prop :=
  ∀ i, i < st.numStreams → ((st.remaining i).map InputRow.key).Pairwise (· ≤ ·)

variable {c : Cursor κ σ ο}

theorem Good.winner_min (h : Good st) (hs : Sorted st) (hc : st.cursors st.tree.winner = some c) {i : Nat}
    (hi : i < st.numStreams) :
    ∀ r ∈ st.remaining i, c.currentRow.key ≤ r.key := by
  intro r hr
  cases hrem : st.remaining i with
  | nil =>
    rw [hrem] at hr
    cases hr
  | cons r0 tl =>
    have hhead := h.head_ge hc hi hrem
    have hsi := hs i hi
    rw [hrem] at hr hsi
    rcases mem_cons.mp hr with rfl | hr
    · exact hhead
    · exact hhead.trans ((pairwise_cons.mp hsi).1 _ (mem_map_of_mem hr))

theorem Collected.groups {m : κ} {rows : List (MergeRow σ)} (hs : Sorted st)
    (hm : ∀ i, i < st.numStreams → ∀ r ∈ st.remaining i, m ≤ r.key) (h : Collected m st rows st') :
    leading m st = group InputRow.key st.rowsLeft m ∧
      st'.rowsLeft = others InputRow.key st.rowsLeft m ∧ Sorted st' := by
  have hseg : ∀ i ∈ List.range st.numStreams, _ := fun i hi =>
    filter_eq_takeWhile (hs i (mem_range.mp hi)) (hm i (mem_range.mp hi))
  refine ⟨?_, ?_, fun i hi => ?_⟩
  · rw [leading, group, State.rowsLeft, filter_flatMap]
    exact flatMap_congr fun i hi => (hseg i hi).1.symm
  · rw [State.rowsLeft, h.streams, others, State.rowsLeft, filter_flatMap]
    exact flatMap_congr fun i hi => by
      rw [h.remaining i (mem_range.mp hi), (hseg i hi).2]
  · rw [h.streams] at hi
    rw [h.remaining i hi]
    exact (hs i hi).sublist ((dropWhile_sublist _).map _)

/-- what a round of the outer loop does with the merged row of the group of `m` -/
structure Round (st : State κ σ ο) (rows : List ο) (m : κ) (row : Option ο) (st' : State κ σ ο)
    (batch : Option (List ο)) : Prop where
  good : Good st'
  sorted : Sorted st'
  rowsLeft : st'.rowsLeft = others InputRow.key st.rowsLeft m
  -- a position recorded earlier is kept with the row it denotes, or that row is in the batch
  outcome : (batch = none ∧ st.batchBuffer <+: st'.batchBuffer ∧
      st.outputIndices <+: st'.outputIndices ∧ Pending st' (rows ++ row.toList)) ∨
    (batch = some (rows ++ row.toList) ∧ st'.outputIndices = [])

variable {batch : Option (List ο)}

theorem Round.pending {m : κ} {row : Option ο} (h : Round st rows m row st' batch) :
    ∃ rows', Pending st' rows' ∧ batch.toList.flatten ++ rows' = rows ++ row.toList := by
  rcases h.outcome with ⟨rfl, _, _, hp⟩ | ⟨rfl, hidx⟩
  · exact ⟨_, hp, rfl⟩
  · refine ⟨[], ?_, by simp⟩
    unfold Pending
    rw [hidx]
    exact .nil

/-- **One round of the outer loop** merges the group of the least key. -/
theorem iterate_spec (cfg : Config κ σ τ ο) (hb : 1 ≤ cfg.batchSize) (h : Good st) (hs : Sorted st)
    (hp : Pending st rows) (hc : st.cursors st.tree.winner = some c) :
    match cfg.mergeRows (group InputRow.key st.rowsLeft c.currentRow.key) with
    | .error e => st.iterate cfg c = .error e
    | .ok row => ∃ st' batch, st.iterate cfg c = .ok (st', batch) ∧
        Round st rows c.currentRow.key row st' batch := by
  have hmin : ∀ i, i < st.numStreams → ∀ r ∈ st.remaining i, c.currentRow.key ≤ r.key :=
    fun i hi => h.winner_min hs hc hi
  obtain ⟨st1, mrows, hcol, hd⟩ := collect_good [] h (Nat.lt_succ_self _) hmin
  obtain ⟨hgroup, hleft, hsorted⟩ := hd.groups hs hmin
  have hagrees := cfg.mergeFunction.reads mrows st1.batchBuffer _ (hgroup ▸ hd.denotes)
  have hp1 : Pending st1 rows := hp.mono hd.buffer hd.indices
  have hiter : st.iterate cfg c = (cfg.mergeFunction.merge mrows st1.batchBuffer >>= fun result =>
      st1.record cfg result >>= fun st => st.flushFull cfg) := by
    unfold State.iterate
    rw [hcol]
    rfl
  rw [hiter, Config.mergeRows]
  generalize cfg.mergeFunction.merge mrows st1.batchBuffer = result at hagrees ⊢
  generalize cfg.mergeFunction.value _ = value at hagrees ⊢
  cases result with
  | error e =>
    cases value with
    | error e' =>
      have he : e = e' := hagrees
      rw [he]
      rfl
    | ok _ => exact hagrees.elim
  | ok result =>
    cases value with
    | error e' => cases result <;> exact hagrees.elim
    | ok value =>
      have hrec := record_spec cfg hd.good hp1 hagrees
      show match cfg.keep value with
        | .error e => (st1.record cfg result >>= fun st => st.flushFull cfg) = .error e
        | .ok row => ∃ st' batch, (st1.record cfg result >>= fun st => st.flushFull cfg) = .ok (st', batch) ∧
              Round st rows c.currentRow.key row st' batch
      cases hk : cfg.keep value with
      | error e =>
        rw [hk] at hrec
        have hrec' : st1.record cfg result = .error e := hrec
        rw [hrec']
        rfl
      | ok row =>
        rw [hk] at hrec
        obtain ⟨st2, hrec, hgood2, hsame2, hbuf2, hidx2, hp2⟩ := hrec
        obtain ⟨st3, batch, hfl, hgood3, hsame3, hout⟩ := flushFull_spec hb hgood2 hp2
        obtain ⟨hr2, hn2, hl2⟩ := hsame2.rowsLeft
        obtain ⟨hr3, hn3, hl3⟩ := hsame3.rowsLeft
        refine ⟨st3, batch, by rw [hrec]; exact hfl, hgood3, fun i hi => ?_, by rw [hl3, hl2, hleft], ?_⟩
        · rw [hr3, hr2]
          exact hsorted i (by rw [← hn2, ← hn3]; exact hi)
        · rcases hout with ⟨hnone, hst⟩ | ⟨hsome, hidx⟩
          · subst hst
            exact .inl ⟨hnone, hd.buffer.trans hbuf2, hd.indices ▸ hidx2, hp2⟩
          · exact .inr ⟨hsome, hidx⟩

/-! ## the outer loop -/

theorem Pending.finish (h : Pending st rows) : st.finish.error = none ∧ st.finish.batches.flatten = rows := by
  unfold State.finish
  cases hidx : st.outputIndices with
  | nil =>
    have h' := h
    unfold Pending at h'
    rw [hidx] at h'
    cases h'
    exact ⟨rfl, rfl⟩
  | cons p ps =>
    have hb := h.build (by rw [hidx]; exact cons_ne_nil _ _)
    rw [hidx] at hb
    simp [hb]

/-- a stream that delivers what the specification says: all of it, or, when a merge fails, the same
error after some of the rows before it -/
structure Delivered (y : Yielded ο) (rows : List ο) (err : Option Error) : Prop where
  sameError : y.error = err
  someRows : y.batches.flatten <+: rows
  allRows : err = none → y.batches.flatten = rows

/-- **The outer loop** merges the groups of all rows left. -/
theorem mergeLoop_spec (hb : 1 ≤ cfg.batchSize) {fuel : Nat} (hf : st.rowsLeft.length < fuel) (h : Good st)
    (hs : Sorted st) (hp : Pending st rows) :
    Delivered (st.mergeLoop cfg fuel) (rows ++ (cfg.mergeGroups (keyGroups InputRow.key st.rowsLeft)).1)
      (cfg.mergeGroups (keyGroups InputRow.key st.rowsLeft)).2 := by
  induction fuel generalizing st rows with
  | zero => omega
  | succ fuel ih =>
    unfold State.mergeLoop
    cases hc : st.cursors st.tree.winner with
    | none =>
      have hnil : st.rowsLeft = [] := by
        rw [State.rowsLeft, flatMap_eq_nil_iff]
        exact fun i hi => h.all_exhausted hc (mem_range.mp hi)
      rw [hnil, keyGroups_nil]
      obtain ⟨he, hr⟩ := hp.finish
      refine ⟨he, ?_, fun _ => ?_⟩
      · simp only [hr, Config.mergeGroups, append_nil, prefix_rfl]
      · simp only [hr, Config.mergeGroups, append_nil]
    | some c =>
      have hwlt := h.played.winner_lt h.pos
      have hmem : c.currentRow ∈ st.rowsLeft := by
        refine mem_flatMap.mpr ⟨_, mem_range.mpr hwlt, ?_⟩
        rw [Good.remaining_some hc]
        exact mem_cons_self
      have hle : ∀ r ∈ st.rowsLeft, c.currentRow.key ≤ r.key := by
        intro r hr
        obtain ⟨i, hi, hri⟩ := mem_flatMap.mp hr
        exact h.winner_min hs hc (mem_range.mp hi) r hri
      rw [keyGroups_min ⟨_, hmem, rfl⟩ hle, Config.mergeGroups]
      have hround := iterate_spec cfg hb h hs hp hc
      cases hg : cfg.mergeRows (group InputRow.key st.rowsLeft c.currentRow.key) with
      | error e =>
        rw [hg] at hround
        have hround' : st.iterate cfg c = .error e := hround
        simp only [hround']
        exact ⟨rfl, nil_prefix, fun he => by cases he⟩
      | ok row =>
        rw [hg] at hround
        obtain ⟨st', batch, hit, hr⟩ := hround
        obtain ⟨rows', hp', heq⟩ := hr.pending
        -- the group of the least key is not empty, so fewer rows are left
        have hshort : st'.rowsLeft.length < fuel := by
          have : (others InputRow.key st.rowsLeft c.currentRow.key).length < st.rowsLeft.length := by
            refine length_filter_lt_length_iff_exists.mpr ⟨_, hmem, by simp⟩
          rw [hr.rowsLeft]
          omega
        obtain ⟨ie, ip, ir⟩ := ih hshort hr.good hr.sorted hp'
        rw [hr.rowsLeft] at ie ip ir
        simp only [hit, Yielded.after]
        have hflat : ∀ tl : List ο, rows ++ (row.toList ++ tl) = batch.toList.flatten ++ (rows' ++ tl) := by
          intro tl
          rw [← append_assoc, ← heq, append_assoc]
        refine ⟨ie, ?_, fun he => ?_⟩
        · rw [hflat, flatten_append]
          exact (prefix_append_right_inj _).mpr ip
        · rw [hflat, flatten_append, ir he]

/-! ## the start -/

variable {streams : List (List (Result (List (InputRow κ σ ο))))}

theorem mapM_nextCursor (h : ∀ s ∈ streams, Delivers s) : ∃ opened, streams.mapM nextCursor = .ok opened ∧
      List.Forall₂ (fun s o => Opened s o.1 o.2) streams opened := by
  induction streams with
  | nil => exact ⟨[], rfl, .nil⟩
  | cons s streams ih =>
    obtain ⟨cursor, rest, hn, ho⟩ := nextCursor_opened (h s mem_cons_self)
    obtain ⟨opened, hm, hall⟩ := ih (forall_mem_cons.mp h).2
    refine ⟨(cursor, rest) :: opened, ?_, .cons ho hall⟩
    rw [mapM_cons, hn, hm]
    rfl

theorem foldl_register_get (cursors : List (Option (Cursor κ σ ο)))
    (acc : List (BufferedBatch κ σ ο) × List (Option Nat)) :
    acc.1 <+: (cursors.foldl register acc).1 ∧ acc.2 <+: (cursors.foldl register acc).2 ∧
      ∀ j c, cursors[j]? = some (some c) →
        ∃ b, (cursors.foldl register acc).2[acc.2.length + j]? = some (some b) ∧
          (cursors.foldl register acc).1[b]? = some (.source c.batch) := by
  induction cursors generalizing acc with
  | nil =>
    refine ⟨prefix_rfl, prefix_rfl, fun j c hj => ?_⟩
    simp at hj
  | cons cursor cursors ih =>
    obtain ⟨hbuf, hidx, hget⟩ := ih (register acc cursor)
    have hlen : (register acc cursor).2.length = acc.2.length + 1 := by
      cases cursor <;> simp [register]
    have hgrow : acc.1 <+: (register acc cursor).1 ∧ acc.2 <+: (register acc cursor).2 := by
      cases cursor with
      | none => exact ⟨prefix_rfl, prefix_append ..⟩
      | some c => exact ⟨prefix_append .., prefix_append ..⟩
    refine ⟨hgrow.1.trans hbuf, hgrow.2.trans hidx, fun j c hj => ?_⟩
    cases j with
    | zero =>
      simp only [getElem?_cons_zero, Option.some.injEq] at hj
      subst hj
      exact ⟨acc.1.length, getElem?_mono hidx getElem?_concat_length,
        getElem?_mono hbuf getElem?_concat_length⟩
    | succ j =>
      rw [getElem?_cons_succ] at hj
      have := hget j c hj
      rwa [hlen, show acc.2.length + 1 + j = acc.2.length + (j + 1) by omega] at this

section initial

variable {streams : List (List (Result (List (InputRow κ σ ο))))}
  {opened : List (Option (Cursor κ σ ο) × List (Result (List (InputRow κ σ ο))))}

theorem initialState_numStreams : (initialState opened).numStreams = opened.length := rfl

theorem initialState_some {i : Nat} {o : Option (Cursor κ σ ο) × List (Result (List (InputRow κ σ ο)))}
    (h : opened[i]? = some o) :
    (initialState opened).cursors i = o.1 ∧ (initialState opened).streams i = o.2 := by
  constructor
  · show (opened[i]?).bind Prod.fst = o.1
    rw [h]
    rfl
  · show ((opened[i]?).map Prod.snd).getD [] = o.2
    rw [h]
    rfl

theorem initialState_none {i : Nat} (h : opened[i]? = none) :
    (initialState opened).cursors i = none ∧ (initialState opened).streams i = [] := by
  constructor
  · show (opened[i]?).bind Prod.fst = none
    rw [h]
    rfl
  · show ((opened[i]?).map Prod.snd).getD [] = []
    rw [h]
    rfl

theorem initialState_good (hpos : 1 ≤ opened.length)
    (hall : List.Forall₂ (fun s o => Opened s o.1 o.2) streams opened) :
    Good (initialState opened) := by
  have hat : ∀ (i : Nat) o, opened[i]? = some o → ∃ s, Opened s o.1 o.2 := by
    intro i o ho
    obtain ⟨hi, rfl⟩ := List.getElem?_eq_some_iff.mp ho
    exact ⟨_, hall.get (hall.length_eq ▸ hi) hi⟩
  refine ⟨hpos, fun i hi => ?_, ?_, fun i c hc => ?_, fun i hi => ?_, fun i => ?_⟩
  · exact (initialState_none (getElem?_eq_none hi)).1
  · exact LoserTree.init_played _ hpos (headRank_injective _) (cursorGt_eq _)
  · have hget : (opened.map Prod.fst)[i]? = some (some c) := by
      obtain ⟨o, ho, hoc⟩ := Option.bind_eq_some_iff.mp hc
      rw [getElem?_map, ho, ← hoc]
      rfl
    obtain ⟨b, hb, hbuf⟩ := (foldl_register_get (opened.map Prod.fst) ([], [])).2.2 i c hget
    refine ⟨b, ?_, hbuf⟩
    have hb' : (registerInitial (opened.map Prod.fst)).2[i]? = some (some b) := by
      rw [← hb]
      simp [registerInitial]
    show ((registerInitial (opened.map Prod.fst)).2[i]?).join = some b
    rw [hb']
    rfl
  · cases ho : opened[i]? with
    | none =>
      rw [(initialState_none ho).2]
      rfl
    | some o =>
      obtain ⟨hcur, hstr⟩ := initialState_some ho
      obtain ⟨s, hs⟩ := hat i o ho
      rw [hstr]
      exact hs.exhausted (hcur ▸ hi)
  · cases ho : opened[i]? with
    | none =>
      rw [(initialState_none ho).2]
      intro x hx
      cases hx
    | some o =>
      obtain ⟨s, hs⟩ := hat i o ho
      rw [(initialState_some ho).2]
      exact hs.delivers

theorem initialState_remaining (hall : List.Forall₂ (fun s o => Opened s o.1 o.2) streams opened) :
    (List.range opened.length).map (initialState opened).remaining = streams.map deliveredRows := by
  refine ext_getElem (by simp [hall.length_eq]) fun i h1 h2 => ?_
  rw [getElem_map, getElem_map, getElem_range]
  have hi : i < opened.length := by simpa using h1
  have hi' : i < streams.length := by simpa using h2
  obtain ⟨hcur, hstr⟩ := initialState_some (getElem?_eq_getElem hi)
  rw [State.remaining, hcur, hstr]
  exact (hall.get hi' hi).rows.symm

end initial

/-- **The state before the outer loop** is good, and all rows are left. -/
theorem openStreams_good (hpos : 1 ≤ streams.length) (h : ∀ s ∈ streams, Delivers s)
    (hs : ∀ s ∈ streams, ((deliveredRows s).map InputRow.key).Pairwise (· ≤ ·)) :
    ∃ st, openStreams streams = .ok st ∧ Good st ∧ Sorted st ∧ Pending st [] ∧
      st.rowsLeft = streams.flatMap deliveredRows := by
  obtain ⟨opened, hm, hall⟩ := mapM_nextCursor h
  have hrem := initialState_remaining hall
  refine ⟨initialState opened, ?_, initialState_good (hall.length_eq ▸ hpos) hall, fun i hi => ?_, .nil, ?_⟩
  · unfold openStreams
    rw [hm]
    rfl
  · have hmem : (initialState opened).remaining i ∈
        (List.range opened.length).map (initialState opened).remaining :=
      mem_map_of_mem (mem_range.mpr hi)
    rw [hrem] at hmem
    obtain ⟨s, hsm, hse⟩ := mem_map.mp hmem
    rw [← hse]
    exact hs s hsm
  · rw [State.rowsLeft, initialState_numStreams, flatMap_def, hrem, flatMap_def]

/-! ## the stream -/

inductive Reached (cfg : Config κ σ τ ο) (streams : List (List (Result (List (InputRow κ σ ο))))) :
    State κ σ ο → Prop
  | start {st : State κ σ ο} : streams.length ≠ 0 → openStreams streams = .ok st →
      Reached cfg streams st
  | round {st st' : State κ σ ο} {c : Cursor κ σ ο} {batch : Option (List ο)} :
      Reached cfg streams st → st.cursors st.tree.winner = some c →
      st.iterate cfg c = .ok (st', batch) → Reached cfg streams st'

/-- what a round does to the positions recorded before it: every one denotes a row, and either it
is kept and denotes the same row in the new buffer, or the batch built in this round has the rows
denoted, in order, and no position is left -/
def KeepsPositions (st st' : State κ σ ο) (batch : Option (List ο)) : Prop :=
  ∃ rows, st.outputIndices.map (outputRowAt st.batchBuffer) = rows.map some ∧
    match batch with
    | none => st.outputIndices <+: st'.outputIndices ∧
        st.outputIndices.map (outputRowAt st'.batchBuffer) = rows.map some
    | some batch => rows <+: batch ∧ st'.outputIndices = []

theorem Pending.map_eq (h : Pending st rows) :
    st.outputIndices.map (outputRowAt st.batchBuffer) = rows.map some := by
  unfold Pending at h
  generalize st.outputIndices = indices at h ⊢
  induction h with
  | nil => rfl
  | cons ho _ ih => rw [map_cons, map_cons, ho, ih]

theorem iterate_round (hb : 1 ≤ cfg.batchSize) (h : Good st) (hs : Sorted st)
    (hp : Pending st rows) (hc : st.cursors st.tree.winner = some c)
    (hit : st.iterate cfg c = .ok (st', batch)) :
    ∃ row, Round st rows c.currentRow.key row st' batch := by
  have hround := iterate_spec cfg hb h hs hp hc
  split at hround
  · rw [hit] at hround
    cases hround
  · next row _ =>
    obtain ⟨st₁, batch₁, hit₁, hrd⟩ := hround
    rw [hit] at hit₁
    cases hit₁
    exact ⟨row, hrd⟩

theorem Reached.invariant (hb : 1 ≤ cfg.batchSize) (h : ∀ s ∈ streams, Delivers s)
    (hs : ∀ s ∈ streams, ((deliveredRows s).map InputRow.key).Pairwise (· ≤ ·)) (hr : Reached cfg streams st) :
    Good st ∧ Sorted st ∧ ∃ rows, Pending st rows := by
  induction hr with
  | start hne hopen =>
    obtain ⟨st, hopen', hg, hsd, hp, _⟩ := openStreams_good (Nat.one_le_iff_ne_zero.mpr hne) h hs
    rw [hopen] at hopen'
    injection hopen' with hopen'
    subst hopen'
    exact ⟨hg, hsd, [], hp⟩
  | round _ hc hit ih =>
    obtain ⟨hg, hsd, rows, hp⟩ := ih
    obtain ⟨row, hrd⟩ := iterate_round hb hg hsd hp hc hit
    obtain ⟨rows', hp', _⟩ := hrd.pending
    exact ⟨hrd.good, hrd.sorted, rows', hp'⟩

theorem Reached.keepsPositions (hb : 1 ≤ cfg.batchSize) (h : ∀ s ∈ streams, Delivers s)
    (hs : ∀ s ∈ streams, ((deliveredRows s).map InputRow.key).Pairwise (· ≤ ·))
    (hr : Reached cfg streams st) (hc : st.cursors st.tree.winner = some c)
    (hit : st.iterate cfg c = .ok (st', batch)) : KeepsPositions st st' batch := by
  obtain ⟨hg, hsd, rows, hp⟩ := hr.invariant hb h hs
  refine ⟨rows, hp.map_eq, ?_⟩
  obtain ⟨row, hrd⟩ := iterate_round hb hg hsd hp hc hit
  rcases hrd.outcome with ⟨rfl, hbuf, hidx, _⟩ | ⟨rfl, hidx⟩
  · refine ⟨hidx, ?_⟩
    rw [← hp.map_eq]
    refine map_congr_left fun p hpm => ?_
    obtain ⟨o, _, ho⟩ := mem_map.mp
      (hp.map_eq ▸ mem_map_of_mem hpm : outputRowAt st.batchBuffer p ∈ rows.map some)
    rw [← ho]
    exact outputRowAt_mono hbuf ho.symm
  · exact ⟨prefix_append .., hidx⟩

theorem delivers_ok (s : List (List (InputRow κ σ ο))) : Delivers (s.map (Except.ok : _ → Result _)) ∧
      deliveredRows (s.map (Except.ok : _ → Result _)) = s.flatten := by
  constructor
  · intro x hx
    obtain ⟨b, _, rfl⟩ := mem_map.mp hx
    exact ⟨b, rfl⟩
  · rw [deliveredRows, flatMap_map]
    exact flatMap_id

/-- **Sort-merge read refines the key-group specification.**  Whatever the batches the sorted
streams are cut into, the stream delivers the merged rows of the key groups in ascending order of
the keys; the groups partition the rows of all streams, and no recorded position changes its
meaning before its batch is built. -/
theorem sort_merge_refines_key_groups (cfg : Config κ σ τ ο) (hb : 1 ≤ cfg.batchSize)
    (streams : List (List (List (InputRow κ σ ο))))
    (hs : ∀ s ∈ streams, (s.flatten.map InputRow.key).Pairwise (· ≤ ·)) :
    let input := streams.map (List.map (Except.ok : _ → Result _))
    let groups := keyGroups InputRow.key (streams.flatMap List.flatten)
    Delivered (sortMergeStream cfg input) (cfg.mergeGroups groups).1 (cfg.mergeGroups groups).2 ∧
      (groups.map Prod.fst).Pairwise (· < ·) ∧
      (groups.flatMap Prod.snd).Perm (streams.flatMap List.flatten) ∧
      (∀ g ∈ groups, ∀ r ∈ g.2, r.key = g.1) ∧
      ∀ st c st' batch, Reached cfg input st → st.cursors st.tree.winner = some c →
        st.iterate cfg c = .ok (st', batch) → KeepsPositions st st' batch := by
  intro input groups
  have hdel : ∀ s ∈ input, Delivers s := by
    intro s hsm
    obtain ⟨s', _, rfl⟩ := mem_map.mp hsm
    exact (delivers_ok s').1
  have hsorted : ∀ s ∈ input, ((deliveredRows s).map InputRow.key).Pairwise (· ≤ ·) := by
    intro s hsm
    obtain ⟨s', hs', rfl⟩ := mem_map.mp hsm
    rw [(delivers_ok s').2]
    exact hs s' hs'
  have hall : input.flatMap deliveredRows = streams.flatMap List.flatten := by
    rw [flatMap_map]
    exact flatMap_congr fun s _ => (delivers_ok s).2
  refine ⟨?_, ?_, keyGroups_perm _, fun g hg r hr => ?_, fun st c st' batch hr hc hit =>
    hr.keepsPositions hb hdel hsorted hc hit⟩
  · unfold sortMergeStream
    by_cases hk : input.length = 0
    · have hnil : streams = [] := by simpa [input] using hk
      rw [if_pos hk]
      have hg : groups = [] := by
        show keyGroups InputRow.key (streams.flatMap List.flatten) = []
        rw [hnil]
        exact keyGroups_nil
      rw [hg]
      exact ⟨rfl, prefix_rfl, fun _ => rfl⟩
    · obtain ⟨st, hopen, hg, hsd, hp, hleft⟩ :=
        openStreams_good (Nat.one_le_iff_ne_zero.mpr hk) hdel hsorted
      have hrun := mergeLoop_spec hb (Nat.lt_succ_self _) hg hsd hp
      have hgroups : keyGroups InputRow.key st.rowsLeft = groups := by rw [hleft, hall]
      rw [hgroups, nil_append] at hrun
      rw [if_neg hk, hopen]
      exact hrun
  · rw [keyGroups_keys]
    exact distinctKeys_sorted _
  · obtain ⟨k, _, rfl⟩ := mem_map.mp hg
    exact (mem_group.mp hr).2

/-- rows of a small table keyed by a number -/
def numberRow (key seq output : Nat) : InputRow Nat Nat Nat :=
  { key := key, sequenceNumber := seq, valueKind := some 0, userSequence := none, output := output }

def dedupConfig : Config Nat Nat Unit Nat :=
  { mergeFunction := DeduplicateMergeFunction, outputSchema := (), batchSize := 1 }

def twoStreams : List (List (List (InputRow Nat Nat Nat))) :=
  [[[], [numberRow 1 1 10], [numberRow 2 2 20]], [[numberRow 1 3 11, numberRow 3 4 30]]]

theorem sort_merge_two_streams : Delivered (sortMergeStream dedupConfig (twoStreams.map (List.map Except.ok)))
        (dedupConfig.mergeGroups (keyGroups InputRow.key (twoStreams.flatMap List.flatten))).1
        (dedupConfig.mergeGroups (keyGroups InputRow.key (twoStreams.flatMap List.flatten))).2 ∧
      sortMergeStream dedupConfig (twoStreams.map (List.map Except.ok)) = ⟨[[11], [20], [30]], none⟩ :=
  ⟨(sort_merge_refines_key_groups dedupConfig (by decide) twoStreams (by decide)).1, by decide +kernel⟩

end Paimon.SortMerge
