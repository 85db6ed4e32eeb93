import Paimon.SortMerge.Stream
import Paimon.Lib.KeyGroups
import Paimon.Lib.Compare

/-!
# What the sort-merge loops keep

`Good st` ties the pieces of the loop state together: the loser tree holds the tournament of the
current keys, every open cursor's batch is in the buffer where the stream's index says, and a stream
without a cursor has no rows left.  `advance_good` is the step lemma; `collect_good` follows it by
induction through the inner loop: the rows collected are, stream by stream, the leading rows of the
winner's key.  `compact_good` says that compaction moves batches without losing track of one.
-/

set_option linter.unusedSectionVars false

namespace Paimon.SortMerge
open KeyGroups List

variable {κ σ τ ο : Type} [LinearOrder κ] [DecidableEq τ]

/-! ## the order of the streams -/

/-- the key at the head of a stream; `⊤` when it is exhausted -/
def headKey (cursors : Nat → Option (Cursor κ σ ο)) (i : Nat) : WithTop κ :=
  match cursors i with
  | none => ⊤
  | some c => (c.currentRow.key : WithTop κ)

def headRank (cursors : Nat → Option (Cursor κ σ ο)) (i : Nat) : WithTop κ ×ₗ Nat :=
  toLex (headKey cursors i, i)

theorem headRank_injective (cursors : Nat → Option (Cursor κ σ ο)) :
    Function.Injective (headRank cursors) := LoserTree.tieRank_injective (headKey cursors)

theorem compareCursors_eq (cursors : Nat → Option (Cursor κ σ ο)) (a b : Nat) :
    compareCursors cursors a b = compare (headKey cursors a) (headKey cursors b) := by
  unfold compareCursors headKey
  cases ha : cursors a with
  | none =>
    cases hb : cursors b with
    | none => exact (compare_eq_iff_eq.mpr rfl).symm
    | some cb => exact (compare_gt_iff_gt.mpr (WithTop.coe_lt_top _)).symm
  | some ca =>
    cases hb : cursors b with
    | none => exact (compare_lt_iff_lt.mpr (WithTop.coe_lt_top _)).symm
    | some cb =>
      exact (Compare.map_eq WithTop.coe_strictMono ca.currentRow.key cb.currentRow.key).symm

theorem cursorGt_eq (cursors : Nat → Option (Cursor κ σ ο)) (a b : Nat) :
    cursorGt cursors a b = decide (headRank cursors b < headRank cursors a) := by
  rw [cursorGt, compareCursors_eq]
  exact LoserTree.headGt_eq (headKey cursors) a b

/-! ## rows of cursors and streams -/

theorem cursorRows_some (c : Cursor κ σ ο) : cursorRows (some c) = c.currentRow :: cursorRows c.advance := by
  show c.batch.drop c.offset = _
  rw [drop_eq_getElem_cons c.inBatch]
  congr 1
  unfold Cursor.advance
  split
  · rfl
  · exact drop_eq_nil_of_le (by omega)

/-- every item of the stream is a batch -/
def Delivers (stream : List (Result (List (InputRow κ σ ο)))) : Prop :=
  ∀ x ∈ stream, ∃ batch, x = .ok batch

structure Opened (stream : List (Result (List (InputRow κ σ ο)))) (cursor : Option (Cursor κ σ ο))
    (rest : List (Result (List (InputRow κ σ ο)))) : Prop where
  delivers : Delivers rest
  rows : deliveredRows stream = cursorRows cursor ++ deliveredRows rest
  exhausted : cursor = none → deliveredRows rest = []

theorem nextCursor_opened {stream : List (Result (List (InputRow κ σ ο)))} (h : Delivers stream) :
    ∃ cursor rest, nextCursor stream = .ok (cursor, rest) ∧ Opened stream cursor rest := by
  induction stream with
  | nil => exact ⟨none, [], rfl, h, rfl, fun _ => rfl⟩
  | cons x stream ih =>
    have htail : Delivers stream := (forall_mem_cons.mp h).2
    obtain ⟨batch, rfl⟩ := h x mem_cons_self
    cases batch with
    | nil =>
      obtain ⟨cursor, rest, hn, ho⟩ := ih htail
      exact ⟨cursor, rest, hn, ho.delivers, ho.rows, ho.exhausted⟩
    | cons r rs =>
      refine ⟨_, stream, rfl, htail, rfl, fun h => ?_⟩
      cases h

/-! ## the state -/

structure Good (st : State κ σ ο) : Prop where
  pos : 1 ≤ st.numStreams
  inRange : ∀ i, st.numStreams ≤ i → st.cursors i = none
  played : LoserTree.Played (headRank st.cursors) st.tree
  registered : ∀ i c, st.cursors i = some c →
    ∃ b, st.streamBatchIdx i = some b ∧ st.batchBuffer[b]? = some (.source c.batch)
  exhausted : ∀ i, st.cursors i = none → deliveredRows (st.streams i) = []
  delivers : ∀ i, Delivers (st.streams i)

variable {i : Nat} {r : InputRow κ σ ο}

namespace Good

variable {st : State κ σ ο} {c : Cursor κ σ ο}

theorem remaining_some (hc : st.cursors i = some c) :
    st.remaining i = c.currentRow :: (cursorRows c.advance ++ deliveredRows (st.streams i)) := by
  rw [State.remaining, hc, cursorRows_some, cons_append]

theorem remaining_none (h : Good st) (hc : st.cursors i = none) : st.remaining i = [] := by
  rw [State.remaining, hc, h.exhausted i hc]
  rfl

theorem winner_key_le (h : Good st) (hi : i < st.numStreams) :
    headKey st.cursors st.tree.winner ≤ headKey st.cursors i := by
  have := h.played.winner_le hi
  rw [headRank, headRank, Prod.Lex.toLex_le_toLex] at this
  rcases this with h | h
  · exact h.le
  · exact h.1.le

theorem winner_first (h : Good st) (hi : i < st.tree.winner) :
    headKey st.cursors st.tree.winner < headKey st.cursors i := by
  have hlt : i < st.numStreams := lt_trans hi (h.played.winner_lt h.pos)
  have := h.played.winner_le hlt
  rw [headRank, headRank, Prod.Lex.toLex_le_toLex] at this
  rcases this with h | ⟨_, h⟩
  · exact h
  · exact absurd h (not_le.mpr hi)

theorem all_exhausted (h : Good st) (hw : st.cursors st.tree.winner = none) (hi : i < st.numStreams) :
    st.remaining i = [] := by
  refine h.remaining_none ?_
  have hle := h.winner_key_le hi
  cases hc : st.cursors i with
  | none => rfl
  | some c =>
    rw [headKey, hw, headKey, hc] at hle
    exact absurd hle (not_le.mpr (WithTop.coe_lt_top _))

theorem head_ge (h : Good st) (hw : st.cursors st.tree.winner = some c)
    (hi : i < st.numStreams) {tl : List (InputRow κ σ ο)} (hr : st.remaining i = r :: tl) :
    c.currentRow.key ≤ r.key := by
  have hle := h.winner_key_le hi
  cases hc : st.cursors i with
  | none =>
    rw [h.remaining_none hc] at hr
    cases hr
  | some ci =>
    rw [remaining_some hc] at hr
    rw [headKey, hw, headKey, hc, WithTop.coe_le_coe] at hle
    injection hr with hr
    rwa [← hr]

end Good

/-! ## taking one row -/

theorem getElem?_mono {α : Type} {l l' : List α} {x : α} (h : l <+: l')
    (hx : l[i]? = some x) : l'[i]? = some x := by
  obtain ⟨t, rfl⟩ := h
  rw [getElem?_append_left (List.getElem?_eq_some_iff.mp hx).1, hx]

/-- `st'` is `st` with the head of stream `w` taken -/
structure Advanced (st : State κ σ ο) (w : Nat) (st' : State κ σ ο) : Prop where
  good : Good st'
  streams : st'.numStreams = st.numStreams
  other : ∀ i, i ≠ w → st'.remaining i = st.remaining i
  buffer : st.batchBuffer <+: st'.batchBuffer
  indices : st'.outputIndices = st.outputIndices

variable {st st' : State κ σ ο}

theorem Good.replace (h : Good st) (htree : st'.tree = st.tree)
    (hother : ∀ i, i ≠ st.tree.winner → st'.cursors i = st.cursors i)
    (hreg : ∀ i c, st'.cursors i = some c →
      ∃ b, st'.streamBatchIdx i = some b ∧ st'.batchBuffer[b]? = some (.source c.batch))
    (hex : ∀ i, st'.cursors i = none → deliveredRows (st'.streams i) = [])
    (hdel : ∀ i, Delivers (st'.streams i)) : Good st'.updateTree := by
  have hpos : 1 ≤ st.tree.numStreams := h.pos
  refine ⟨?_, fun i hi => ?_, ?_, hreg, hex, hdel⟩
  · show 1 ≤ st'.tree.numStreams
    rw [htree]
    exact hpos
  · have hi' : st.tree.numStreams ≤ i := by
      rw [← htree]
      exact hi
    have hlt := h.played.winner_lt hpos
    exact (hother i (by omega)).trans (h.inRange i hi')
  · show LoserTree.Played (headRank st'.cursors) (st'.tree.update (cursorGt st'.cursors))
    rw [htree]
    refine LoserTree.update_played hpos (headRank_injective st.cursors)
      (headRank_injective st'.cursors) (cursorGt_eq st'.cursors) h.played fun i hi => ?_
    rw [headRank, headRank, headKey, headKey, hother i hi]

variable {st : State κ σ ο}

theorem Good.advance_within (h : Good st) {c c' : Cursor κ σ ο} (hc : st.cursors st.tree.winner = some c)
    (hadv : c.advance = some c') :
    Advanced st st.tree.winner
      { st with cursors := Function.update st.cursors st.tree.winner (some c') }.updateTree := by
  have hbatch : c'.batch = c.batch := by
    unfold Cursor.advance at hadv
    split at hadv
    · injection hadv with hadv
      rw [← hadv]
    · cases hadv
  have hoff : ∀ i, i ≠ st.tree.winner →
      Function.update st.cursors st.tree.winner (some c') i = st.cursors i :=
    fun i hi => Function.update_of_ne hi ..
  refine ⟨h.replace rfl hoff (fun i d hd => ?_) (fun i hi => ?_) h.delivers, rfl, fun i hi => ?_,
    prefix_rfl, rfl⟩
  · by_cases hiw : i = st.tree.winner
    · subst hiw
      obtain ⟨b, hb, hbuf⟩ := h.registered _ c hc
      simp only [Function.update_self, Option.some.injEq] at hd
      exact ⟨b, hb, by rw [← hd, hbatch]; exact hbuf⟩
    · exact h.registered i d ((hoff i hiw) ▸ hd)
  · by_cases hiw : i = st.tree.winner
    · subst hiw
      simp at hi
    · exact h.exhausted i ((hoff i hiw) ▸ hi)
  · show cursorRows (Function.update st.cursors st.tree.winner (some c') i) ++ _ = _
    rw [hoff i hi]
    rfl

theorem Good.advance_pull (h : Good st) :
    ∃ st', st.pull st.tree.winner = .ok st' ∧ Advanced st st.tree.winner st'.updateTree ∧
      st'.updateTree.remaining st.tree.winner = deliveredRows (st.streams st.tree.winner) := by
  set w := st.tree.winner with hw
  obtain ⟨cursor, rest, hn, ho⟩ := nextCursor_opened (h.delivers w)
  have hrest : ∀ i, i ≠ w → Function.update st.streams w rest i = st.streams i :=
    fun i hi => Function.update_of_ne hi ..
  have hoff : ∀ (x : Option (Cursor κ σ ο)) i, i ≠ w →
      Function.update st.cursors w x i = st.cursors i := fun x i hi => Function.update_of_ne hi ..
  have hdel : ∀ i, Delivers (Function.update st.streams w rest i) := by
    intro i
    by_cases hi : i = w
    · rw [hi, Function.update_self]
      exact ho.delivers
    · rw [hrest i hi]
      exact h.delivers i
  unfold State.pull
  rw [hn]
  cases cursor with
  | none =>
    refine ⟨_, rfl, ⟨h.replace rfl (hoff none) (fun i d hd => ?_) (fun i hi => ?_) hdel, rfl,
      fun i hi => ?_, prefix_rfl, rfl⟩, ?_⟩
    · by_cases hiw : i = w
      · subst hiw
        simp at hd
      · exact h.registered i d ((hoff none i hiw) ▸ hd)
    · by_cases hiw : i = w
      · show deliveredRows (Function.update st.streams w rest i) = []
        rw [hiw, Function.update_self]
        exact ho.exhausted rfl
      · show deliveredRows (Function.update st.streams w rest i) = []
        rw [hrest i hiw]
        exact h.exhausted i ((hoff none i hiw) ▸ hi)
    · show cursorRows (Function.update st.cursors w none i) ++
        deliveredRows (Function.update st.streams w rest i) = _
      rw [hoff none i hi, hrest i hi]
      rfl
    · show cursorRows (Function.update st.cursors w none w) ++
        deliveredRows (Function.update st.streams w rest w) = _
      rw [Function.update_self, Function.update_self, ho.rows]
  | some d =>
    refine ⟨_, rfl, ⟨h.replace rfl (hoff (some d)) (fun i e he => ?_) (fun i hi => ?_) hdel, rfl,
      fun i hi => ?_, prefix_append .., rfl⟩, ?_⟩
    · by_cases hiw : i = w
      · subst hiw
        simp only [Function.update_self, Option.some.injEq] at he
        refine ⟨st.batchBuffer.length, Function.update_self .., ?_⟩
        rw [← he]
        exact getElem?_concat_length
      · obtain ⟨b, hb, hbuf⟩ := h.registered i e ((hoff (some d) i hiw) ▸ he)
        exact ⟨b, (Function.update_of_ne hiw ..).trans hb, getElem?_mono (prefix_append ..) hbuf⟩
    · by_cases hiw : i = w
      · subst hiw
        simp at hi
      · show deliveredRows (Function.update st.streams w rest i) = []
        rw [hrest i hiw]
        exact h.exhausted i ((hoff (some d) i hiw) ▸ hi)
    · show cursorRows (Function.update st.cursors w (some d) i) ++
        deliveredRows (Function.update st.streams w rest i) = _
      rw [hoff (some d) i hi, hrest i hi]
      rfl
    · show cursorRows (Function.update st.cursors w (some d) w) ++
        deliveredRows (Function.update st.streams w rest w) = _
      rw [Function.update_self, Function.update_self, ho.rows]

variable {c : Cursor κ σ ο}

/-- **One row of the winning stream.** -/
theorem advance_good (h : Good st) (hc : st.cursors st.tree.winner = some c) :
    ∃ st', st.advance st.tree.winner c = .ok st' ∧ Advanced st st.tree.winner st' ∧
      st.remaining st.tree.winner = c.currentRow :: st'.remaining st.tree.winner := by
  rw [Good.remaining_some hc]
  unfold State.advance
  cases hadv : c.advance with
  | some c' =>
    refine ⟨_, rfl, h.advance_within hc hadv, ?_⟩
    show _ = _ :: (cursorRows (Function.update st.cursors st.tree.winner (some c')
      st.tree.winner) ++ deliveredRows (st.streams st.tree.winner))
    rw [Function.update_self]
  | none =>
    obtain ⟨st', hpull, hadvd, hrem⟩ := h.advance_pull
    refine ⟨st'.updateTree, ?_, hadvd, ?_⟩
    · simp only [hpull]
    · rw [hrem]
      rfl

/-! ## the inner loop -/

theorem range_split {w k : Nat} (h : w < k) :
    ∃ pre post, List.range k = pre ++ w :: post ∧ (∀ i ∈ pre, i < w) ∧ ∀ i ∈ post, w < i ∧ i < k := by
  obtain ⟨pre, post, hs⟩ := append_of_mem (mem_range.mpr h)
  have hp := pairwise_lt_range (n := k)
  rw [hs] at hp
  obtain ⟨_, hp2, hp3⟩ := pairwise_append.mp hp
  refine ⟨pre, post, hs, fun i hi => hp3 i hi w mem_cons_self, fun i hi =>
    ⟨(pairwise_cons.mp hp2).1 i hi, ?_⟩⟩
  have : i ∈ List.range k := by
    rw [hs]
    exact mem_append_right _ (mem_cons_of_mem _ hi)
  exact mem_range.mp this

/-- the leading rows of the key `m`, stream by stream -/
def leading (m : κ) (st : State κ σ ο) : List (InputRow κ σ ο) :=
  (List.range st.numStreams).flatMap fun i => (st.remaining i).takeWhile fun r => r.key = m

variable {m : κ}

theorem Advanced.leading_eq (h : Good st)
    (hc : st.cursors st.tree.winner = some c) (hm : c.currentRow.key = m)
    (ha : Advanced st st.tree.winner st')
    (hrow : st.remaining st.tree.winner = c.currentRow :: st'.remaining st.tree.winner) :
    leading m st = c.currentRow :: leading m st' := by
  have hwlt := h.played.winner_lt h.pos
  obtain ⟨pre, post, hs, hpre, hpost⟩ := range_split hwlt
  -- before the winner no stream has a row of this key
  have hlow : ∀ i ∈ pre, (st.remaining i).takeWhile (fun r => decide (r.key = m)) = [] := by
    intro i hi
    have hfirst := h.winner_first (hpre i hi)
    cases hci : st.cursors i with
    | none => rw [h.remaining_none hci]; rfl
    | some ci =>
      rw [headKey, hc, headKey, hci, WithTop.coe_lt_coe, hm] at hfirst
      rw [Good.remaining_some hci, takeWhile_cons_of_neg]
      simpa using hfirst.ne'
  have hcong : ∀ l : List Nat, (∀ i ∈ l, i ≠ st.tree.winner) →
      (l.flatMap fun i => (st'.remaining i).takeWhile fun r => decide (r.key = m)) =
        l.flatMap fun i => (st.remaining i).takeWhile fun r => decide (r.key = m) :=
    fun l hl => flatMap_congr fun i hi => by rw [ha.other i (hl i hi)]
  unfold leading
  rw [ha.streams]
  show (List.range st.tree.numStreams).flatMap _ = _ :: (List.range st.tree.numStreams).flatMap _
  rw [hs, flatMap_append, flatMap_append, flatMap_cons, flatMap_cons,
    hcong pre fun i hi => (hpre i hi).ne, hcong post fun i hi => (hpost i hi).1.ne',
    flatMap_eq_nil_iff.mpr hlow, hrow, takeWhile_cons_of_pos (by simpa using hm)]
  rfl

theorem Advanced.rowsLeft_length (h : Good st) (ha : Advanced st st.tree.winner st')
    (hrow : st.remaining st.tree.winner = c.currentRow :: st'.remaining st.tree.winner) :
    st.rowsLeft.length = st'.rowsLeft.length + 1 := by
  obtain ⟨pre, post, hs, hpre, hpost⟩ := range_split (h.played.winner_lt h.pos)
  have hcong : ∀ l : List Nat, (∀ i ∈ l, i ≠ st.tree.winner) →
      l.flatMap st'.remaining = l.flatMap st.remaining :=
    fun l hl => flatMap_congr fun i hi => ha.other i (hl i hi)
  unfold State.rowsLeft
  rw [ha.streams]
  show ((List.range st.tree.numStreams).flatMap _).length =
    ((List.range st.tree.numStreams).flatMap _).length + 1
  rw [hs, flatMap_append, flatMap_append, flatMap_cons, flatMap_cons,
    hcong pre fun i hi => (hpre i hi).ne, hcong post fun i hi => (hpost i hi).1.ne', hrow]
  simp only [length_append, length_cons]
  omega

theorem MergeRow.Denotes.mono {buffer buffer' : List (BufferedBatch κ σ ο)} {m : MergeRow σ}
    (h : m.Denotes buffer r) (hp : buffer <+: buffer') :
    m.Denotes buffer' r := by
  refine ⟨?_, h.2⟩
  have hrow := h.1
  unfold sourceRowAt at hrow ⊢
  split at hrow
  · rename_i batch hb
    rw [getElem?_mono hp hb]
    exact hrow
  · cases hrow

theorem Good.mergeRow_denotes (h : Good st) (hc : st.cursors i = some c) :
    (c.mergeRow ((st.streamBatchIdx i).getD 0)).Denotes st.batchBuffer c.currentRow := by
  obtain ⟨b, hb, hbuf⟩ := h.registered i c hc
  refine ⟨?_, rfl, rfl, rfl⟩
  rw [hb]
  show sourceRowAt st.batchBuffer b c.offset = some c.currentRow
  rw [sourceRowAt, hbuf]
  exact getElem?_eq_getElem c.inBatch

/-- what the inner loop for the key `m` does: `rows` refer to the leading rows, which are gone -/
structure Collected (m : κ) (st : State κ σ ο) (rows : List (MergeRow σ)) (st' : State κ σ ο) :
    Prop where
  good : Good st'
  streams : st'.numStreams = st.numStreams
  denotes : List.Forall₂ (MergeRow.Denotes st'.batchBuffer) rows (leading m st)
  remaining : ∀ i, i < st.numStreams →
    st'.remaining i = (st.remaining i).dropWhile fun r => r.key = m
  buffer : st.batchBuffer <+: st'.batchBuffer
  indices : st'.outputIndices = st.outputIndices

theorem Collected.none (h : Good st)
    (hno : ∀ i, i < st.numStreams → ∀ r tl, st.remaining i = r :: tl → r.key ≠ m) :
    Collected m st [] st := by
  have htake : ∀ i, i < st.numStreams → (st.remaining i).takeWhile (fun r => decide (r.key = m)) = [] ∧
        (st.remaining i).dropWhile (fun r => decide (r.key = m)) = st.remaining i := by
    intro i hi
    cases hr : st.remaining i with
    | nil => exact ⟨rfl, rfl⟩
    | cons r tl =>
      have hne : ¬ decide (r.key = m) = true := by simpa using hno i hi r tl hr
      exact ⟨takeWhile_cons_of_neg hne, dropWhile_cons_of_neg hne⟩
  refine ⟨h, rfl, ?_, fun i hi => (htake i hi).2.symm, prefix_rfl, rfl⟩
  rw [leading, flatMap_eq_nil_iff.mpr fun i hi => (htake i (mem_range.mp hi)).1]
  exact .nil

/-- **The inner loop collects the leading rows of the winner's key.** -/
theorem collect_good {fuel : Nat} (acc : List (MergeRow σ)) (h : Good st)
    (hf : st.rowsLeft.length < fuel) (hm : ∀ i, i < st.numStreams → ∀ r ∈ st.remaining i, m ≤ r.key) :
    ∃ st' rows, State.collect m fuel st acc = .ok (st', acc ++ rows) ∧ Collected m st rows st' := by
  induction fuel generalizing st acc with
  | zero => omega
  | succ fuel ih =>
    unfold State.collect
    cases hc : st.cursors st.tree.winner with
    | none =>
      refine ⟨st, [], by rw [append_nil], Collected.none h fun i hi r tl hr => ?_⟩
      rw [h.all_exhausted hc hi] at hr
      cases hr
    | some c =>
      by_cases hkey : c.currentRow.key = m
      · obtain ⟨st1, hadv, ha, hrow⟩ := advance_good h hc
        have hlen := ha.rowsLeft_length h hrow
        have hwlt := h.played.winner_lt h.pos
        obtain ⟨st', rows, hcol, hd⟩ := ih (acc ++ [c.mergeRow ((st.streamBatchIdx st.tree.winner).getD 0)])
          ha.good (by omega) (fun i hi r hr => by
            rw [ha.streams] at hi
            by_cases hiw : i = st.tree.winner
            · subst hiw
              exact hm _ hi r (by rw [hrow]; exact mem_cons_of_mem _ hr)
            · rw [ha.other i hiw] at hr
              exact hm i hi r hr)
        refine ⟨st', c.mergeRow ((st.streamBatchIdx st.tree.winner).getD 0) :: rows, ?_,
          hd.good, hd.streams.trans ha.streams, ?_, fun i hi => ?_, ha.buffer.trans hd.buffer,
          hd.indices.trans ha.indices⟩
        · simp only [hkey, if_true, hadv]
          rw [hcol, append_assoc]
          rfl
        · rw [ha.leading_eq h hc hkey hrow]
          exact .cons ((h.mergeRow_denotes hc).mono (ha.buffer.trans hd.buffer)) hd.denotes
        · rw [hd.remaining i (by rw [ha.streams]; exact hi)]
          by_cases hiw : i = st.tree.winner
          · rw [hiw, hrow, dropWhile_cons_of_pos (by simpa using hkey)]
          · rw [ha.other i hiw]
      · -- the winner's key is past `m`, hence every head is
        refine ⟨st, [], by simp [hkey], Collected.none h fun i hi r tl hr => ?_⟩
        have hge := h.head_ge hc hi hr
        have hcm : m ≤ c.currentRow.key := by
          refine hm _ (h.played.winner_lt h.pos) _ ?_
          rw [Good.remaining_some hc]
          exact mem_cons_self
        exact ne_of_gt (lt_of_lt_of_le (lt_of_le_of_ne hcm (Ne.symm hkey)) hge)

/-! ## compaction -/

theorem compactFrom_get (alive : Nat → Bool) (rest : List (BufferedBatch κ σ ο)) (oldIdx : Nat)
    (newIndices : Nat → Option Nat) (newBuffer : List (BufferedBatch κ σ ο)) :
    newBuffer <+: (compactFrom alive rest oldIdx newIndices newBuffer).2 ∧ (∀ i, i < oldIdx →
        (compactFrom alive rest oldIdx newIndices newBuffer).1 i = newIndices i) ∧
      ∀ j b, rest[j]? = some b → alive (oldIdx + j) = true →
        ∃ n, (compactFrom alive rest oldIdx newIndices newBuffer).1 (oldIdx + j) = some n ∧
          (compactFrom alive rest oldIdx newIndices newBuffer).2[n]? = some b := by
  induction rest generalizing oldIdx newIndices newBuffer with
  | nil =>
    refine ⟨prefix_rfl, fun _ _ => rfl, fun j b hj => ?_⟩
    simp at hj
  | cons b rest ih =>
    unfold compactFrom
    by_cases ha : alive oldIdx = true
    · simp only [ha, if_true]
      obtain ⟨hp, hlow, hget⟩ := ih (oldIdx + 1)
        (Function.update newIndices oldIdx (some newBuffer.length)) (newBuffer ++ [b])
      refine ⟨(prefix_append ..).trans hp, fun i hi => ?_, fun j b' hj hal => ?_⟩
      · rw [hlow i (by omega), Function.update_of_ne (by omega)]
      · cases j with
        | zero =>
          simp only [getElem?_cons_zero, Option.some.injEq] at hj
          subst hj
          refine ⟨newBuffer.length, ?_, getElem?_mono hp getElem?_concat_length⟩
          show (compactFrom _ _ _ _ _).1 oldIdx = _
          rw [hlow oldIdx (by omega), Function.update_self]
        | succ j =>
          rw [getElem?_cons_succ] at hj
          rw [show oldIdx + (j + 1) = oldIdx + 1 + j by omega] at hal ⊢
          exact hget j b' hj hal
    · simp only [ha, Bool.false_eq_true, if_false]
      obtain ⟨hp, hlow, hget⟩ := ih (oldIdx + 1) newIndices newBuffer
      refine ⟨hp, fun i hi => hlow i (by omega), fun j b' hj hal => ?_⟩
      cases j with
      | zero => exact absurd hal ha
      | succ j =>
        rw [getElem?_cons_succ] at hj
        rw [show oldIdx + (j + 1) = oldIdx + 1 + j by omega] at hal ⊢
        exact hget j b' hj hal

/-- **Compaction keeps the state good.** -/
theorem compact_good (h : Good st) : Good st.compactBatchBuffer := by
  refine ⟨h.pos, h.inRange, h.played, fun i c hc => ?_, h.exhausted, h.delivers⟩
  have hc' : st.cursors i = some c := hc
  obtain ⟨b, hb, hbuf⟩ := h.registered i c hc'
  have hi : i < st.numStreams := by
    by_contra hlt
    rw [h.inRange i (by omega)] at hc'
    cases hc'
  have halive : aliveIdx st.numStreams st.cursors st.streamBatchIdx (0 + b) = true := by
    rw [aliveIdx, any_eq_true]
    exact ⟨i, mem_range.mpr hi, by simp [hc', hb]⟩
  obtain ⟨n, hn, hget⟩ := (compactFrom_get (aliveIdx st.numStreams st.cursors st.streamBatchIdx)
    st.batchBuffer 0 (fun _ => Option.none) []).2.2 b _ hbuf halive
  rw [Nat.zero_add] at hn
  refine ⟨n, ?_, hget⟩
  show remapIdx _ (st.cursors i) (st.streamBatchIdx i) = some n
  rw [hc', hb]
  exact hn

end Paimon.SortMerge
