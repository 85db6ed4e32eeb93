import Paimon.Bucket.CrossPartition

/-!
# What the assigner does, row by row

* `assign_cases`: everything `assign` can do to the index;
* `Counted`: the counters are the census of the locations;
* `Routed`: a run of `assign` over rows, with the events each bucket gets;
* `writeBatches_routed`: batching and regrouping deliver exactly those events, in order;
* `writeBatches_ok`: a run only fails when a partition runs out of bucket ids.
-/

namespace Paimon.CrossPartition

open List

open SortMerge (RowKind)

variable {ο : Type} {q : PartitionBucketKey} {k : Bytes} {p : Bytes}

namespace GlobalPartitionIndex

variable {idx idx' : GlobalPartitionIndex}

theorem countOf_setCount (idx : GlobalPartitionIndex) (q q' : PartitionBucketKey) (n : Int) :
    (idx.setCount q n).countOf q' = if q' = q then n else idx.countOf q' := by
  obtain ⟨p, b⟩ := q
  obtain ⟨p', b'⟩ := q'
  unfold countOf setCount
  by_cases hp : p' = p
  · subst hp
    by_cases hb : b' = b
    · subst hb
      simp
    · simp [hb, AList.lookup_insert_ne hb]
  · simp [hp]

@[simp] theorem countOf_setLocation (idx : GlobalPartitionIndex) (k : Bytes)
    (q q' : PartitionBucketKey) : (idx.setLocation k q).countOf q' = idx.countOf q' := rfl

theorem nextUnused_notMem (buckets : AList fun _ : Int => Int) : nextUnused buckets ∉ buckets.keys := by
  unfold nextUnused
  split
  · next n hn => simpa using find?_some hn
  · next hn =>
    -- all of the first `length + 1` ids would be keys: too many
    have hsub : (List.range (buckets.entries.length + 1)).map Int.ofNat ⊆ buckets.keys := by
      intro x hx
      obtain ⟨n, hmem, rfl⟩ := mem_map.mp hx
      simpa using find?_eq_none.mp hn n hmem
    have hnd : ((List.range (buckets.entries.length + 1)).map Int.ofNat).Nodup :=
      nodup_range.map Int.ofNat_injective
    have hle := (subperm_of_subset hnd hsub).length_le
    simp [AList.keys, List.keys] at hle

theorem firstNonFull_spec {buckets : AList fun _ : Int => Int} {target bucket : Int}
    (h : firstNonFull buckets target = some bucket) :
    ∃ n, buckets.lookup bucket = some n ∧ n < target := by
  have hmem := min?_mem h
  obtain ⟨e, he, rfl⟩ := mem_map.mp hmem
  obtain ⟨hin, hlt⟩ := mem_filter.mp he
  exact ⟨e.2, AList.mem_lookup_iff.mpr hin, by simpa using hlt⟩

theorem assignBucketInPartition_spec {b : Int}
    (h : idx.assignBucketInPartition p = .ok (b, idx')) :
    idx' = idx.setCount (p, b) (idx.countOf (p, b) + 1) ∧
      (idx.countOf (p, b) < idx.targetBucketRowNumber ∨ idx.countOf (p, b) = 0) := by
  unfold assignBucketInPartition at h
  dsimp only at h
  split at h
  · next bucket hb =>
    obtain ⟨n, hn, hlt⟩ := firstNonFull_spec hb
    obtain ⟨rfl, rfl⟩ := Prod.mk.inj (Except.ok.inj h)
    exact ⟨rfl, .inl (by simpa [countOf, hn] using hlt)⟩
  · split at h
    · exact nomatch h
    · obtain ⟨rfl, rfl⟩ := Prod.mk.inj (Except.ok.inj h)
      have hz : idx.countOf (p, nextUnused (idx.partitionBucketCounts p)) = 0 := by
        have hn := AList.lookup_eq_none.mpr (nextUnused_notMem (idx.partitionBucketCounts p))
        simp [countOf, hn]
      exact ⟨by rw [hz]; rfl, .inr hz⟩

def placed (idx : GlobalPartitionIndex) (k : Bytes) (q : PartitionBucketKey) :
    GlobalPartitionIndex :=
  (idx.setCount q (idx.countOf q + 1)).setLocation k q

def HasRoom (idx : GlobalPartitionIndex) (q : PartitionBucketKey) : Prop :=
  idx.countOf q < idx.targetBucketRowNumber ∨ idx.countOf q = 0

variable {k p : Bytes}

theorem place_spec {b : Int} (h : idx.place k p = .ok (b, idx')) :
    idx' = idx.placed k (p, b) ∧ idx.HasRoom (p, b) := by
  unfold place at h
  obtain ⟨⟨b', idx₁⟩, h₁, h⟩ := bind_ok h
  obtain ⟨rfl, hroom⟩ := assignBucketInPartition_spec h₁
  obtain ⟨rfl, rfl⟩ := Prod.mk.inj (Except.ok.inj h)
  exact ⟨rfl, hroom⟩

/-- the old counter goes down, the key is placed anew -/
def moved (idx : GlobalPartitionIndex) (k : Bytes) (old new : PartitionBucketKey) :
    GlobalPartitionIndex :=
  (idx.setCount old (idx.countOf old - 1)).placed k new

inductive Assigned (idx : GlobalPartitionIndex) (k p : Bytes) :
    AssignResult → GlobalPartitionIndex → Prop
  | stays {b : Int} : idx.keyToLocation.lookup k = some (p, b) →
      Assigned idx k p (.samePartition b) idx
  | new {b : Int} : idx.keyToLocation.lookup k = none → idx.HasRoom (p, b) →
      Assigned idx k p (.samePartition b) (idx.placed k (p, b))
  | dropped {op : Bytes} {ob : Int} : idx.keyToLocation.lookup k = some (op, ob) → op ≠ p →
      idx.mergeEngine = .firstRow → Assigned idx k p .skip idx
  | kept {op : Bytes} {ob : Int} : idx.keyToLocation.lookup k = some (op, ob) → op ≠ p →
      idx.mergeEngine ≠ .deduplicate → idx.mergeEngine ≠ .firstRow →
      Assigned idx k p (.useOldPartition op ob) idx
  | moves {op : Bytes} {ob nb : Int} : idx.keyToLocation.lookup k = some (op, ob) → op ≠ p →
      idx.mergeEngine = .deduplicate → idx.HasRoom (p, nb) →
      Assigned idx k p (.crossPartition op ob nb) (idx.moved k (op, ob) (p, nb))

variable {res : AssignResult}

theorem assign_cases (h : idx.assign k p = .ok (res, idx')) : Assigned idx k p res idx' := by
  unfold assign at h
  split at h
  · next op ob hloc =>
    split at h
    · next hp =>
      obtain ⟨rfl, rfl⟩ := Prod.mk.inj (Except.ok.inj h)
      exact .stays (hp ▸ hloc)
    · next hp =>
      split at h
      · next he =>
        obtain ⟨rfl, rfl⟩ := Prod.mk.inj (Except.ok.inj h)
        exact .dropped hloc hp he
      · next he =>
        obtain ⟨⟨nb, idx₁⟩, h₁, h⟩ := bind_ok h
        obtain ⟨rfl, hroom⟩ := place_spec h₁
        obtain ⟨rfl, rfl⟩ := Prod.mk.inj (Except.ok.inj h)
        -- the old counter belongs to another partition
        have hne : ((p, nb) : PartitionBucketKey) ≠ (op, ob) :=
          fun hq => hp (congrArg Prod.fst hq).symm
        refine .moves hloc hp he ?_
        unfold HasRoom at hroom ⊢
        rwa [countOf_setCount, if_neg hne] at hroom
      all_goals
        next he =>
        obtain ⟨rfl, rfl⟩ := Prod.mk.inj (Except.ok.inj h)
        exact .kept hloc hp (by simp [he]) (by simp [he])
  · next hloc =>
    obtain ⟨⟨b, idx₁⟩, h₁, h⟩ := bind_ok h
    obtain ⟨rfl, hroom⟩ := place_spec h₁
    obtain ⟨rfl, rfl⟩ := Prod.mk.inj (Except.ok.inj h)
    exact .new hloc hroom

/-- the counters are the census of the locations -/
def Counted (idx : GlobalPartitionIndex) : Prop :=
  ∀ q, idx.countOf q = idx.keyToLocation.census (fun q' => decide (q' = q))

theorem countOf_placed (idx : GlobalPartitionIndex) (k : Bytes) (q q' : PartitionBucketKey) :
    (idx.placed k q).countOf q' = idx.countOf q' + if q = q' then 1 else 0 := by
  unfold placed
  rw [countOf_setLocation, countOf_setCount]
  by_cases h : q = q'
  · simp [h]
  · simp [h, Ne.symm h]

theorem Counted.placed (hc : idx.Counted) (hk : idx.keyToLocation.lookup k = none)
    (q : PartitionBucketKey) : (idx.placed k q).Counted := by
  intro q'
  have hn := AList.census_insert_new hk q (fun q'' => decide (q'' = q'))
  rw [countOf_placed, hc q']
  show _ = (((idx.keyToLocation.insert k q).census _ : Nat) : Int)
  rw [hn]
  by_cases hq : q = q' <;> simp [hq]

theorem countOf_lowered (idx : GlobalPartitionIndex) (q q' : PartitionBucketKey) :
    (idx.setCount q (idx.countOf q - 1)).countOf q' = idx.countOf q' - if q = q' then 1 else 0 := by
  rw [countOf_setCount]
  by_cases h : q = q'
  · simp [h]
  · simp [h, Ne.symm h]

theorem Assigned.counted (h : Assigned idx k p res idx') (hc : idx.Counted) : idx'.Counted := by
  cases h with
  | stays | dropped | kept => exact hc
  | @new b hloc =>
    exact hc.placed hloc (p, b)
  | @moves op ob nb hloc =>
    intro q
    have hn := AList.census_insert_old hloc (p, nb) (fun q' => decide (q' = q))
    show (GlobalPartitionIndex.placed _ k (p, nb)).countOf q
      = (((idx.keyToLocation.insert k (p, nb)).census _ : Nat) : Int)
    rw [countOf_placed, countOf_lowered, hc q]
    by_cases h₁ : (p, nb) = q <;> by_cases h₂ : (op, ob) = q
    all_goals simp only [h₁, h₂, decide_true, decide_false, Bool.toNat_true, Bool.toNat_false,
      if_true, if_false] at hn ⊢
    all_goals omega

theorem Assigned.room (h : Assigned idx k p res idx') (hc : idx.Counted) (ht : 1 ≤ idx.targetBucketRowNumber)
    (hq : idx'.keyToLocation.lookup k = some q)
    (hold : idx.keyToLocation.lookup k ≠ some q) :
    ((idx.keyToLocation.census fun q' => decide (q' = q) : Nat) : Int) < idx.targetBucketRowNumber := by
  rw [← hc q]
  have hroom : idx.HasRoom q := by
    cases h with
    | stays | dropped | kept => exact absurd hq hold
    | new hloc hroom | moves hloc hp he hroom =>
      obtain rfl := Option.some.inj ((AList.lookup_insert _).symm.trans hq)
      exact hroom
  rcases hroom with h | h <;> omega

theorem Assigned.engine (h : Assigned idx k p res idx') : idx'.mergeEngine = idx.mergeEngine := by
  cases h <;> rfl

theorem Assigned.target (h : Assigned idx k p res idx') :
    idx'.targetBucketRowNumber = idx.targetBucketRowNumber := by
  cases h <;> rfl

theorem Assigned.lookup_ne (h : Assigned idx k p res idx') {k' : Bytes} (hk : k' ≠ k) :
    idx'.keyToLocation.lookup k' = idx.keyToLocation.lookup k' := by
  cases h with
  | stays | dropped | kept => rfl
  | new | moves => exact AList.lookup_insert_ne hk

end GlobalPartitionIndex

open GlobalPartitionIndex

/-! ### The events a run sends to each bucket -/

def UpsertRow.kind (row : UpsertRow ο) : RowKind := row.valueKind.getD .insert

/-- the events that one row with result `res` sends to bucket `q` -/
def sent (row : UpsertRow ο) (res : AssignResult) (q : PartitionBucketKey) : List (Event ο) :=
  match res with
  | .samePartition b => if q = (row.partition, b) then [row.event q row.kind] else []
  | .useOldPartition p b => if q = (p, b) then [row.event q row.kind] else []
  | .crossPartition op ob nb =>
    (if q = (op, ob) then [row.event q .delete] else []) ++
      if q = (row.partition, nb) then [row.event q row.kind] else []
  | .skip => []

inductive Routed : GlobalPartitionIndex → List (UpsertRow ο) → Logs ο → GlobalPartitionIndex → Prop
  | nil (idx : GlobalPartitionIndex) : Routed idx [] (fun _ => []) idx
  | cons {idx idx₁ idx' : GlobalPartitionIndex} {row : UpsertRow ο} {rows : List (UpsertRow ο)}
      {res : AssignResult} {logs : Logs ο} : idx.assign row.key row.partition = .ok (res, idx₁) →
      Routed idx₁ rows logs idx' → Routed idx (row :: rows) (fun q => sent row res q ++ logs q) idx'

variable {rows rows' : List (UpsertRow ο)}

theorem Routed.append {idx idx₁ idx' : GlobalPartitionIndex}
    {logs logs' : Logs ο} (h : Routed idx rows logs idx₁) (h' : Routed idx₁ rows' logs' idx') :
    Routed idx (rows ++ rows') (fun q => logs q ++ logs' q) idx' := by
  induction h with
  | nil => simpa using h'
  | cons ha _ ih => simpa [append_assoc] using Routed.cons ha (ih h')

/-- what is left after `rowIdx` only names later rows -/
def BatchAssignOutput.From (rowIdx : Nat) (out : BatchAssignOutput) : Prop :=
  (∀ n ∈ out.skips, rowIdx ≤ n) ∧ ∀ d ∈ out.deletes, rowIdx ≤ d.1

variable {rows : List (UpsertRow ο)}

theorem assignRows_from :
    ∀ {idx idx' : GlobalPartitionIndex} {rowIdx : Nat} {out : BatchAssignOutput},
      assignRows idx rowIdx rows = .ok (out, idx') → out.From rowIdx := by
  induction rows with
  | nil =>
    intro idx idx' rowIdx out h
    obtain ⟨rfl, -⟩ := Prod.mk.inj (Except.ok.inj h)
    simp [BatchAssignOutput.From]
  | cons row rows ih =>
    intro idx idx' rowIdx out h
    obtain ⟨⟨res, idx₁⟩, -, h⟩ := bind_ok h
    obtain ⟨⟨rest, idx₂⟩, h₂, h⟩ := bind_ok h
    obtain ⟨rfl, -⟩ := Prod.mk.inj (Except.ok.inj h)
    obtain ⟨hs, hd⟩ := ih h₂
    have hs' : ∀ n ∈ rest.skips, rowIdx ≤ n := fun n hn => Nat.le_of_succ_le (hs n hn)
    have hd' : ∀ d ∈ rest.deletes, rowIdx ≤ d.1 := fun d h => Nat.le_of_succ_le (hd d h)
    cases res with
    | samePartition | useOldPartition => exact ⟨hs', hd'⟩
    | crossPartition op ob nb => exact ⟨hs', forall_mem_cons.mpr ⟨le_rfl, hd'⟩⟩
    | skip => exact ⟨forall_mem_cons.mpr ⟨le_rfl, hs'⟩, hd'⟩

theorem Groups.at_push (groups : Groups ο) (q q' : PartitionBucketKey) (row : UpsertRow ο)
    (kind : RowKind) : (groups.push q (row.event q kind)).at q'
      = groups.at q' ++ if q' = q then [row.event q' kind] else [] := by
  unfold Groups.push Groups.at
  by_cases h : q' = q
  · subst h
    simp [AList.lookup_insert]
  · simp [AList.lookup_insert_ne h, h]

variable {row : UpsertRow ο} {rowIdx : Nat}

theorem takeDelete_later {groups : Groups ο}
    {deletes : List (Nat × Bytes × Int)} (h : ∀ d ∈ deletes, rowIdx + 1 ≤ d.1) :
    takeDelete rowIdx row groups deletes = (groups, deletes) := by
  cases deletes with
  | nil => rfl
  | cons d deletes =>
    have hd := h d mem_cons_self
    exact if_neg (by omega)

variable {res : AssignResult}

theorem divideRows_step {skips : List Nat} (groups : Groups ο)
    (rows : List (UpsertRow ο)) {rest : BatchAssignOutput}
    (hskip : rowIdx ∈ skips ↔ res = .skip) (hd : ∀ d ∈ rest.deletes, rowIdx + 1 ≤ d.1) :
    ∃ groups' : Groups ο, (∀ q, groups'.at q = groups.at q ++ sent row res q) ∧
      divideRows skips rowIdx groups (row :: rows) (rest.push rowIdx row res).partitionBytes
          (rest.push rowIdx row res).buckets (rest.push rowIdx row res).deletes
        = divideRows skips (rowIdx + 1) groups' rows rest.partitionBytes rest.buckets rest.deletes := by
  cases res with
  | skip =>
    refine ⟨groups, fun q => by simp [sent], ?_⟩
    simp only [BatchAssignOutput.push, divideRows, if_pos (hskip.mpr rfl)]
  | samePartition b =>
    refine ⟨groups.push (row.partition, b) (row.event (row.partition, b) row.kind), fun q => ?_, ?_⟩
    · rw [Groups.at_push, sent]
    · simp only [BatchAssignOutput.push, divideRows, hskip, takeDelete_later hd]
      rfl
  | useOldPartition p b =>
    refine ⟨groups.push (p, b) (row.event (p, b) row.kind), fun q => ?_, ?_⟩
    · rw [Groups.at_push, sent]
    · simp only [BatchAssignOutput.push, divideRows, hskip, takeDelete_later hd]
      rfl
  | crossPartition op ob nb =>
    refine ⟨(groups.push (op, ob) (row.event (op, ob) .delete)).push (row.partition, nb)
      (row.event (row.partition, nb) row.kind), fun q => ?_, ?_⟩
    · rw [Groups.at_push, Groups.at_push, append_assoc, sent]
    · simp only [BatchAssignOutput.push, divideRows, hskip, takeDelete]
      rfl

theorem divideRows_routed :
    ∀ {idx idx' : GlobalPartitionIndex} {rowIdx : Nat} {out : BatchAssignOutput} {skips : List Nat}
      (groups : Groups ο), assignRows idx rowIdx rows = .ok (out, idx') →
      (∀ n, rowIdx ≤ n → (n ∈ skips ↔ n ∈ out.skips)) →
      ∃ logs, Routed idx rows logs idx' ∧
        ∀ q, (divideRows skips rowIdx groups rows out.partitionBytes out.buckets out.deletes).at q
          = groups.at q ++ logs q := by
  induction rows with
  | nil =>
    intro idx idx' rowIdx out skips groups h hs
    obtain ⟨rfl, rfl⟩ := Prod.mk.inj (Except.ok.inj h)
    exact ⟨_, .nil idx, fun q => by simp [divideRows]⟩
  | cons row rows ih =>
    intro idx idx' rowIdx out skips groups h hs
    obtain ⟨⟨res, idx₁⟩, h₁, h⟩ := bind_ok h
    obtain ⟨⟨rest, idx₂⟩, h₂, h⟩ := bind_ok h
    obtain ⟨rfl, rfl⟩ := Prod.mk.inj (Except.ok.inj h)
    obtain ⟨hfs, hfd⟩ := assignRows_from h₂
    -- row `rowIdx` is skipped exactly if its own result says so
    have hself : rowIdx ∉ rest.skips := fun hm => absurd (hfs _ hm) (by omega)
    have hskip : rowIdx ∈ skips ↔ res = .skip := by
      rw [hs rowIdx le_rfl]
      cases res <;> simp [BatchAssignOutput.push, hself]
    have hrest : ∀ n, rowIdx + 1 ≤ n → (n ∈ skips ↔ n ∈ rest.skips) := by
      intro n hn
      have hne : n ≠ rowIdx := by omega
      rw [hs n (by omega)]
      cases res <;> simp [BatchAssignOutput.push, hne]
    obtain ⟨groups', hat, hstep⟩ := divideRows_step groups rows hskip hfd
    obtain ⟨logs, hr, hlogs⟩ := ih groups' h₂ hrest
    refine ⟨_, .cons h₁ hr, fun q => ?_⟩
    rw [hstep, hlogs, hat, append_assoc]

variable {scan : List (PartitionBucketKey × List Bytes)}

theorem writeBatch_routed {st st' : WriteState ο}
    {batch : List (UpsertRow ο)} (h : writeBatch scan st batch = .ok st') :
    ∃ idx idx' logs, st.assigner.index scan = .ok idx ∧ Routed idx batch logs idx' ∧
      st'.assigner = { st.assigner with globalPartitionIndex := some idx' } ∧
      ∀ q, st'.logs q = st.logs q ++ logs q := by
  obtain ⟨⟨out, assigner⟩, ha, h⟩ := bind_ok h
  obtain rfl := Except.ok.inj h
  obtain ⟨idx, hi, ha⟩ := bind_ok ha
  obtain ⟨⟨out', idx'⟩, hr, ha⟩ := bind_ok ha
  obtain ⟨rfl, rfl⟩ := Prod.mk.inj (Except.ok.inj ha)
  obtain ⟨logs, hrouted, hlogs⟩ :=
    divideRows_routed ∅ hr (fun n _ => Iff.rfl)
  refine ⟨idx, idx', logs, hi, hrouted, rfl, fun q => ?_⟩
  have hq := hlogs q
  show st.logs q ++ (divideRows out'.skips 0 ∅ batch _ _ _).at q = _
  rw [hq]
  rfl

variable {batches : List (List (UpsertRow ο))}

theorem writeBatches_routed : ∀ {st st' : WriteState ο} {idx : GlobalPartitionIndex},
      st.assigner.index scan = .ok idx → writeBatches scan st batches = .ok st' →
      ∃ idx' logs, st'.assigner.index scan = .ok idx' ∧ Routed idx batches.flatten logs idx' ∧
        ∀ q, st'.logs q = st.logs q ++ logs q := by
  induction batches with
  | nil =>
    intro st st' idx hi h
    obtain rfl := Except.ok.inj h
    exact ⟨idx, _, hi, .nil idx, fun q => (append_nil _).symm⟩
  | cons batch batches ih =>
    intro st st' idx hi h
    obtain ⟨st₁, h₁, h⟩ := bind_ok h
    obtain ⟨idx₀, idx₁, logs, hi₀, hr, has, hlogs⟩ := writeBatch_routed h₁
    obtain rfl := Except.ok.inj (hi₀.symm.trans hi)
    have hi₁ : st₁.assigner.index scan = .ok idx₁ := by rw [has]; rfl
    obtain ⟨idx', logs', hi', hr', hlogs'⟩ := ih hi₁ h
    refine ⟨idx', _, hi', hr.append hr', fun q => ?_⟩
    rw [hlogs', hlogs, append_assoc]

theorem Routed.split :
    ∀ {idx idx' : GlobalPartitionIndex} {logs : Logs ο}, Routed idx (rows ++ rows') logs idx' →
      ∃ idx₁ la lb, Routed idx rows la idx₁ ∧ Routed idx₁ rows' lb idx' ∧ ∀ q, logs q = la q ++ lb q := by
  induction rows with
  | nil => exact fun h => ⟨_, _, _, .nil _, h, fun q => rfl⟩
  | cons row rows ih =>
    intro idx idx' logs h
    cases h with
    | cons ha hr =>
      obtain ⟨idx₁, la, lb, h₁, h₂, hl⟩ := ih hr
      exact ⟨idx₁, _, lb, .cons ha h₁, h₂, fun q => by simp [hl, append_assoc]⟩

section RunLemmas

variable {idx idx' : GlobalPartitionIndex} {rows : List (UpsertRow ο)} {evs : Logs ο}

theorem Routed.counted (h : Routed idx rows evs idx') (hc : idx.Counted) : idx'.Counted := by
  induction h with
  | nil => exact hc
  | cons ha _ ih => exact ih ((assign_cases ha).counted hc)

theorem Routed.engine (h : Routed idx rows evs idx') : idx'.mergeEngine = idx.mergeEngine := by
  induction h with
  | nil => rfl
  | cons ha _ ih => exact ih.trans (assign_cases ha).engine

theorem Routed.target (h : Routed idx rows evs idx') :
    idx'.targetBucketRowNumber = idx.targetBucketRowNumber := by
  induction h with
  | nil => rfl
  | cons ha _ ih => exact ih.trans (assign_cases ha).target

theorem Routed.assigned (h : Routed idx rows evs idx') :
    ∀ rowIdx, ∃ out, assignRows idx rowIdx rows = .ok (out, idx') := by
  induction h with
  | nil => exact fun _ => ⟨_, rfl⟩
  | @cons _ _ _ row _ res _ ha _ ih =>
    intro rowIdx
    obtain ⟨out, hout⟩ := ih (rowIdx + 1)
    exact ⟨out.push rowIdx row res, by simp [assignRows, ha, hout, bind, Except.bind]⟩

end RunLemmas

/-! ### Bucket ids do not run out early -/

section Ids

variable {idx idx' : GlobalPartitionIndex}

def Small (idx : GlobalPartitionIndex) (n : Nat) : Prop :=
  ∀ p, (idx.partitionBucketCounts p).entries.length ≤ n

theorem nextUnused_le (buckets : AList fun _ : Int => Int) : nextUnused buckets ≤ buckets.entries.length := by
  unfold nextUnused
  split
  · next n hn =>
    have hmem := mem_range.mp (mem_of_find?_eq_some hn)
    omega
  · omega

theorem length_insert_le (m : AList fun _ : Int => Int) (b n : Int) :
    (m.insert b n).entries.length ≤ m.entries.length + 1 := by
  rw [AList.entries_insert, length_cons]
  exact Nat.succ_le_succ (kerase_sublist b m.entries).length_le

theorem length_setCount (idx : GlobalPartitionIndex) (q : PartitionBucketKey) (n : Int) (p : Bytes) :
    ((idx.setCount q n).partitionBucketCounts p).entries.length
      ≤ (idx.partitionBucketCounts p).entries.length + if p = q.1 then 1 else 0 := by
  unfold setCount
  by_cases hp : p = q.1
  · subst hp
    simpa using length_insert_le (idx.partitionBucketCounts q.1) q.2 n
  · simp [hp]

variable {n : Nat}

theorem assignBucketInPartition_ok
    (hs : (idx.partitionBucketCounts p).entries.length ≤ n) (hn : (n : Int) ≤ i32Max) :
    ∃ b idx', idx.assignBucketInPartition p = .ok (b, idx') := by
  unfold assignBucketInPartition
  dsimp only
  split
  · exact ⟨_, _, rfl⟩
  · have hle := nextUnused_le (idx.partitionBucketCounts p)
    rw [if_neg (by omega)]
    exact ⟨_, _, rfl⟩

variable {k p : Bytes}

theorem place_ok (hs : (idx.partitionBucketCounts p).entries.length ≤ n)
    (hn : (n : Int) ≤ i32Max) : ∃ b idx', idx.place k p = .ok (b, idx') := by
  obtain ⟨b, idx', h⟩ := assignBucketInPartition_ok hs hn
  exact ⟨b, idx'.setLocation k (p, b), by simp [place, h, bind, Except.bind]⟩

theorem assign_ok (k p : Bytes) (hs : Small idx n) (hn : (n : Int) ≤ i32Max) :
    ∃ res idx', idx.assign k p = .ok (res, idx') := by
  unfold assign
  split
  · next op ob hloc =>
    split
    · exact ⟨_, _, rfl⟩
    · next hp =>
      split
      · exact ⟨_, _, rfl⟩
      · have hlen := length_setCount idx (op, ob) (idx.countOf (op, ob) - 1) p
        rw [if_neg (Ne.symm hp)] at hlen
        obtain ⟨b, idx', h⟩ := place_ok (k := k) (hlen.trans (hs p)) hn
        exact ⟨_, idx', by dsimp only; rw [h]; rfl⟩
      · exact ⟨_, _, rfl⟩
      · exact ⟨_, _, rfl⟩
  · obtain ⟨b, idx', h⟩ := place_ok (k := k) (hs p) hn
    exact ⟨_, idx', by rw [h]; rfl⟩

theorem Small.assigned (hs : Small idx n)
    (ha : Assigned idx k p res idx') : Small idx' (n + 1) := by
  intro p'
  have hp' := hs p'
  cases ha with
  | stays | dropped | kept => omega
  | @new b =>
    have hlen := length_setCount idx (p, b) (idx.countOf (p, b) + 1) p'
    show ((idx.setCount (p, b) _).partitionBucketCounts p').entries.length ≤ _
    split at hlen <;> omega
  | @moves op ob nb _ hp =>
    -- the two counters are in different partitions
    have h₁ := length_setCount idx (op, ob) (idx.countOf (op, ob) - 1) p'
    have h₂ := length_setCount (idx.setCount (op, ob) (idx.countOf (op, ob) - 1)) (p, nb)
      ((idx.setCount (op, ob) (idx.countOf (op, ob) - 1)).countOf (p, nb) + 1) p'
    show (((idx.setCount (op, ob) _).setCount (p, nb) _).partitionBucketCounts p').entries.length ≤ _
    dsimp only at h₁ h₂
    by_cases h₃ : p' = op
    · rw [if_pos h₃] at h₁
      rw [if_neg (fun h => hp (h₃.symm.trans h))] at h₂
      omega
    · rw [if_neg h₃] at h₁
      split at h₂ <;> omega

theorem assignRows_ok (rows : List (UpsertRow ο)) :
    ∀ {idx : GlobalPartitionIndex} {n : Nat} (rowIdx : Nat), Small idx n →
      ((n + rows.length : Nat) : Int) ≤ i32Max →
      ∃ out idx', assignRows idx rowIdx rows = .ok (out, idx') ∧ Small idx' (n + rows.length) := by
  induction rows with
  | nil => exact fun rowIdx hs _ => ⟨_, _, rfl, hs⟩
  | cons row rows ih =>
    intro idx n rowIdx hs hn
    rw [length_cons] at hn ⊢
    obtain ⟨res, idx₁, h₁⟩ := assign_ok row.key row.partition hs (by omega)
    obtain ⟨out, idx', h₂, hs'⟩ := ih (rowIdx + 1) (hs.assigned (assign_cases h₁)) (by omega)
    refine ⟨out.push rowIdx row res, idx', by simp [assignRows, h₁, h₂, bind, Except.bind], ?_⟩
    rwa [show n + (rows.length + 1) = n + 1 + rows.length by omega]

theorem writeBatches_ok : ∀ (st : WriteState ο) {idx : GlobalPartitionIndex} {n : Nat},
      st.assigner.index scan = .ok idx → Small idx n →
      ((n + batches.flatten.length : Nat) : Int) ≤ i32Max →
      ∃ st', writeBatches scan st batches = .ok st' := by
  induction batches with
  | nil => exact fun st _ _ _ _ _ => ⟨st, rfl⟩
  | cons batch batches ih =>
    intro st idx n hi hs hn
    rw [flatten_cons, length_append] at hn
    obtain ⟨out, idx₁, h₁, hs₁⟩ := assignRows_ok batch 0 hs (by omega)
    obtain ⟨st', h'⟩ := ih ⟨{ st.assigner with globalPartitionIndex := some idx₁ },
      fun q => st.logs q ++ (divideCrossPartitionBatch batch out).at q⟩ rfl hs₁ (by omega)
    refine ⟨st', ?_⟩
    have hw : writeBatch scan st batch = .ok ⟨{ st.assigner with globalPartitionIndex := some idx₁ },
        fun q => st.logs q ++ (divideCrossPartitionBatch batch out).at q⟩ := by
      simp [writeBatch, CrossPartitionAssigner.assignBatch, hi, h₁, bind, Except.bind]
    show (writeBatch scan st batch >>= fun st => batches.foldlM (writeBatch scan) st) = _
    rw [hw]
    exact h'

end Ids

/-! ### Loading the index -/

section Load

variable {idx : GlobalPartitionIndex}

def scannedKeys (scan : List (PartitionBucketKey × List Bytes)) : List (PartitionBucketKey × Bytes) :=
  scan.flatMap fun split => split.2.map fun key => (split.1, key)

theorem mem_scannedKeys : (q, k) ∈ scannedKeys scan ↔ ∃ keys, (q, keys) ∈ scan ∧ k ∈ keys := by
  simp only [scannedKeys, mem_flatMap, mem_map, Prod.mk.injEq]
  constructor
  · rintro ⟨split, hs, k', hk, rfl, rfl⟩
    exact ⟨split.2, hs, hk⟩
  · rintro ⟨keys, hs, hk⟩
    exact ⟨(q, keys), hs, k, hk, rfl, rfl⟩

theorem loadFromDataScan_eq (scan : List (PartitionBucketKey × List Bytes)) (target : Int)
    (engine : MergeEngine) : loadFromDataScan scan target engine
      = (scannedKeys scan).foldlM (fun idx x => idx.loadKey x.1 x.2) (empty target engine) := by
  unfold loadFromDataScan scannedKeys
  generalize empty target engine = idx
  induction scan generalizing idx with
  | nil => rfl
  | cons split scan ih =>
    rw [flatMap_cons, foldlM_append, foldlM_cons, foldlM_map]
    congr 1
    funext idx
    exact ih idx

/-- the index after some keys of the scan have been read -/
structure Loaded (keys : List (PartitionBucketKey × Bytes)) (target : Int) (engine : MergeEngine)
    (idx : GlobalPartitionIndex) : Prop where
  counted : idx.Counted
  small : Small idx keys.length
  lookup : ∀ k q, idx.keyToLocation.lookup k = some q ↔ (q, k) ∈ keys
  target : idx.targetBucketRowNumber = target
  engine : idx.mergeEngine = engine

variable {engine : MergeEngine} {target : Int}

theorem Loaded.loadKey {keys : List (PartitionBucketKey × Bytes)}
    (h : Loaded keys target engine idx)
    (hk : k ∉ keys.map Prod.snd) :
    ∃ idx', idx.loadKey q k = .ok idx' ∧ Loaded (keys ++ [(q, k)]) target engine idx' := by
  have hnone : idx.keyToLocation.lookup k = none := by
    rw [Option.eq_none_iff_forall_ne_some]
    exact fun q' hq => hk (mem_map_of_mem (f := Prod.snd) ((h.lookup k q').mp hq))
  have hload : idx.loadKey q k = .ok (idx.placed k q) := by
    rw [GlobalPartitionIndex.loadKey, hnone]
    rfl
  refine ⟨_, hload, h.counted.placed hnone q, ?_, ?_, h.target, h.engine⟩
  · intro p
    have hlen := length_setCount idx q (idx.countOf q + 1) p
    have hp := h.small p
    rw [length_append, length_singleton]
    show ((idx.setCount q _).partitionBucketCounts p).entries.length ≤ _
    split at hlen <;> omega
  · intro k' q'
    rw [mem_append, mem_singleton, Prod.mk.injEq]
    show (idx.keyToLocation.insert k q).lookup k' = some q' ↔ _
    by_cases hk' : k' = k
    · subst hk'
      rw [AList.lookup_insert, Option.some_inj]
      constructor
      · exact fun hq => .inr ⟨hq.symm, rfl⟩
      · rintro (hm | ⟨hq, -⟩)
        · exact absurd (mem_map_of_mem (f := Prod.snd) hm) hk
        · exact hq.symm
    · rw [AList.lookup_insert_ne hk', h.lookup]
      simp [hk']

theorem loadKeys_loaded {rest : List (PartitionBucketKey × Bytes)} :
    ∀ {keys : List (PartitionBucketKey × Bytes)} {idx : GlobalPartitionIndex},
      Loaded keys target engine idx → ((keys ++ rest).map Prod.snd).Nodup →
      ∃ idx', rest.foldlM (fun idx x => idx.loadKey x.1 x.2) idx = .ok idx' ∧
        Loaded (keys ++ rest) target engine idx' := by
  induction rest with
  | nil => exact fun h _ => ⟨_, rfl, by simpa using h⟩
  | cons x rest ih =>
    intro keys idx h hnd
    rw [append_cons] at hnd ⊢
    have hk : x.2 ∉ keys.map Prod.snd := by
      have hsub : ((keys ++ [x]).map Prod.snd).Nodup := by
        rw [map_append] at hnd
        exact hnd.of_append_left
      rw [map_append, nodup_append] at hsub
      exact fun hm => hsub.2.2 _ hm _ (by simp) rfl
    obtain ⟨idx₁, h₁, hl⟩ := h.loadKey (q := x.1) hk
    obtain ⟨idx', h', hl'⟩ := ih hl hnd
    refine ⟨idx', ?_, hl'⟩
    rw [foldlM_cons, h₁]
    exact h'

theorem loadFromDataScan_loaded (scan : List (PartitionBucketKey × List Bytes)) (target : Int)
    (engine : MergeEngine) (h : ((scannedKeys scan).map Prod.snd).Nodup) :
    ∃ idx, loadFromDataScan scan target engine = .ok idx ∧ Loaded (scannedKeys scan) target engine idx := by
  rw [loadFromDataScan_eq]
  have hempty : Loaded [] target engine (empty target engine) :=
    ⟨fun q => rfl, fun p => le_rfl, by simp [empty], rfl, rfl⟩
  exact loadKeys_loaded hempty h

end Load

end Paimon.CrossPartition
