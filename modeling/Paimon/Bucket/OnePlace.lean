import Paimon.Bucket.Routing

/-!
# A key lives in one place

* `live`, `LivesAt`: the row of a key that survives in a bucket, and in one bucket only;
* `Located`: the index knows where the live rows are;
* `deduplicate_step`, `firstRow_known`, `firstRow_new`, `useOld_known`, `useOld_new`: what one row does under
  each merge engine;
* `upserts_keep_one_place`: where the live row of every key is after any sequence of batches.
-/

namespace Paimon.CrossPartition

open List

open SortMerge (RowKind)
open GlobalPartitionIndex

variable {ο : Type}

/-! ### What a bucket holds -/

def history (log : List (Event ο)) (k : Bytes) : List (Event ο) :=
  log.filter fun e => decide (e.key = k)

/-- the row of a key that survives in a bucket.  First-row keeps the first event; the others keep the
last one, which for partial-update and aggregation only tells that the key has a row. -/
def live (engine : MergeEngine) (log : List (Event ο)) (k : Bytes) : Option (Event ο) :=
  match engine with
  | .firstRow => (history log k).head?
  | _ => (history log k).getLast?.filter fun e => e.kind.isAdd

theorem history_append (a b : List (Event ο)) (k : Bytes) :
    history (a ++ b) k = history a k ++ history b k := filter_append a b

theorem history_sent (row : UpsertRow ο) (res : AssignResult) (q : PartitionBucketKey) (k : Bytes) :
    history (sent row res q) k = if row.key = k then sent row res q else [] := by
  have hkey : ∀ e ∈ sent row res q, e.key = row.key := by
    intro e he
    have hev : ∃ q' kind, e = row.event q' kind := by
      cases res with
      | skip => exact nomatch he
      | samePartition | useOldPartition => exact ⟨q, _, (mem_ite_nil_right.mp he).2 |> mem_singleton.mp⟩
      | crossPartition op ob nb =>
        rcases mem_append.mp he with he | he
        · exact ⟨q, _, (mem_ite_nil_right.mp he).2 |> mem_singleton.mp⟩
        · exact ⟨q, _, (mem_ite_nil_right.mp he).2 |> mem_singleton.mp⟩
    obtain ⟨q', kind, rfl⟩ := hev
    rfl
  unfold history
  by_cases hk : row.key = k
  · rw [if_pos hk, filter_eq_self]
    intro e he
    simp [hkey e he, hk]
  · rw [if_neg hk, filter_eq_nil_iff]
    intro e he
    simp [hkey e he, hk]

variable {engine : MergeEngine} {k : Bytes} {a b : List (Event ο)}

theorem live_append_nil
    (h : history b k = []) : live engine (a ++ b) k = live engine a k := by
  cases engine <;> simp [live, history_append, h]

variable {idx idx' : GlobalPartitionIndex} {evs : Logs ο}

theorem Routed.absent {rows : List (UpsertRow ο)}
    (h : Routed idx rows evs idx') (hk : ∀ row ∈ rows, row.key ≠ k) :
    (∀ q, history (evs q) k = []) ∧ idx'.keyToLocation.lookup k = idx.keyToLocation.lookup k := by
  induction h with
  | nil => exact ⟨fun q => rfl, rfl⟩
  | @cons idx idx₁ idx' row rows res evs ha hr ih =>
    obtain ⟨hrow, hrows⟩ := forall_mem_cons.mp hk
    obtain ⟨hh, hl⟩ := ih hrows
    refine ⟨fun q => ?_, hl.trans ((assign_cases ha).lookup_ne hrow.symm)⟩
    rw [history_append, history_sent, if_neg hrow, hh, append_nil]

/-- the index knows exactly where the live rows are -/
def Located (engine : MergeEngine) (idx : GlobalPartitionIndex) (logs : Logs ο) : Prop :=
  ∀ k q, (live engine (logs q) k).isSome ↔ idx.keyToLocation.lookup k = some q

variable {logs : Logs ο} {idx : GlobalPartitionIndex}

theorem Located.live_eq_none
    (h : Located engine idx logs) {q : PartitionBucketKey}
    (hq : idx.keyToLocation.lookup k ≠ some q) : live engine (logs q) k = none :=
  Option.not_isSome_iff_eq_none.mp fun hs => hq ((h k q).mp hs)

variable {row : UpsertRow ο}

theorem Located.step {idx idx₁ : GlobalPartitionIndex} {res : AssignResult} (h : Located engine idx logs)
    (ha : Assigned idx row.key row.partition res idx₁)
    (hown : ∀ q, (live engine (logs q ++ sent row res q) row.key).isSome ↔
      idx₁.keyToLocation.lookup row.key = some q) :
    Located engine idx₁ (fun q => logs q ++ sent row res q) := by
  intro k q
  by_cases hk : row.key = k
  · exact hk ▸ hown q
  · have hnil : history (sent row res q) k = [] := by rw [history_sent, if_neg hk]
    rw [live_append_nil hnil, ha.lookup_ne (Ne.symm hk)]
    exact h k q

/-! ### Deduplicate -/

section Engines

variable {idx idx' idx₁ : GlobalPartitionIndex} {logs evs : Logs ο} {row : UpsertRow ο}
  {rows : List (UpsertRow ο)} {res : AssignResult} {pre post : List (UpsertRow ο)}

theorem live_append_event (log : List (Event ο)) (row : UpsertRow ο) (q : PartitionBucketKey)
    (kind : RowKind) : live .deduplicate (log ++ [row.event q kind]) row.key
      = if kind.isAdd then some (row.event q kind) else none := by
  have hh : history [row.event q kind] row.key = [row.event q kind] := by
    simp [history, UpsertRow.event]
  unfold live
  dsimp only
  rw [history_append, hh, getLast?_concat]
  cases kind <;> rfl

theorem deduplicate_step (hloc : Located .deduplicate idx logs)
    (he : idx.mergeEngine = .deduplicate) (hk : row.kind = .insert)
    (ha : Assigned idx row.key row.partition res idx₁) :
    ∃ b, idx₁.keyToLocation.lookup row.key = some (row.partition, b) ∧
      ∀ q, live .deduplicate (logs q ++ sent row res q) row.key
        = if q = (row.partition, b) then some (row.event q .insert) else none := by
  have hadd : RowKind.insert.isAdd = true := rfl
  have hdel : RowKind.delete.isAdd = false := rfl
  cases ha with
  | dropped _ _ h => exact absurd (h.symm.trans he) (by decide)
  | kept _ _ h => exact absurd he h
  | @stays b hlook =>
    refine ⟨b, hlook, fun q => ?_⟩
    unfold sent
    dsimp only
    by_cases hq : q = (row.partition, b)
    · rw [if_pos hq, if_pos hq, hk, live_append_event, hadd, if_pos rfl]
    · rw [if_neg hq, if_neg hq, append_nil]
      exact hloc.live_eq_none (by rw [hlook]; exact fun h => hq (Option.some.inj h).symm)
  | @new b hlook =>
    refine ⟨b, AList.lookup_insert _, fun q => ?_⟩
    unfold sent
    dsimp only
    by_cases hq : q = (row.partition, b)
    · rw [if_pos hq, if_pos hq, hk, live_append_event, hadd, if_pos rfl]
    · rw [if_neg hq, if_neg hq, append_nil]
      exact hloc.live_eq_none (by rw [hlook]; exact (Option.some_ne_none _).symm)
  | @moves op ob nb hlook hp =>
    refine ⟨nb, AList.lookup_insert _, fun q => ?_⟩
    unfold sent
    dsimp only
    by_cases hq : q = (row.partition, nb)
    · rw [if_pos hq, if_pos hq, hk, ← append_assoc, live_append_event, hadd, if_pos rfl]
    · rw [if_neg hq, if_neg hq, append_nil]
      by_cases hold : q = (op, ob)
      · -- the DELETE is the last event of the key at its old place
        rw [if_pos hold, live_append_event, hdel, if_neg Bool.false_ne_true]
      · rw [if_neg hold, append_nil]
        exact hloc.live_eq_none (by rw [hlook]; exact fun h => hold (Option.some.inj h).symm)

theorem Routed.located_deduplicate (h : Routed idx rows evs idx')
    (he : idx.mergeEngine = .deduplicate) (hk : ∀ row ∈ rows, row.kind = .insert) :
    ∀ {logs : Logs ο}, Located .deduplicate idx logs →
      Located .deduplicate idx' (fun q => logs q ++ evs q) := by
  induction h with
  | nil => simp
  | @cons idx idx₁ idx' row rows res evs ha hr ih =>
    intro logs hloc
    obtain ⟨hrow, hrows⟩ := forall_mem_cons.mp hk
    have ha := assign_cases ha
    obtain ⟨b, hlook, hlive⟩ := deduplicate_step hloc he hrow ha
    have hstep := hloc.step ha (fun q => by
      rw [hlive, hlook]
      by_cases hq : q = (row.partition, b)
      · simp [hq]
      · simp [hq, Ne.symm hq])
    simpa [append_assoc] using ih (ha.engine.trans he) hrows hstep

theorem Routed.live_deduplicate
    (h : Routed idx (pre ++ row :: post) evs idx') (he : idx.mergeEngine = .deduplicate)
    (hk : ∀ r ∈ pre ++ row :: post, r.kind = .insert) (hloc : Located .deduplicate idx logs)
    (hlast : ∀ r ∈ post, r.key ≠ row.key) :
    ∃ b, ∀ q, live .deduplicate (logs q ++ evs q) row.key
      = if q = (row.partition, b) then some (row.event q .insert) else none := by
  obtain ⟨idx₁, la, lb, hpre, hpost, hsplit⟩ := h.split
  have hloc₁ := hpre.located_deduplicate he (fun r hr => hk r (mem_append_left _ hr)) hloc
  cases hpost with
  | @cons _ idx₂ _ _ _ res lb ha hpost =>
    obtain ⟨b, -, hlive⟩ := deduplicate_step hloc₁ (hpre.engine.trans he) (hk row (by simp)) (assign_cases ha)
    refine ⟨b, fun q => ?_⟩
    rw [hsplit, ← append_assoc, ← append_assoc, live_append_nil ((hpost.absent hlast).1 q)]
    exact hlive q

/-! ### First-row -/

variable {at₀ : PartitionBucketKey}

theorem live_firstRow_append
    (h : (live .firstRow a k).isSome) : live .firstRow (a ++ b) k = live .firstRow a k := by
  unfold live at h ⊢
  dsimp only at h ⊢
  rw [history_append]
  cases hh : history a k with
  | nil => simp [hh] at h
  | cons e es => rfl

theorem firstRow_known (hloc : Located .firstRow idx logs) (he : idx.mergeEngine = .firstRow)
    (ha : Assigned idx row.key row.partition res idx₁)
    (hlook : idx.keyToLocation.lookup row.key = some at₀) (q : PartitionBucketKey) :
    live .firstRow (logs q ++ sent row res q) row.key = live .firstRow (logs q) row.key ∧
      idx₁.keyToLocation.lookup row.key = some at₀ := by
  cases ha with
  | new h => exact absurd (h.symm.trans hlook) (Option.some_ne_none _).symm
  | kept _ _ _ h => exact absurd he h
  | moves _ _ h => exact absurd (h.symm.trans he) (by decide)
  | dropped => exact ⟨by simp [sent], hlook⟩
  | @stays b h =>
    refine ⟨?_, hlook⟩
    by_cases hq : q = (row.partition, b)
    · exact live_firstRow_append ((hloc row.key q).mpr (hq ▸ h))
    · simp [sent, hq]

theorem firstRow_new (hloc : Located .firstRow idx logs) (hk : row.kind = .insert)
    (ha : Assigned idx row.key row.partition res idx₁)
    (hlook : idx.keyToLocation.lookup row.key = none) :
    ∃ b, idx₁.keyToLocation.lookup row.key = some (row.partition, b) ∧
      ∀ q, live .firstRow (logs q ++ sent row res q) row.key
        = if q = (row.partition, b) then some (row.event q .insert) else none := by
  cases ha with
  | stays h | kept h | moves h | dropped h => exact absurd (hlook.symm.trans h) (Option.some_ne_none _).symm
  | @new b =>
    refine ⟨b, AList.lookup_insert _, fun q => ?_⟩
    have hnone : live .firstRow (logs q) row.key = none :=
      hloc.live_eq_none (by rw [hlook]; exact (Option.some_ne_none _).symm)
    by_cases hq : q = (row.partition, b)
    · have hh : history (logs q) row.key = [] := head?_eq_none_iff.mp hnone
      rw [if_pos hq]
      unfold live sent
      dsimp only
      rw [history_append, hh, if_pos hq, hk]
      simp [history, UpsertRow.event]
    · simp [sent, hq, hnone]

theorem firstRow_located (hloc : Located .firstRow idx logs) (he : idx.mergeEngine = .firstRow)
    (hk : row.kind = .insert) (ha : Assigned idx row.key row.partition res idx₁) :
    Located .firstRow idx₁ (fun q => logs q ++ sent row res q) := by
  refine hloc.step ha fun q => ?_
  cases hlook : idx.keyToLocation.lookup row.key with
  | none =>
    obtain ⟨b, hl, hlive⟩ := firstRow_new hloc hk ha hlook
    rw [hlive, hl]
    by_cases hq : q = (row.partition, b)
    · simp [hq]
    · simp [hq, Ne.symm hq]
  | some at₀ =>
    obtain ⟨hlive, hl⟩ := firstRow_known hloc he ha hlook q
    rw [hlive, hl, ← hlook]
    exact hloc row.key q

theorem Routed.located_firstRow (h : Routed idx rows evs idx') (he : idx.mergeEngine = .firstRow)
    (hk : ∀ row ∈ rows, row.kind = .insert) :
    ∀ {logs : Logs ο}, Located .firstRow idx logs → Located .firstRow idx' (fun q => logs q ++ evs q) ∧
        ∀ k, (idx.keyToLocation.lookup k).isSome → ∀ q,
          live .firstRow (logs q ++ evs q) k = live .firstRow (logs q) k := by
  induction h with
  | nil => simp
  | @cons idx idx₁ idx' row rows res evs ha hr ih =>
    intro logs hloc
    obtain ⟨hrow, hrows⟩ := forall_mem_cons.mp hk
    have ha := assign_cases ha
    have hstep := firstRow_located hloc he hrow ha
    obtain ⟨hend, hkeep⟩ := ih (ha.engine.trans he) hrows hstep
    refine ⟨by simpa [append_assoc] using hend, fun k hs q => ?_⟩
    obtain ⟨at₀, hlook⟩ := Option.isSome_iff_exists.mp hs
    rw [← append_assoc]
    by_cases hkey : row.key = k
    · subst hkey
      obtain ⟨hlive, hl⟩ := firstRow_known hloc he ha hlook q
      rw [hkeep _ (by rw [hl]; rfl), hlive]
    · rw [hkeep k (by rw [ha.lookup_ne (Ne.symm hkey), hlook]; rfl),
        live_append_nil (by rw [history_sent, if_neg hkey])]

theorem Routed.live_firstRow (h : Routed idx (pre ++ row :: post) evs idx') (he : idx.mergeEngine = .firstRow)
    (hk : ∀ r ∈ pre ++ row :: post, r.kind = .insert) (hloc : Located .firstRow idx logs)
    (hfirst : ∀ r ∈ pre, r.key ≠ row.key) (hnew : idx.keyToLocation.lookup row.key = none) :
    ∃ b, ∀ q, live .firstRow (logs q ++ evs q) row.key
      = if q = (row.partition, b) then some (row.event q .insert) else none := by
  obtain ⟨idx₁, la, lb, hpre, hpost, hsplit⟩ := h.split
  obtain ⟨hloc₁, -⟩ := hpre.located_firstRow he (fun r hr => hk r (mem_append_left _ hr)) hloc
  have hlook₁ := (hpre.absent hfirst).2.trans hnew
  cases hpost with
  | @cons _ idx₂ _ _ _ res lb ha hpost =>
    have ha := assign_cases ha
    have he₁ := hpre.engine.trans he
    have hrow := hk row (by simp)
    obtain ⟨b, hl, hlive⟩ := firstRow_new hloc₁ hrow ha hlook₁
    have hloc₂ := firstRow_located hloc₁ he₁ hrow ha
    obtain ⟨-, hkeep⟩ := hpost.located_firstRow (ha.engine.trans he₁) (fun r hr => hk r (by simp [hr])) hloc₂
    refine ⟨b, fun q => ?_⟩
    rw [hsplit, ← append_assoc, ← append_assoc, hkeep _ (by rw [hl]; rfl)]
    exact hlive q

/-! ### Partial-update and aggregation -/

theorem useOld_known (hd : idx.mergeEngine ≠ .deduplicate) (hf : idx.mergeEngine ≠ .firstRow)
    (ha : Assigned idx row.key row.partition res idx₁)
    (hlook : idx.keyToLocation.lookup row.key = some at₀) :
    (∀ q, sent row res q = if q = at₀ then [row.event q row.kind] else []) ∧
      idx₁.keyToLocation.lookup row.key = some at₀ := by
  cases ha with
  | new h => exact absurd (h.symm.trans hlook) (Option.some_ne_none _).symm
  | dropped _ _ h => exact absurd h hf
  | moves _ _ h => exact absurd h hd
  | stays h | kept h =>
    obtain rfl := Option.some.inj (h.symm.trans hlook)
    exact ⟨fun q => rfl, hlook⟩

theorem useOld_new (ha : Assigned idx row.key row.partition res idx₁)
    (hlook : idx.keyToLocation.lookup row.key = none) :
    ∃ b, (∀ q, sent row res q = if q = (row.partition, b) then [row.event q row.kind] else []) ∧
      idx₁.keyToLocation.lookup row.key = some (row.partition, b) := by
  cases ha with
  | stays h | kept h | moves h | dropped h => exact absurd (hlook.symm.trans h) (Option.some_ne_none _).symm
  | @new b => exact ⟨b, fun q => rfl, AList.lookup_insert _⟩

def routedRows (rows : List (UpsertRow ο)) (k : Bytes) (at₀ q : PartitionBucketKey) : List (Event ο) :=
  if q = at₀ then (rows.filter fun r => decide (r.key = k)).map fun r => r.event q r.kind else []

theorem routedRows_cons_ne (hk : row.key ≠ k) (at₀ q : PartitionBucketKey) :
    routedRows (row :: rows) k at₀ q = routedRows rows k at₀ q := by
  simp [routedRows, hk]

theorem routedRows_cons (at₀ q : PartitionBucketKey) : routedRows (row :: rows) row.key at₀ q
      = (if q = at₀ then [row.event q row.kind] else []) ++ routedRows rows row.key at₀ q := by
  by_cases hq : q = at₀ <;> simp [routedRows, hq]

theorem Routed.useOld_known (h : Routed idx rows evs idx') :
    idx.mergeEngine ≠ .deduplicate → idx.mergeEngine ≠ .firstRow → idx.keyToLocation.lookup k = some at₀ →
      ∀ q, history (evs q) k = routedRows rows k at₀ q := by
  induction h with
  | nil => simp [history, routedRows]
  | @cons idx idx₁ idx' row rows res evs ha hr ih =>
    intro hd hf hlook q
    have ha := assign_cases ha
    have hd' : idx₁.mergeEngine ≠ .deduplicate := by rwa [ha.engine]
    have hf' : idx₁.mergeEngine ≠ .firstRow := by rwa [ha.engine]
    rw [history_append, history_sent]
    by_cases hk : row.key = k
    · subst hk
      obtain ⟨hsent, hl⟩ := CrossPartition.useOld_known hd hf ha hlook
      rw [if_pos rfl, hsent, ih hd' hf' hl, routedRows_cons]
    · rw [if_neg hk, nil_append, ih hd' hf' ((ha.lookup_ne (Ne.symm hk)).trans hlook), routedRows_cons_ne hk]

theorem Routed.useOld (h : Routed idx rows evs idx') :
    idx.mergeEngine ≠ .deduplicate → idx.mergeEngine ≠ .firstRow → (∃ row ∈ rows, row.key = k) →
      ∃ at₀, (∀ q, idx.keyToLocation.lookup k = some q → q = at₀) ∧ (idx.keyToLocation.lookup k = none →
          (rows.find? fun r => decide (r.key = k)).map UpsertRow.partition = some at₀.1) ∧
        ∀ q, history (evs q) k = routedRows rows k at₀ q := by
  induction h with
  | nil => simp
  | @cons idx idx₁ idx' row rows res evs ha hr ih =>
    intro hd hf hex
    cases hlook : idx.keyToLocation.lookup k with
    | some at₀ =>
      exact ⟨at₀, fun q hq => (Option.some.inj hq).symm, fun hn => absurd hn (Option.some_ne_none _),
        (Routed.cons ha hr).useOld_known hd hf hlook⟩
    | none =>
      have ha := assign_cases ha
      have hd' : idx₁.mergeEngine ≠ .deduplicate := by rwa [ha.engine]
      have hf' : idx₁.mergeEngine ≠ .firstRow := by rwa [ha.engine]
      by_cases hk : row.key = k
      · subst hk
        obtain ⟨b, hsent, hl⟩ := useOld_new ha hlook
        refine ⟨(row.partition, b), fun q hq => absurd hq (Option.some_ne_none _).symm,
          fun _ => by simp, fun q => ?_⟩
        rw [history_append, history_sent, if_pos rfl, hsent, hr.useOld_known hd' hf' hl, routedRows_cons]
      · obtain ⟨r, hr', hrk⟩ := hex
        have hin : r ∈ rows := (mem_cons.mp hr').resolve_left fun h => hk (h ▸ hrk)
        obtain ⟨at₀, -, hfirst, hhist⟩ := ih hd' hf' ⟨r, hin, hrk⟩
        refine ⟨at₀, fun q hq => absurd hq (Option.some_ne_none _).symm, fun _ => ?_, fun q => ?_⟩
        · rw [find?_cons_of_neg (by simpa using hk)]
          exact hfirst ((ha.lookup_ne (Ne.symm hk)).trans hlook)
        · rw [history_append, history_sent, if_neg hk, nil_append, hhist, routedRows_cons_ne hk]

end Engines

/-! ### Whole runs -/

/-- what the bootstrap scan of a table delivers: the primary keys of its live rows, each once.  So
the table has at most one live row per key. -/
structure Scanned (engine : MergeEngine) (logs : Logs ο)
    (scan : List (PartitionBucketKey × List Bytes)) : Prop where
  complete : ∀ q k, (live engine (logs q) k).isSome ↔ ∃ keys, (q, keys) ∈ scan ∧ k ∈ keys
  once : ((scannedKeys scan).map Prod.snd).Nodup

/-- the key has one live row in the whole table, and it is `e`, in bucket `at₀` -/
def LivesAt (engine : MergeEngine) (logs : Logs ο) (k : Bytes) (at₀ : PartitionBucketKey)
    (e : Event ο) : Prop :=
  ∀ q, live engine (logs q) k = if q = at₀ then some e else none

theorem LivesAt.of_event {b : Int} (h : ∀ q, live engine (logs q) row.key
      = if q = (row.partition, b) then some (row.event q .insert) else none) :
    LivesAt engine logs row.key (row.partition, b) (row.event (row.partition, b) .insert) := by
  intro q
  rw [h q]
  by_cases hq : q = (row.partition, b)
  · rw [if_pos hq, if_pos hq, hq]
  · rw [if_neg hq, if_neg hq]

theorem Scanned.located {target : Int}
    {scan : List (PartitionBucketKey × List Bytes)}
    (hs : Scanned engine logs scan) (hl : Loaded (scannedKeys scan) target engine idx) :
    Located engine idx logs := by
  intro k q
  rw [hs.complete, hl.lookup, mem_scannedKeys]

theorem Routed.throughout
    (h : Routed idx (pre ++ row :: post) evs idx')
    (hc : idx.Counted) :
    ∃ out idx₁ res idx₂, assignRows idx 0 pre = .ok (out, idx₁) ∧
      idx₁.assign row.key row.partition = .ok (res, idx₂) ∧ idx₁.Counted ∧ idx₂.Counted ∧
      (1 ≤ idx.targetBucketRowNumber → ∀ q, idx₂.keyToLocation.lookup row.key = some q →
        idx₁.keyToLocation.lookup row.key ≠ some q →
        ((idx₁.keyToLocation.census fun q' => decide (q' = q) : Nat) : Int) < idx.targetBucketRowNumber) := by
  obtain ⟨idx₁, la, lb, hpre, hpost, -⟩ := h.split
  obtain ⟨out, hout⟩ := hpre.assigned 0
  have hc₁ := hpre.counted hc
  cases hpost with
  | @cons _ idx₂ _ _ _ res _ ha _ =>
    refine ⟨out, idx₁, res, idx₂, hout, ha, hc₁, (assign_cases ha).counted hc₁, fun ht q hq hold => ?_⟩
    rw [← hpre.target]
    exact (assign_cases ha).room hc₁ (by rwa [hpre.target]) hq hold

/-- Upserts of a key that moves between partitions.  Every run over insert rows leaves one live row
per key: under deduplicate the last row in its own partition, under first-row the row that came
first; under partial-update and aggregation all rows of a key are in one bucket.  All along the
counters count the keys of their bucket, and with a positive target no full bucket gets a key. -/
theorem upserts_keep_one_place {engine : MergeEngine} {target : Int} {logs : Logs ο}
    {scan : List (PartitionBucketKey × List Bytes)} {batches : List (List (UpsertRow ο))}
    (hs : Scanned engine logs scan) (hins : ∀ row ∈ batches.flatten, row.kind = .insert) :
    (((scannedKeys scan).length + batches.flatten.length : Nat) ≤ i32Max →
      ∃ st', writeBatches scan ⟨⟨none, target, engine⟩, logs⟩ batches = .ok st') ∧
    ∀ st', writeBatches scan ⟨⟨none, target, engine⟩, logs⟩ batches = .ok st' → (engine = .deduplicate →
        (∀ pre row post, batches.flatten = pre ++ row :: post → (∀ r ∈ post, r.key ≠ row.key) →
          ∃ b, LivesAt engine st'.logs row.key (row.partition, b) (row.event (row.partition, b) .insert)) ∧
        ∀ k, (∀ row ∈ batches.flatten, row.key ≠ k) →
          ∀ q, live engine (st'.logs q) k = live engine (logs q) k) ∧
      (∀ pre row post, batches.flatten = pre ++ row :: post →
        ∃ idx out idx₁ res idx₂, loadFromDataScan scan target engine = .ok idx ∧
          assignRows idx 0 pre = .ok (out, idx₁) ∧
          idx₁.assign row.key row.partition = .ok (res, idx₂) ∧ idx₁.Counted ∧ idx₂.Counted ∧
          (1 ≤ target → ∀ q, idx₂.keyToLocation.lookup row.key = some q →
            idx₁.keyToLocation.lookup row.key ≠ some q →
            ((idx₁.keyToLocation.census fun q' => decide (q' = q) : Nat) : Int) < target)) ∧
      (engine = .firstRow → (∀ k q e, live engine (logs q) k = some e → LivesAt engine st'.logs k q e) ∧
        ∀ pre row post, batches.flatten = pre ++ row :: post → (∀ r ∈ pre, r.key ≠ row.key) →
          (∀ q, live engine (logs q) row.key = none) →
          ∃ b, LivesAt engine st'.logs row.key (row.partition, b) (row.event (row.partition, b) .insert)) ∧
      (engine = .partialUpdate ∨ engine = .aggregation → ∀ k, (∃ row ∈ batches.flatten, row.key = k) →
          ∃ at₀, (∀ q, (live engine (logs q) k).isSome → q = at₀) ∧ ((∀ q, live engine (logs q) k = none) →
              (batches.flatten.find? fun r => decide (r.key = k)).map UpsertRow.partition = some at₀.1) ∧
            ∀ q, history (st'.logs q) k = history (logs q) k ++ routedRows batches.flatten k at₀ q) := by
  obtain ⟨idx, hload, hl⟩ := loadFromDataScan_loaded scan target engine hs.once
  have hloc := hs.located hl
  refine ⟨fun hn => writeBatches_ok _ hload hl.small hn, fun st' hw => ?_⟩
  have hindex : (⟨none, target, engine⟩ : CrossPartitionAssigner).index scan = .ok idx := hload
  obtain ⟨idx', evs, -, hr, hlogs⟩ := writeBatches_routed hindex hw
  have hlogs' : st'.logs = fun q => logs q ++ evs q := funext hlogs
  have hnone : ∀ k, (∀ q, live engine (logs q) k = none) → idx.keyToLocation.lookup k = none := by
    intro k hk
    rw [Option.eq_none_iff_forall_ne_some]
    intro q hq
    have hsome := (hloc k q).mpr hq
    rw [hk q] at hsome
    exact Bool.false_ne_true hsome
  rw [hlogs']
  refine ⟨?_, ?_, ?_, ?_⟩
  · rintro rfl
    refine ⟨fun pre row post hsplit hlast => ?_, fun k hk q => live_append_nil ((hr.absent hk).1 q)⟩
    rw [hsplit] at hr hins
    obtain ⟨b, hb⟩ := hr.live_deduplicate hl.engine hins hloc hlast
    exact ⟨b, .of_event hb⟩
  · intro pre row post hsplit
    rw [hsplit] at hr
    obtain ⟨out, idx₁, res, idx₂, h₁, h₂, hc₁, hc₂, hroom⟩ := hr.throughout hl.counted
    rw [hl.target] at hroom
    exact ⟨idx, out, idx₁, res, idx₂, hload, h₁, h₂, hc₁, hc₂, hroom⟩
  · rintro rfl
    refine ⟨fun k q e he q' => ?_, fun pre row post hsplit hfirst hnew => ?_⟩
    · have hlook := (hloc k q).mp (by rw [he]; rfl)
      rw [(hr.located_firstRow hl.engine hins hloc).2 k (by rw [hlook]; rfl)]
      by_cases hq : q' = q
      · rw [if_pos hq, hq, he]
      · rw [if_neg hq]
        exact hloc.live_eq_none (by rw [hlook]; exact fun h => hq (Option.some.inj h).symm)
    · rw [hsplit] at hr hins
      obtain ⟨b, hb⟩ := hr.live_firstRow hl.engine hins hloc hfirst (hnone _ hnew)
      exact ⟨b, .of_event hb⟩
  · intro heng k hex
    have hd : idx.mergeEngine ≠ .deduplicate := by
      rw [hl.engine]
      rcases heng with rfl | rfl <;> decide
    have hf : idx.mergeEngine ≠ .firstRow := by
      rw [hl.engine]
      rcases heng with rfl | rfl <;> decide
    obtain ⟨at₀, hknown, hfirst, hhist⟩ := hr.useOld hd hf hex
    refine ⟨at₀, fun q hq => hknown q ((hloc k q).mp hq), fun hn => hfirst (hnone k hn), fun q => ?_⟩
    rw [history_append, hhist]

/-- a key that leaves its partition and comes back, the first two rows in one batch -/
def roundTrip : List (List (UpsertRow Nat)) :=
  [[⟨[0], [1], none, 10⟩, ⟨[0], [2], none, 11⟩], [⟨[0], [1], some .insert, 12⟩]]

theorem upserts_keep_one_place_round_trip :
    ∃ st', writeBatches [] ⟨⟨none, 1, .deduplicate⟩, fun _ => []⟩ roundTrip = .ok st' ∧
      ∃ b, LivesAt .deduplicate st'.logs [0] ([1], b) ⟨[0], [1], .insert, 12⟩ := by
  have hs : Scanned .deduplicate (fun _ => [] : Logs Nat) [] :=
    ⟨fun q k => by simp [live, history], nodup_nil⟩
  obtain ⟨hok, hrun⟩ := @upserts_keep_one_place Nat .deduplicate 1 _ _ roundTrip hs (by decide)
  obtain ⟨st', hst⟩ := hok (by decide)
  refine ⟨st', hst, ?_⟩
  exact ((hrun st' hst).1 rfl).1 [⟨[0], [1], none, 10⟩, ⟨[0], [2], none, 11⟩]
    ⟨[0], [1], some .insert, 12⟩ [] rfl (by simp)

/-- A target of zero is not refused: bucket 0 of the partition receives a key although it already
holds as many keys as the target allows. -/
theorem zero_target_fills_full_bucket : ∃ idx res idx₁, loadFromDataScan [] 0 .deduplicate = .ok idx ∧
      idx.assign [0] [1] = .ok (res, idx₁) ∧ idx.keyToLocation.lookup [0] = none ∧
      idx₁.keyToLocation.lookup [0] = some ([1], 0) ∧
      ¬ ((idx.keyToLocation.census fun q => decide (q = (([1], 0) : PartitionBucketKey)) : Nat) : Int)
        < idx.targetBucketRowNumber :=
  ⟨empty 0 .deduplicate, .samePartition 0, (empty 0 .deduplicate).placed [0] ([1], 0), rfl, rfl, rfl,
    rfl, by decide⟩

end Paimon.CrossPartition
