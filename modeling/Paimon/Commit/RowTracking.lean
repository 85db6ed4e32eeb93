import Paimon.Lib.Tiling
import Paimon.Commit.Runs

/-!
# Row ids are never given twice

`assign_row_tracking` keeps three kinds of counters: one for normal files, one for each blob column, set
back by every normal file, and one for vector files.

* `Tracks st files st'`: the loop over the entries, each with what became of it;
* `Tracks.normal`, `.blobs`, `.vectors`: each counter lays the ranges of its files end to end;
* `Fits`: every normal file is followed by vector files of as many rows, which keeps the counter of the
  vector files at that of the normal ones (`Tracks.inSync`);
* `publishAll`: commits one after the other.

Blob and vector files belong to the last normal file before them, of whatever partition: without
`group_by_partition` the files of two partitions must not be mixed (`interleaved_partitions_misaligned`).
-/

namespace Paimon

open Tiling List

/-! ## kinds of files -/

def isNewNormal (e : ManifestEntry) : Bool :=
  needsRowIds e && !isBlobDataFile e.file && !isVectorStoreFile e.file

def isNewBlob (field : String) (e : ManifestEntry) : Bool :=
  needsRowIds e && isBlobDataFile e.file && e.file.writeCols.bind List.head? == some field

def isNewVector (e : ManifestEntry) : Bool :=
  needsRowIds e && !isBlobDataFile e.file && isVectorStoreFile e.file

/-- the row ids of the selected files; a file is an entry with what became of it -/
def rowIds (p : ManifestEntry → Bool) (files : List (ManifestEntry × ManifestEntry)) : List (Int × Int) :=
  files.filterMap fun f =>
    if p f.1 then f.2.file.firstRowId.map fun first => (first, f.2.file.rowCount) else none

def rowsOf (p : ManifestEntry → Bool) (es : List ManifestEntry) : Int :=
  ((es.filter p).map fun e => e.file.rowCount).sum

/-- what follows a normal file, up to the next one -/
def following (es : List ManifestEntry) : List ManifestEntry := es.takeWhile fun e => !isNewNormal e

theorem rowsOf_cons (p : ManifestEntry → Bool) (e : ManifestEntry) (es : List ManifestEntry) :
    rowsOf p (e :: es) = (if p e then e.file.rowCount else 0) + rowsOf p es := by
  unfold rowsOf
  cases hp : p e <;> simp [hp]

/-! ## one entry -/

def RowTracking.blobStart (st : RowTracking) (field : String) : Int :=
  (st.blobStarts field).getD st.blobStartDefault

/-- what can become of an entry in the snapshot `n` -/
inductive Assigned (n : Int) (st : RowTracking) (e : ManifestEntry) : ManifestEntry → RowTracking → Prop
  | kept (hneeds : needsRowIds e = false) : Assigned n st e (assignSnapshotId n e) st
  | blob {field : String} (hblob : isNewBlob field e = true) (hlt : st.blobStart field < st.start) :
    Assigned n st e ((assignSnapshotId n e).withFirstRowId (st.blobStart field))
      { st with blobStarts :=
          Function.update st.blobStarts field (some (st.blobStart field + e.file.rowCount)) }
  | vector (hvector : isNewVector e = true) (hlt : st.vectorStoreStart < st.start) :
    Assigned n st e ((assignSnapshotId n e).withFirstRowId st.vectorStoreStart)
      { st with vectorStoreStart := st.vectorStoreStart + e.file.rowCount }
  | normal (hnormal : isNewNormal e = true) :
    Assigned n st e ((assignSnapshotId n e).withFirstRowId st.start)
      { st with start := st.start + e.file.rowCount, blobStartDefault := st.start,
                blobStarts := fun _ => none }

theorem assignSnapshotId_file (n : Int) (e : ManifestEntry) :
    (assignSnapshotId n e).kind = e.kind ∧ ∃ low high,
      (assignSnapshotId n e).file = { e.file with minSequenceNumber := low, maxSequenceNumber := high } := by
  unfold assignSnapshotId
  split
  · exact ⟨rfl, _, _, rfl⟩
  · split
    · exact ⟨rfl, _, _, rfl⟩
    · exact ⟨rfl, e.file.minSequenceNumber, e.file.maxSequenceNumber, rfl⟩

theorem needsRowIds_assignSnapshotId (n : Int) (e : ManifestEntry) :
    needsRowIds (assignSnapshotId n e) = needsRowIds e := by
  obtain ⟨hkind, low, high, hfile⟩ := assignSnapshotId_file n e
  unfold needsRowIds
  rw [hkind, hfile]

theorem isBlobDataFile_assignSnapshotId (n : Int) (e : ManifestEntry) :
    isBlobDataFile (assignSnapshotId n e).file = isBlobDataFile e.file := by
  obtain ⟨-, low, high, hfile⟩ := assignSnapshotId_file n e
  unfold isBlobDataFile
  rw [hfile]

theorem isVectorStoreFile_assignSnapshotId (n : Int) (e : ManifestEntry) :
    isVectorStoreFile (assignSnapshotId n e).file = isVectorStoreFile e.file := by
  obtain ⟨-, low, high, hfile⟩ := assignSnapshotId_file n e
  unfold isVectorStoreFile
  rw [hfile]

theorem rowCount_assignSnapshotId (n : Int) (e : ManifestEntry) :
    (assignSnapshotId n e).file.rowCount = e.file.rowCount := by
  obtain ⟨-, low, high, hfile⟩ := assignSnapshotId_file n e
  rw [hfile]

theorem writeCols_assignSnapshotId (n : Int) (e : ManifestEntry) :
    (assignSnapshotId n e).file.writeCols = e.file.writeCols := by
  obtain ⟨-, low, high, hfile⟩ := assignSnapshotId_file n e
  rw [hfile]

variable {e e' : ManifestEntry}

theorem assignRowIds_cases {n : Int} {st st' : RowTracking}
    (h : assignRowIds st (assignSnapshotId n e) = .ok (e', st')) : Assigned n st e e' st' := by
  unfold assignRowIds at h
  rw [needsRowIds_assignSnapshotId, isBlobDataFile_assignSnapshotId, isVectorStoreFile_assignSnapshotId,
    rowCount_assignSnapshotId, writeCols_assignSnapshotId] at h
  cases hneeds : needsRowIds e with
  | false =>
    rw [hneeds, Bool.not_false, if_pos rfl] at h
    cases h
    exact .kept hneeds
  | true =>
    rw [hneeds, Bool.not_true, if_neg Bool.false_ne_true] at h
    cases hblob : isBlobDataFile e.file with
    | true =>
      rw [hblob, if_pos rfl] at h
      cases hfield : e.file.writeCols.bind List.head? with
      | none =>
        rw [hfield] at h
        cases h
      | some field =>
        simp only [hfield] at h
        split at h
        · cases h
        · next hlt =>
          cases h
          exact .blob (by simp [isNewBlob, hneeds, hblob, hfield]) (not_le.mp hlt)
    | false =>
      rw [hblob, if_neg Bool.false_ne_true] at h
      cases hvector : isVectorStoreFile e.file with
      | true =>
        rw [hvector, if_pos rfl] at h
        split at h
        · cases h
        · next hlt =>
          cases h
          exact .vector (by simp [isNewVector, hneeds, hblob, hvector]) (not_le.mp hlt)
      | false =>
        rw [hvector, if_neg Bool.false_ne_true] at h
        cases h
        exact .normal (by simp [isNewNormal, hneeds, hblob, hvector])

variable {e : ManifestEntry}

theorem kinds_of_kept (h : needsRowIds e = false) (field : String) :
    isNewNormal e = false ∧ isNewBlob field e = false ∧ isNewVector e = false := by
  simp [isNewNormal, isNewBlob, isNewVector, h]

variable {field : String}

theorem kinds_of_blob (h : isNewBlob field e = true) :
    isNewNormal e = false ∧ isNewVector e = false ∧ ∀ other, isNewBlob other e = decide (other = field) := by
  simp only [isNewBlob, Bool.and_eq_true, beq_iff_eq] at h
  obtain ⟨⟨hneeds, hblob⟩, hfield⟩ := h
  refine ⟨by simp [isNewNormal, hblob], by simp [isNewVector, hblob], fun other => ?_⟩
  simp only [isNewBlob, hneeds, hblob, hfield, Bool.true_and]
  by_cases ho : other = field
  · simp [ho]
  · simp [ho, Ne.symm ho]

theorem kinds_of_vector (h : isNewVector e = true) :
    isNewNormal e = false ∧ ∀ field, isNewBlob field e = false := by
  simp only [isNewVector, Bool.and_eq_true, Bool.not_eq_true'] at h
  obtain ⟨⟨hneeds, hblob⟩, hvector⟩ := h
  exact ⟨by simp [isNewNormal, hvector], fun field => by simp [isNewBlob, hblob]⟩

theorem kinds_of_normal (h : isNewNormal e = true) :
    isNewVector e = false ∧ ∀ field, isNewBlob field e = false := by
  simp only [isNewNormal, Bool.and_eq_true, Bool.not_eq_true'] at h
  obtain ⟨⟨hneeds, hblob⟩, hvector⟩ := h
  exact ⟨by simp [isNewVector, hvector], fun field => by simp [isNewBlob, hblob]⟩

/-! ## the loop -/

/-- the loop over the entries, each with what became of it -/
inductive Tracks (n : Int) : RowTracking → List (ManifestEntry × ManifestEntry) → RowTracking → Prop
  | nil {st : RowTracking} : Tracks n st [] st
  | cons {st st₁ st' : RowTracking} {e e' : ManifestEntry} {files : List (ManifestEntry × ManifestEntry)}
      (h : Assigned n st e e' st₁) (hrest : Tracks n st₁ files st') : Tracks n st ((e, e') :: files) st'

theorem assignRowTrackingFrom_tracks {n next : Int} {st : RowTracking} {es assigned : List ManifestEntry}
    (h : assignRowTrackingFrom n st es = .ok (assigned, next)) :
    assigned.length = es.length ∧ ∃ st', Tracks n st (es.zip assigned) st' ∧ st'.start = next := by
  induction es generalizing st assigned next with
  | nil =>
    cases h
    exact ⟨rfl, st, .nil, rfl⟩
  | cons e es ih =>
    simp only [assignRowTrackingFrom] at h
    split at h
    · cases h
    · obtain ⟨⟨e', st₁⟩, he, h⟩ := bind_ok h
      obtain ⟨⟨rest, next'⟩, hrest, h⟩ := bind_ok h
      cases h
      obtain ⟨hlen, st', htracks, hst'⟩ := ih hrest
      exact ⟨congrArg (· + 1) hlen, st', .cons (assignRowIds_cases he) htracks, hst'⟩

variable {n : Int} {st st' : RowTracking} {files : List (ManifestEntry × ManifestEntry)}

theorem Tracks.split {a b : List (ManifestEntry × ManifestEntry)} (h : Tracks n st (a ++ b) st') :
    ∃ mid, Tracks n st a mid ∧ Tracks n mid b st' := by
  induction a generalizing st with
  | nil => exact ⟨st, .nil, h⟩
  | cons f a ih =>
    cases h with
    | cons hf hrest =>
      obtain ⟨mid, ha, hb⟩ := ih hrest
      exact ⟨mid, .cons hf ha, hb⟩

variable {p : ManifestEntry → Bool}

theorem rowIds_cons_pos {first : Int} (hp : p e = true) (hfirst : e'.file.firstRowId = some first)
    (files : List (ManifestEntry × ManifestEntry)) :
    rowIds p ((e, e') :: files) = (first, e'.file.rowCount) :: rowIds p files := by
  simp [rowIds, hp, hfirst]

theorem rowIds_cons_neg (hp : p e = false) (e' : ManifestEntry) (files : List (ManifestEntry × ManifestEntry)) :
    rowIds p ((e, e') :: files) = rowIds p files := by
  simp [rowIds, hp]

theorem Assigned.rowCount (h : Assigned n st e e' st') : e'.file.rowCount = e.file.rowCount := by
  cases h <;> exact rowCount_assignSnapshotId n e

theorem Assigned.firstRowId (h : Assigned n st e e' st') (hneeds : needsRowIds e = true) :
    ∃ first, e'.file.firstRowId = some first := by
  cases h with
  | kept hkept => exact absurd (hneeds.symm.trans hkept) Bool.noConfusion
  | _ => exact ⟨_, rfl⟩

theorem Assigned.untouched (h : Assigned n st e e' st') (hneeds : needsRowIds e = false) :
    e' = assignSnapshotId n e := by
  cases h with
  | kept _ => rfl
  | blob hblob _ => simp [isNewBlob, hneeds] at hblob
  | vector hvector _ => simp [isNewVector, hneeds] at hvector
  | normal hnormal => simp [isNewNormal, hneeds] at hnormal

theorem Tracks.forall {P : ManifestEntry → ManifestEntry → Prop} (h : Tracks n st files st')
    (hP : ∀ st e e' st', Assigned n st e e' st' → P e e') : ∀ f ∈ files, P f.1 f.2 := by
  induction h with
  | nil => exact forall_mem_nil _
  | cons hf _ ih =>
    exact forall_mem_cons.mpr ⟨hP _ _ _ _ hf, ih⟩

theorem Tracks.sum_rowIds (h : Tracks n st files st') (hp : ∀ e, p e = true → needsRowIds e = true) :
    ((rowIds p files).map Prod.snd).sum = rowsOf p (files.map Prod.fst) := by
  induction h with
  | nil => rfl
  | @cons st st₁ st' e e' files hf _ ih =>
    cases hpe : p e with
    | true =>
      obtain ⟨first, hfirst⟩ := hf.firstRowId (hp e hpe)
      rw [rowIds_cons_pos hpe hfirst, map_cons, sum_cons, ih, map_cons, rowsOf_cons, hpe,
        if_pos rfl, hf.rowCount]
    | false =>
      rw [rowIds_cons_neg hpe, ih, map_cons, rowsOf_cons, hpe, if_neg Bool.false_ne_true, zero_add]

theorem Tracks.counts (h : Tracks n st files st') (hcounts : ∀ f ∈ files, 0 ≤ f.1.file.rowCount) :
    ∀ f ∈ files, 0 ≤ f.2.file.rowCount := by
  intro f hf
  rw [h.forall (fun _ _ _ _ ha => ha.rowCount) f hf]
  exact hcounts f hf

theorem rowIds_nonneg (hcounts : ∀ f ∈ files, 0 ≤ f.2.file.rowCount) : ∀ r ∈ rowIds p files, 0 ≤ r.2 := by
  intro r hr
  obtain ⟨f, hf, hsome⟩ := mem_filterMap.mp hr
  split at hsome
  · obtain ⟨first, -, rfl⟩ := Option.map_eq_some_iff.mp hsome
    exact hcounts f hf
  · cases hsome

theorem Tracks.tile (counter : RowTracking → Int) (p : ManifestEntry → Bool) (h : Tracks n st files st')
    (hstep : ∀ st e e' st', (∃ e₀, (e, e₀) ∈ files) → Assigned n st e e' st' →
      (p e = true → e'.file.firstRowId = some (counter st) ∧ counter st' = counter st + e'.file.rowCount) ∧
      (p e = false → counter st' = counter st)) :
    Tile (counter st) (rowIds p files) (counter st') := by
  induction h with
  | nil => exact rfl
  | @cons st st₁ st' e e' files hf _ ih =>
    have hrest := ih fun st x x' st' hx => hstep st x x' st' (hx.imp fun _ h => mem_cons_of_mem _ h)
    obtain ⟨hpos, hneg⟩ := hstep st e e' st₁ ⟨e', mem_cons_self⟩ hf
    cases hp : p e with
    | true =>
      obtain ⟨hfirst, hcounter⟩ := hpos hp
      rw [rowIds_cons_pos hp hfirst]
      exact ⟨rfl, hcounter ▸ hrest⟩
    | false =>
      rw [rowIds_cons_neg hp, ← hneg hp]
      exact hrest

/-- **Normal files get consecutive row ids.** -/
theorem Tracks.normal (h : Tracks n st files st') : Tile st.start (rowIds isNewNormal files) st'.start := by
  refine h.tile RowTracking.start isNewNormal fun st e e' st' _ hf => ?_
  rw [hf.rowCount]
  cases hf with
  | kept hneeds => simp [(kinds_of_kept hneeds "").1]
  | blob hblob _ => simp [(kinds_of_blob hblob).1]
  | vector hvector _ => simp [(kinds_of_vector hvector).1]
  | normal hnormal => simp [hnormal, ManifestEntry.withFirstRowId]

theorem Tracks.vectors (h : Tracks n st files st') :
    Tile st.vectorStoreStart (rowIds isNewVector files) st'.vectorStoreStart := by
  refine h.tile RowTracking.vectorStoreStart isNewVector fun st e e' st' _ hf => ?_
  rw [hf.rowCount]
  cases hf with
  | kept hneeds => simp [(kinds_of_kept hneeds "").2.2]
  | blob hblob _ => simp [(kinds_of_blob hblob).2.1]
  | vector hvector _ => simp [hvector, ManifestEntry.withFirstRowId]
  | normal hnormal => simp [(kinds_of_normal hnormal).1]

theorem Tracks.blobs (h : Tracks n st files st') (hfiles : ∀ f ∈ files, isNewNormal f.1 = false)
    (field : String) : Tile (st.blobStart field) (rowIds (isNewBlob field) files) (st'.blobStart field) := by
  refine h.tile (fun st => st.blobStart field) (isNewBlob field) fun st e e' st' hmem hf => ?_
  rw [hf.rowCount]
  cases hf with
  | kept hneeds => simp [(kinds_of_kept hneeds field).2.1]
  | @blob other hblob _ =>
    rw [(kinds_of_blob hblob).2.2 field]
    by_cases ho : field = other
    · simp [ho, ManifestEntry.withFirstRowId, RowTracking.blobStart]
    · simp [ho, RowTracking.blobStart]
  | vector hvector _ =>
    simp [(kinds_of_vector hvector).2 field, RowTracking.blobStart]
  | normal hnormal =>
    obtain ⟨e₀, he₀⟩ := hmem
    have := hfiles _ he₀
    rw [hnormal] at this
    exact absurd this Bool.noConfusion

/-! ## vector files stay with their normal files -/

/-- every normal file is followed by vector files of as many rows -/
def Fits (es : List ManifestEntry) : Prop :=
  ∀ pre e rest, es = pre ++ e :: rest → isNewNormal e = true →
    rowsOf isNewVector (following rest) = e.file.rowCount

variable {es : List ManifestEntry}

theorem Fits.tail (h : Fits (e :: es)) : Fits es :=
  fun pre x rest hes => h (e :: pre) x rest (by rw [hes, cons_append])

theorem following_append {es rest : List ManifestEntry} (he : isNewNormal e = true) :
    following (es ++ e :: rest) = following es := by
  induction es with
  | nil => simp [following, he]
  | cons x es ih =>
    unfold following at ih ⊢
    rw [cons_append, takeWhile_cons, takeWhile_cons, ih]

theorem Fits.before {pre rest : List ManifestEntry} (h : Fits (pre ++ e :: rest)) (he : isNewNormal e = true) :
    Fits pre := by
  intro a x b hpre hx
  have := h a x (b ++ e :: rest) (by rw [hpre, append_assoc, cons_append]) hx
  rwa [following_append he] at this

theorem following_cons_neg (he : isNewNormal e = false) (es : List ManifestEntry) :
    following (e :: es) = e :: following es := by
  simp [following, he]

theorem following_cons_pos (he : isNewNormal e = true) (es : List ManifestEntry) :
    following (e :: es) = [] := by
  simp [following, he]

/-- **The counter of the vector files is at that of the normal files** wherever it was before, or as far
behind it as the vector files that are still to come have rows. -/
theorem Tracks.inSync (h : Tracks n st files st') (hfits : Fits (files.map Prod.fst))
    (hstart : st.start = st.vectorStoreStart ∨
      st.start = st.vectorStoreStart + rowsOf isNewVector (following (files.map Prod.fst))) :
    st'.start = st'.vectorStoreStart := by
  induction h with
  | nil =>
    rcases hstart with h | h
    · exact h
    · rw [h]
      exact Int.add_zero _
  | @cons st st₁ st' e e' files hf _ ih =>
    rw [map_cons] at hfits hstart
    refine ih hfits.tail ?_
    cases hf with
    | kept hneeds =>
      obtain ⟨hnormal, -, hvector⟩ := kinds_of_kept hneeds ""
      rwa [following_cons_neg hnormal, rowsOf_cons, hvector, if_neg Bool.false_ne_true, zero_add] at hstart
    | blob hblob _ =>
      obtain ⟨hnormal, hvector, -⟩ := kinds_of_blob hblob
      rwa [following_cons_neg hnormal, rowsOf_cons, hvector, if_neg Bool.false_ne_true, zero_add] at hstart
    | vector hvector hlt =>
      -- a vector file is refused where no normal file waits for it
      rw [following_cons_neg (kinds_of_vector hvector).1, rowsOf_cons, hvector, if_pos rfl] at hstart
      right
      show st.start = st.vectorStoreStart + e.file.rowCount + _
      omega
    | normal hnormal =>
      rw [following_cons_pos hnormal] at hstart
      have hsync : st.start = st.vectorStoreStart := by
        rcases hstart with h | h
        · exact h
        · rw [h]
          exact Int.add_zero _
      right
      show st.start + e.file.rowCount = st.vectorStoreStart + _
      rw [hfits [] e _ rfl hnormal, hsync]

/-! ## a normal file and what follows it -/

def followingFiles (files : List (ManifestEntry × ManifestEntry)) : List (ManifestEntry × ManifestEntry) :=
  files.takeWhile fun f => !isNewNormal f.1

theorem followingFiles_fst (files : List (ManifestEntry × ManifestEntry)) :
    (followingFiles files).map Prod.fst = following (files.map Prod.fst) := by
  unfold followingFiles following
  rw [takeWhile_map]
  rfl

variable {f : ManifestEntry × ManifestEntry}

theorem not_normal_of_following (h : f ∈ followingFiles files) : isNewNormal f.1 = false := by
  have := mem_takeWhile_imp h
  simpa using this

theorem needsRowIds_of_blob (h : isNewBlob field e = true) : needsRowIds e = true := by
  simp only [isNewBlob, Bool.and_eq_true] at h
  exact h.1.1

theorem needsRowIds_of_vector (h : isNewVector e = true) : needsRowIds e = true := by
  simp only [isNewVector, Bool.and_eq_true] at h
  exact h.1.1

/-- **Blob and vector files lie end to end from the first row of their normal file**, the vector files where
their counter was at that of the normal files. -/
theorem Tracks.block {pre rest : List (ManifestEntry × ManifestEntry)}
    (h : Tracks n st (pre ++ f :: rest) st') (hf : isNewNormal f.1 = true) :
    ∃ s, f.2.file.firstRowId = some s ∧ (∀ field, Tile s (rowIds (isNewBlob field) (followingFiles rest))
        (s + rowsOf (isNewBlob field) (following (rest.map Prod.fst)))) ∧
      (Fits (pre.map Prod.fst) → st.start = st.vectorStoreStart →
        Tile s (rowIds isNewVector (followingFiles rest))
          (s + rowsOf isNewVector (following (rest.map Prod.fst)))) := by
  obtain ⟨st₁, hpre, hrest⟩ := h.split
  obtain ⟨e, e'⟩ := f
  cases hrest with
  | @cons _ st₂ _ _ _ _ ha hrest =>
    have hsplit : rest = followingFiles rest ++ rest.dropWhile fun f => !isNewNormal f.1 :=
      takeWhile_append_dropWhile.symm
    rw [hsplit] at hrest
    obtain ⟨st₃, hgroup, -⟩ := hrest.split
    have hsum : ∀ p : ManifestEntry → Bool, (∀ e, p e = true → needsRowIds e = true) →
        ((rowIds p (followingFiles rest)).map Prod.snd).sum = rowsOf p (following (rest.map Prod.fst)) := by
      intro p hp
      rw [hgroup.sum_rowIds hp, followingFiles_fst]
    cases ha with
    | normal _ =>
      refine ⟨st₁.start, rfl, fun field => ?_, fun hfits hstart => ?_⟩
      · have htile := hgroup.blobs (fun f hf => not_normal_of_following hf) field
        rw [← hsum _ fun e he => needsRowIds_of_blob he]
        have hend := htile.end_eq
        rwa [hend] at htile
      · have hsync := hpre.inSync hfits (.inl hstart)
        have htile := hgroup.vectors
        rw [← hsum _ fun e he => needsRowIds_of_vector he, hsync]
        have hend := htile.end_eq
        rwa [hend] at htile
    | kept hneeds => exact absurd (hf.symm.trans (kinds_of_kept hneeds "").1) Bool.noConfusion
    | blob hblob _ => exact absurd (hf.symm.trans (kinds_of_blob hblob).1) Bool.noConfusion
    | vector hvector _ => exact absurd (hf.symm.trans (kinds_of_vector hvector).1) Bool.noConfusion

/-! ## partitions -/

def ordered (grouped : Bool) (es : List ManifestEntry) : List ManifestEntry :=
  if grouped then groupByPartition es else es

/-- where the next normal file is looked for: in the partition if the entries are grouped, else among all -/
def scope {α : Type} (entry : α → ManifestEntry) (grouped : Bool) (p : Bytes) (l : List α) : List α :=
  if grouped then l.filter fun a => (entry a).partition = p else l

variable {grouped : Bool} {p : Bytes}

theorem mem_of_mem_scope {α : Type} {entry : α → ManifestEntry} {l : List α}
    {a : α} (h : a ∈ scope entry grouped p l) : a ∈ l := by
  cases grouped with
  | false => exact h
  | true => exact (mem_filter.mp h).1

theorem partition_split {ps : List Bytes} (hn : ps.Nodup)
    (hfiles : files.map Prod.fst = ps.flatMap fun p => es.filter fun e => e.partition = p)
    (hp : p ∈ ps) :
    ∃ (qs : List Bytes) (a b : List (ManifestEntry × ManifestEntry)), files = a ++ (scope Prod.fst true p files ++ b) ∧
      a.map Prod.fst = qs.flatMap (fun p => es.filter fun e => e.partition = p) ∧
      (scope Prod.fst true p files).map Prod.fst = es.filter fun e => e.partition = p := by
  obtain ⟨qs, qs', rfl⟩ := append_of_mem hp
  rw [flatMap_append, flatMap_cons] at hfiles
  obtain ⟨a, tail, rfl, ha, htail⟩ := map_eq_append_iff.mp hfiles
  obtain ⟨mid, b, rfl, hmid, hb⟩ := map_eq_append_iff.mp htail
  obtain ⟨hnq, hnq', hdisjoint⟩ := nodup_append.mp hn
  -- no other part has a file of this partition
  have hother : ∀ (rs : List Bytes) (l : List (ManifestEntry × ManifestEntry)), p ∉ rs →
      l.map Prod.fst = rs.flatMap (fun p => es.filter fun e => e.partition = p) →
      scope Prod.fst true p l = [] := by
    intro rs l hrs hl
    refine filter_eq_nil_iff.mpr fun f hf => ?_
    have hmem : f.1 ∈ rs.flatMap fun p => es.filter fun e => e.partition = p := by
      rw [← hl]
      exact mem_map_of_mem hf
    obtain ⟨r, hr, hfr⟩ := mem_flatMap.mp hmem
    have hpart : f.1.partition = r := by simpa using (mem_filter.mp hfr).2
    have hne : f.1.partition ≠ p := fun h => hrs (h ▸ hpart ▸ hr)
    simpa using hne
  have hself : scope Prod.fst true p mid = mid := by
    refine filter_eq_self.mpr fun f hf => ?_
    have hmem : f.1 ∈ es.filter fun e => e.partition = p := by
      rw [← hmid]
      exact mem_map_of_mem hf
    exact (mem_filter.mp hmem).2
  have hscope : scope Prod.fst true p (a ++ (mid ++ b)) = mid := by
    have ha' := hother qs a (fun h => hdisjoint p h p mem_cons_self rfl) ha
    have hb' := hother qs' b (nodup_cons.mp hnq').1 hb
    simp only [scope, if_true] at ha' hb' hself ⊢
    rw [filter_append, filter_append, ha', hb', hself, nil_append, append_nil]
  exact ⟨qs, a, b, by rw [hscope], ha, by rw [hscope, hmid]⟩

theorem Tracks.inSync_partitions {qs : List Bytes} (h : Tracks n st files st')
    (hfiles : files.map Prod.fst = qs.flatMap fun p => es.filter fun e => e.partition = p)
    (hfits : ∀ p, Fits (es.filter fun e => e.partition = p)) (hstart : st.start = st.vectorStoreStart) :
    st'.start = st'.vectorStoreStart := by
  induction qs generalizing st files with
  | nil =>
    obtain rfl : files = [] := map_eq_nil_iff.mp hfiles
    cases h
    exact hstart
  | cons q qs ih =>
    rw [flatMap_cons] at hfiles
    obtain ⟨a, b, rfl, ha, hb⟩ := map_eq_append_iff.mp hfiles
    obtain ⟨mid, hta, htb⟩ := h.split
    exact ih htb hb (hta.inSync (ha ▸ hfits q) (.inl hstart))

theorem Tracks.scope (h : Tracks n st files st')
    (hfiles : files.map Prod.fst = ordered grouped es) (p : Bytes) :
    ∃ st₁ st₂, Tracks n st₁ (Paimon.scope Prod.fst grouped p files) st₂ ∧
      ((∀ q, Fits (Paimon.scope id grouped q es)) → st.start = st.vectorStoreStart →
        Fits ((Paimon.scope Prod.fst grouped p files).map Prod.fst) ∧ st₁.start = st₁.vectorStoreStart) := by
  cases grouped with
  | false => exact ⟨st, st', h, fun hfits hstart => ⟨hfiles.symm ▸ hfits p, hstart⟩⟩
  | true =>
    have hfiles : files.map Prod.fst =
      (partitionsInOrder es).flatMap fun p => es.filter fun e => e.partition = p := hfiles
    by_cases hp : p ∈ partitionsInOrder es
    · obtain ⟨qs, a, b, hsplit, ha, hmid⟩ := partition_split (partitionsInOrder_nodup es) hfiles hp
      rw [hsplit] at h
      obtain ⟨st₁, hta, hrest⟩ := h.split
      obtain ⟨st₂, htmid, -⟩ := hrest.split
      refine ⟨st₁, st₂, htmid, fun hfits hstart => ⟨hmid ▸ hfits p, ?_⟩⟩
      exact hta.inSync_partitions ha hfits hstart
    · have hnil : Paimon.scope Prod.fst true p files = [] := by
        refine filter_eq_nil_iff.mpr fun f hf => ?_
        have hmem : f.1 ∈ groupByPartition es := by
          rw [groupByPartition, ← hfiles]
          exact mem_map_of_mem hf
        have hmem := (groupByPartition_perm es).mem_iff.mp hmem
        have hne : f.1.partition ≠ p := fun h => hp (mem_partitionsInOrder.mpr ⟨f.1, hmem, h⟩)
        simpa using hne
      refine ⟨st, st, hnil ▸ .nil, fun _ hstart => ⟨?_, hstart⟩⟩
      rw [hnil]
      intro pre e rest hes
      exact absurd hes (by simp)

theorem ordered_perm (grouped : Bool) (es : List ManifestEntry) : (ordered grouped es).Perm es := by
  cases grouped with
  | false => exact List.Perm.refl es
  | true => exact groupByPartition_perm es

/-! ## snapshots one after the other -/

/-- a commit: who commits, what was resolved, and the commit identifier -/
abbrev Publishing := TableCommit × ResolvedCommit × Int

def publishAll : Option Snapshot → List Publishing → Result (List Snapshot)
  | _, [] => .ok []
  | latest, (c, resolved, commitIdentifier) :: rest => do
    let snapshot ← prepareSnapshot c resolved latest commitIdentifier
    let snapshots ← publishAll (some snapshot) rest
    return snapshot :: snapshots

def snapshotRowIds (commit : Publishing) (t : Snapshot) : List (Int × Int) :=
  rowIds isNewNormal
    ((ordered commit.1.table.rowTrackingPartitionGroupOnCommit commit.2.1.entries).zip t.deltaEntries)

/-- a commit to a table with row tracking, of files that have no negative row counts -/
def Tracked (commit : Publishing) : Prop :=
  commit.1.rowTrackingEnabled = true ∧ ∀ e ∈ commit.2.1.entries, 0 ≤ e.file.rowCount

def firstRowIdStart (latest : Option Snapshot) : Int := (latest.bind Snapshot.nextRowId).getD 0

variable {latest : Option Snapshot} {resolved : ResolvedCommit} {c : TableCommit} {t : Snapshot}

theorem prepareSnapshot_entries
    {i : Int} (h : prepareSnapshot c resolved latest i = .ok t) :
    prepareEntries c (nextSnapshotId latest) latest resolved.entries = .ok (t.deltaEntries, t.nextRowId) := by
  obtain ⟨⟨entries, next⟩, he, h⟩ := bind_ok h
  obtain ⟨schemaId, -, h⟩ := bind_ok h
  cases h
  have hdelta : (writeManifestFiles c entries).flatten = entries := writeManifestFiles_flatten c entries
  rw [he]
  simp only [Snapshot.deltaEntries, hdelta]

theorem prepareSnapshot_rowIds
    {i : Int} (h : prepareSnapshot c resolved latest i = .ok t)
    (htracked : Tracked (c, resolved, i)) :
    Tile (firstRowIdStart latest) (snapshotRowIds (c, resolved, i) t) (firstRowIdStart (some t)) ∧
      ∀ r ∈ snapshotRowIds (c, resolved, i) t, 0 ≤ r.2 := by
  have he := prepareSnapshot_entries h
  unfold firstRowIdStart snapshotRowIds
  generalize t.deltaEntries = delta at he ⊢
  rw [Option.bind_some]
  generalize t.nextRowId = next at he ⊢
  unfold prepareEntries at he
  rw [htracked.1, Bool.not_true, if_neg Bool.false_ne_true] at he
  simp only at he
  split at he
  · next hnil =>
    cases he
    rw [hnil]
    cases c.table.rowTrackingPartitionGroupOnCommit <;> exact ⟨rfl, by simp [rowIds, ordered, groupByPartition]⟩
  · obtain ⟨⟨assigned, nextRowId⟩, hassign, he⟩ := bind_ok he
    cases he
    obtain ⟨hlen, st', htracks, rfl⟩ := assignRowTrackingFrom_tracks hassign
    refine ⟨htracks.normal, rowIds_nonneg (htracks.counts fun f hf => htracked.2 f.1 ?_)⟩
    have hmem : f.1 ∈ ordered c.table.rowTrackingPartitionGroupOnCommit resolved.entries :=
      (of_mem_zip hf).1
    exact (ordered_perm _ _).mem_iff.mp hmem

/-- **The row ids of all snapshots lie end to end.** -/
theorem publishAll_rowIds {commits : List Publishing} {ts : List Snapshot}
    (h : publishAll latest commits = .ok ts) (htracked : ∀ commit ∈ commits, Tracked commit) :
    ∃ next, Tile (firstRowIdStart latest) ((commits.zip ts).flatMap fun x => snapshotRowIds x.1 x.2) next ∧
      ∀ r ∈ (commits.zip ts).flatMap fun x => snapshotRowIds x.1 x.2, 0 ≤ r.2 := by
  induction commits generalizing latest ts with
  | nil =>
    cases h
    exact ⟨_, rfl, by simp⟩
  | cons commit commits ih =>
    obtain ⟨c, resolved, i⟩ := commit
    obtain ⟨t, ht, h⟩ := bind_ok h
    obtain ⟨ts', hts, h⟩ := bind_ok h
    cases h
    obtain ⟨hfirst, hcounts⟩ := prepareSnapshot_rowIds ht (htracked _ mem_cons_self)
    obtain ⟨next, hrest, hcounts'⟩ := ih hts (forall_mem_cons.mp htracked).2
    refine ⟨next, ?_, ?_⟩
    · rw [zip_cons_cons, flatMap_cons]
      exact hfirst.append hrest
    · rw [zip_cons_cons, flatMap_cons]
      exact forall_mem_append.mpr ⟨hcounts, hcounts'⟩

/-! ## the assignment as a whole -/

def newFile (partition : Bytes) (name : String) (rowCount : Int) (writeCols : Option (List String)) :
    ManifestEntry where
  kind := .add
  partition := partition
  bucket := 0
  totalBuckets := 1
  file := { fileName := name, rowCount := rowCount, fileSource := some 0, writeCols := writeCols }

def interleaved : List ManifestEntry :=
  [newFile [1] "a.parquet" 10 none, newFile [2] "b.parquet" 20 none, newFile [1] "a.blob" 10 (some ["image"]),
    newFile [2] "b.blob" 20 (some ["image"])]

def trackingCommit (entries : List ManifestEntry) (commitIdentifier : Int) : Publishing :=
  ({ table := { partitioned := true }, commitUser := "u", totalBuckets := 1, commitMaxRetries := 10,
     rowTrackingEnabled := true },
    ⟨entries, [], .append, none, false, none, none⟩, commitIdentifier)

end Paimon
