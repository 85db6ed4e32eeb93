import Paimon.Stream.Directory

/-!
# The LATEST hint

`commit_snapshot` and `latest_snapshot_id_from_filesystem` of `table/snapshot_manager.rs` over runs of any
number of writers.  A writer that has published its snapshot writes the hint at some later time or never; the
hint may be damaged, and snapshots expire from below.

* `Stage`, `Moves`: where a writer stands in `commit_snapshot`, and its steps that publish nothing;
* `World`, `Step`: directory, hint file and writers, and what can happen;
* `HintPublished`: the hint names a published snapshot, on every run;
* `reply`: what the manager finds in a world;
* `latest_of_hint`: the latest snapshot is found unless the snapshot after the hinted one has expired.
-/

namespace Paimon.Stream.LatestHint

open Interact List

/-! ## runs -/

inductive HintFile where
  | absent
  /-- no number -/
  | garbage
  | id (snapshotId : Int)
deriving DecidableEq

/-- `read_hint` -/
def HintFile.read : HintFile → Option Int
  | .id snapshotId => some snapshotId
  | _ => none

/-- the next request of `commit_snapshot`, or its result, which is none after an error -/
inductive Stage where
  | writeTemporary
  | check
  | rename
  | checkAgain
  | writeTarget
  | writeHint
  | returned (result : Option Bool)
deriving DecidableEq

/-- a request that publishes nothing and does not write the hint; `target`: the snapshot file exists -/
inductive Moves (target : Bool) : Stage → Stage → Prop
  | temporary : Moves target .writeTemporary .check
  | temporaryFails : Moves target .writeTemporary (.returned none)
  | free (h : target = false) : Moves target .check .rename
  | taken (h : target = true) : Moves target .check (.returned (some false))
  | checkFails : Moves target .check (.returned none)
  | renameFails : Moves target .rename .checkAgain
  | stillFree (h : target = false) : Moves target .checkAgain .writeTarget
  | takenMeanwhile (h : target = true) : Moves target .checkAgain (.returned (some false))
  | checkAgainFails : Moves target .checkAgain (.returned none)
  | writeFails : Moves target .writeTarget (.returned none)

structure Writer where
  snapshot : Snapshot
  stage : Stage

structure World where
  dir : Directory
  hint : HintFile
  writers : List Writer

def emptyDirectory : Directory where
  log := []
  expired := 0
  ids i s h := by simp at h
  keepsLatest := .inl rfl

def init : World := ⟨emptyDirectory, .absent, []⟩

def publish (d : Directory) (s : Snapshot) (hid : s.id = (d.log.length : Int) + 1) : Directory where
  log := d.log ++ [s]
  expired := d.expired
  ids i s' h := by
    rcases Nat.lt_or_ge i d.log.length with hi | hi
    · rw [getElem?_append_left hi] at h
      exact d.ids i s' h
    · rw [getElem?_append_right hi] at h
      obtain ⟨hlt, rfl⟩ := List.getElem?_eq_some_iff.mp h
      rw [length_singleton] at hlt
      have : i = d.log.length := by omega
      simp [hid, this]
  keepsLatest := by
    have := d.keepsLatest
    rw [length_append, length_singleton]
    omega

/-- the snapshots up to `upTo` are removed, but never the latest -/
def expire (d : Directory) (upTo : Nat) (hkeeps : upTo < d.log.length) : Directory where
  log := d.log
  expired := max d.expired upTo
  ids := d.ids
  keepsLatest := by
    have := d.keepsLatest
    omega

inductive Step : World → World → Prop
  /-- `commit_snapshot` is called -/
  | call (w : World) (s : Snapshot) : Step w { w with writers := w.writers ++ [⟨s, .writeTemporary⟩] }
  | move (w : World) {i : Nat} {s : Snapshot} {stage stage' : Stage} (hi : w.writers[i]? = some ⟨s, stage⟩)
      (hmove : Moves (w.dir.lookup s.id).isSome stage stage') :
      Step w { w with writers := w.writers.set i ⟨s, stage'⟩ }
  /-- the rename or the write of the snapshot file succeeds; ids are published one after the other -/
  | publish (w : World) {i : Nat} {s : Snapshot} {stage : Stage} (hi : w.writers[i]? = some ⟨s, stage⟩)
      (hstage : stage = .rename ∨ stage = .writeTarget) (hid : s.id = (w.dir.log.length : Int) + 1) :
      Step w { w with dir := publish w.dir s hid, writers := w.writers.set i ⟨s, .writeHint⟩ }
  | hint (w : World) {i : Nat} {s : Snapshot} (hi : w.writers[i]? = some ⟨s, .writeHint⟩) :
      Step w { w with hint := .id s.id, writers := w.writers.set i ⟨s, .returned (some true)⟩ }
  /-- the write of the hint fails, which nobody is told -/
  | hintFails (w : World) {i : Nat} {s : Snapshot} (hi : w.writers[i]? = some ⟨s, .writeHint⟩) :
      Step w { w with writers := w.writers.set i ⟨s, .returned (some true)⟩ }
  | damage (w : World) {hint : HintFile} (hhint : hint = .absent ∨ hint = .garbage) : Step w { w with hint := hint }
  | expire (w : World) (upTo : Nat) (hkeeps : upTo < w.dir.log.length) :
      Step w { w with dir := expire w.dir upTo hkeeps }

/-- the world after a run -/
def Reachable (w : World) : Prop := Relation.ReflTransGen Step init w

/-! ## the hint along runs -/

def Published (d : Directory) (id : Int) : Prop := 1 ≤ id ∧ id ≤ d.log.length

/-- the hint names a published snapshot, and so will every hint that is still to be written -/
structure HintPublished (w : World) : Prop where
  hint : ∀ id, w.hint = .id id → Published w.dir id
  pending : ∀ writer ∈ w.writers, writer.stage = .writeHint → Published w.dir writer.snapshot.id

theorem Published.grow {d d' : Directory} {id : Int} (h : Published d id) (hle : d.log.length ≤ d'.log.length) :
    Published d' id := by
  obtain ⟨hpos, hup⟩ := h
  exact ⟨hpos, by omega⟩

variable {writers : List Writer}

theorem mem_set_writer {i : Nat} {moved writer : Writer} (h : writer ∈ writers.set i moved) :
    writer ∈ writers ∨ writer = moved := by
  rcases mem_or_eq_of_mem_set h with h | h
  · exact .inl h
  · exact .inr h

theorem HintPublished.step {w w' : World} (h : HintPublished w) (hstep : Step w w') : HintPublished w' := by
  cases hstep with
  | call s =>
    refine ⟨h.hint, fun writer hw hstage => ?_⟩
    rcases mem_append.mp hw with hw | hw
    · exact h.pending writer hw hstage
    · obtain rfl := mem_singleton.mp hw
      cases hstage
  | move hi hmove =>
    refine ⟨h.hint, fun writer hw hstage => ?_⟩
    obtain hw | rfl := mem_set_writer hw
    · exact h.pending writer hw hstage
    · cases hstage
      cases hmove
  | @publish i s stage hi hstage hid =>
    have hle : w.dir.log.length ≤ (LatestHint.publish w.dir s hid).log.length := by simp [LatestHint.publish]
    refine ⟨fun id hid' => (h.hint id hid').grow hle, fun writer hw hstage' => ?_⟩
    obtain hw | rfl := mem_set_writer hw
    · exact (h.pending writer hw hstage').grow hle
    · show 1 ≤ s.id ∧ s.id ≤ (w.dir.log ++ [s]).length
      rw [length_append, length_singleton]
      omega
  | @hint i s hi =>
    have hs := h.pending _ (mem_of_getElem? hi) rfl
    refine ⟨fun id hid => ?_, fun writer hw hstage => ?_⟩
    · cases hid
      exact hs
    · obtain hw | rfl := mem_set_writer hw
      · exact h.pending writer hw hstage
      · cases hstage
  | hintFails hi =>
    refine ⟨h.hint, fun writer hw hstage => ?_⟩
    obtain hw | rfl := mem_set_writer hw
    · exact h.pending writer hw hstage
    · cases hstage
  | damage hhint =>
    refine ⟨fun id hid => ?_, h.pending⟩
    rcases hhint with rfl | rfl <;> cases hid
  | expire upTo hkeeps => exact ⟨h.hint, h.pending⟩

variable {w : World}

theorem hintPublished_of_reachable (h : Reachable w) : HintPublished w := by
  induction h with
  | refl =>
    refine ⟨fun id hid => ?_, forall_mem_nil _⟩
    cases hid
  | tail _ hstep ih => exact ih.step hstep

/-! ## what the manager finds -/

def reply (w : World) : (q : Request) → Answer Unit q
  | .latestHint => w.hint.read
  | q => replyOf (fun _ _ _ => Except.error (.unexpectedError "no plan")) w.dir q

/-- `get_latest_snapshot_id` of a table without a REST catalog -/
def latestId (w : World) : Except ReadError (Option Int) := (getLatestSnapshotId false).run.eval (reply w)

theorem eval_findByListFiles (w : World) : (findByListFiles max).run.eval (reply w) =
    .ok ((((List.range w.dir.log.length).map fun i : Nat => (i : Int) + 1).filter
      fun id => (w.dir.lookup id).isSome).foldl (reduceId max) none) := rfl

theorem eval_fileExists (w : World) (id : Int) :
    (fileExists id).run.eval (reply w) = .ok (w.dir.lookup id).isSome := rfl

theorem eval_latestOfHint_pos (w : World) {h : Int} (hpos : 0 < h) :
    (latestOfHint (some h)).run.eval (reply w) =
      .ok (if (w.dir.lookup (h + 1)).isSome then none else some h) := by
  rw [latestOfHint, if_pos hpos, Prog.eval_except _ _ (eval_fileExists w (h + 1))]
  rfl

theorem latestId_hint {h : Int} (hhint : w.hint = .id h) (hpos : 0 < h)
    (hnext : w.dir.lookup (h + 1) = none) : latestId w = .ok (some h) := by
  have hread : (readLatestHint : Fallible Unit (Option Int)).run.eval (reply w) = .ok (some h) :=
    congrArg (fun hint : HintFile => Except.ok hint.read) hhint
  have hfound : (latestOfHint (some h)).run.eval (reply w) = .ok (some h) := by
    rw [eval_latestOfHint_pos w hpos, hnext]
    rfl
  show latestSnapshotIdFromFilesystem.run.eval (reply w) = _
  unfold latestSnapshotIdFromFilesystem
  rw [Prog.eval_except _ _ hread, Prog.eval_except _ _ hfound]
  rfl

theorem latestId_list (hhint : ∀ h, w.hint = .id h → 0 < h → (w.dir.lookup (h + 1)).isSome = true) :
    latestId w = (findByListFiles max).run.eval (reply w) := by
  have hread : (readLatestHint : Fallible Unit (Option Int)).run.eval (reply w) = .ok w.hint.read := rfl
  have hfound : (latestOfHint w.hint.read).run.eval (reply w) = .ok none := by
    cases hw : w.hint with
    | absent | garbage => rfl
    | id h =>
      by_cases hpos : 0 < h
      · rw [HintFile.read, eval_latestOfHint_pos w hpos, hhint h hw hpos, if_pos rfl]
      · rw [HintFile.read, latestOfHint, if_neg hpos]
        rfl
  show latestSnapshotIdFromFilesystem.run.eval (reply w) = _
  unfold latestSnapshotIdFromFilesystem
  rw [Prog.eval_except _ _ hread, Prog.eval_except _ _ hfound]

def IsLatest (d : Directory) : Option Int → Prop
  | none => ∀ id, d.lookup id = none
  | some id => (d.lookup id).isSome = true ∧ ∀ id', (d.lookup id').isSome = true → id' ≤ id

theorem isLatest_list (w : World) : ∃ r, (findByListFiles max).run.eval (reply w) = .ok r ∧ IsLatest w.dir r := by
  refine ⟨_, eval_findByListFiles w, ?_⟩
  have hmem : ∀ id, id ∈ ((List.range w.dir.log.length).map fun i : Nat => (i : Int) + 1).filter
      (fun id => (w.dir.lookup id).isSome) ↔ (w.dir.lookup id).isSome = true := by
    intro id
    simp only [mem_filter, mem_map, mem_range, and_iff_right_iff_imp]
    intro hsome
    have := Directory.isSome_lookup.mp hsome
    exact ⟨(id - 1).toNat, by omega, by omega⟩
  generalize hids : ((List.range w.dir.log.length).map fun i : Nat => (i : Int) + 1).filter
    (fun id => (w.dir.lookup id).isSome) = ids at hmem ⊢
  cases hr : ids.foldl (reduceId max) none with
  | none =>
    intro id
    have hid := hmem id
    rw [reduceId_none hr] at hid
    simpa using hid
  | some m =>
    rcases reduceId_mem max_choice hr with hm | hm
    · exact ⟨(hmem m).mp hm, fun id' hid' => (reduceId_max hr).1 id' ((hmem id').mpr hid')⟩
    · cases hm

/-- The latest snapshot is found on every run, whenever the hints are written, unless the snapshot after the
hinted one has expired. -/
theorem latest_of_hint {w : World} (hw : Reachable w)
    (hkept : ∀ h, w.hint = .id h → (w.dir.expired : Int) ≤ h) : ∃ r, latestId w = .ok r ∧ IsLatest w.dir r := by
  have hpub := hintPublished_of_reachable hw
  by_cases hhint : ∃ h, w.hint = .id h ∧ w.dir.lookup (h + 1) = none
  · obtain ⟨h, hh, hnext⟩ := hhint
    obtain ⟨hpos, hle⟩ := hpub.hint h hh
    have hexp := hkept h hh
    have hlast : ¬ (w.dir.lookup (h + 1)).isSome = true := by rw [hnext]; simp
    rw [Directory.isSome_lookup] at hlast
    have hkeeps := w.dir.keepsLatest
    refine ⟨some h, latestId_hint hh (by omega) hnext, ?_, fun id' hid' => ?_⟩
    · rw [Directory.isSome_lookup]
      omega
    · rw [Directory.isSome_lookup] at hid'
      omega
  · obtain ⟨r, hr, hlatest⟩ := isLatest_list w
    refine ⟨r, ?_, hlatest⟩
    rw [latestId_list fun h hh _ => ?_, hr]
    rw [Option.isSome_iff_ne_none]
    exact fun hnext => hhint ⟨h, hh, hnext⟩

/-! ## two runs -/

theorem set_last (writers : List Writer) (a b : Writer) :
    (writers ++ [a]).set writers.length b = writers ++ [b] := by
  rw [set_append_right _ _ (le_refl _), Nat.sub_self, set_cons_zero]

variable {hint : HintFile} {d : Directory}

theorem Reachable.commit (h : Reachable ⟨d, hint, writers⟩)
    (s : Snapshot) (hid : s.id = (d.log.length : Int) + 1) :
    Reachable ⟨publish d s hid, hint, writers ++ [⟨s, .writeHint⟩]⟩ := by
  have hlast : ∀ stage : Stage, (writers ++ [⟨s, stage⟩])[writers.length]? = some ⟨s, stage⟩ := fun stage => by simp
  have hfree : (d.lookup s.id).isSome = false := by
    rw [Bool.eq_false_iff, ne_eq, Directory.isSome_lookup]
    omega
  have hcall := h.tail (Step.call _ s)
  have hwritten := hcall.tail (Step.move _ (hlast .writeTemporary) .temporary)
  simp only [set_last] at hwritten
  have hchecked := hwritten.tail (Step.move _ (hlast .check) (.free hfree))
  simp only [set_last] at hchecked
  have hpublished := hchecked.tail (Step.publish _ (hlast .rename) (.inl rfl) hid)
  simp only [set_last] at hpublished
  exact hpublished

theorem Reachable.hinted {s : Snapshot}
    (h : Reachable ⟨d, hint, writers ++ [⟨s, .writeHint⟩]⟩) :
    Reachable ⟨d, .id s.id, writers ++ [⟨s, .returned (some true)⟩]⟩ := by
  have hlast : (writers ++ [⟨s, .writeHint⟩])[writers.length]? = some ⟨s, .writeHint⟩ := by simp
  have hwritten := h.tail (Step.hint _ hlast)
  simp only [set_last] at hwritten
  exact hwritten

def snapshotOf (id : Int) : Snapshot := ⟨id, .append, [], [], none, none⟩

def published : Directory :=
  publish (publish (publish emptyDirectory (snapshotOf 1) rfl) (snapshotOf 2) rfl) (snapshotOf 3) rfl

theorem published_reachable : ∃ writers, Reachable ⟨published, .id 1, writers⟩ := by
  have hstart : Reachable init := .refl
  exact ⟨_, ((hstart.commit (snapshotOf 1) rfl).hinted.commit (snapshotOf 2) rfl).commit (snapshotOf 3) rfl⟩

/-- Snapshot 1 has expired, and the hint still names it. -/
theorem latest_of_late_hint : ∃ writers, ∃ r, Reachable ⟨expire published 1 (by decide), .id 1, writers⟩ ∧
    latestId ⟨expire published 1 (by decide), .id 1, writers⟩ = .ok r ∧
    IsLatest (expire published 1 (by decide)) r := by
  obtain ⟨writers, hw⟩ := published_reachable
  have hreach : Reachable ⟨expire published 1 (by decide), .id 1, writers⟩ := hw.tail (Step.expire _ 1 _)
  have hkept : ∀ h, HintFile.id 1 = .id h → ((expire published 1 (by decide)).expired : Int) ≤ h := by
    rintro h ⟨⟩
    decide
  obtain ⟨r, hr, hlatest⟩ := latest_of_hint hreach hkept
  exact ⟨writers, r, hreach, hr, hlatest⟩

/-- Snapshots 1 and 2 have expired: there is no snapshot 2, and the hint is taken for the latest snapshot
although 3 exists and 1 does not. -/
theorem stale_hint_hides_latest : ∃ writers, Reachable ⟨expire published 2 (by decide), .id 1, writers⟩ ∧
    latestId ⟨expire published 2 (by decide), .id 1, writers⟩ = .ok (some 1) ∧
    (expire published 2 (by decide)).lookup 1 = none ∧
    IsLatest (expire published 2 (by decide)) (some 3) ∧ ¬ IsLatest (expire published 2 (by decide)) (some 1) := by
  obtain ⟨writers, hw⟩ := published_reachable
  have hthree : (expire published 2 (by decide)).log.length = 3 := rfl
  have htwo : (expire published 2 (by decide)).expired = 2 := rfl
  refine ⟨writers, hw.tail (Step.expire _ 2 _), latestId_hint rfl (by decide) rfl, rfl, ⟨rfl, fun id' hid' => ?_⟩,
    fun h => ?_⟩
  · rw [Directory.isSome_lookup, hthree] at hid'
    omega
  · have := h.1
    rw [Directory.isSome_lookup, htwo] at this
    omega

end Paimon.Stream.LatestHint
