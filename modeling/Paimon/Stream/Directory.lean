import Paimon.Lib.Interact
import Paimon.Scan.Manifests

/-!
# The snapshot directory

`table/snapshot_manager.rs`, over a directory that grows by commits and loses snapshots from below.
The manager's functions are programs (`Interact.Prog`): each request to the file system or to the
catalog is one request, and commits and expirations may come between any two of them.

* `Directory`: the snapshots ever published and how many of them have expired;
* `Request`, `Answer`: what a stream scan asks, and of what form an answer is;
* `Answers`: the answers a directory can give. Any request may fail; the hint files and the consumer file may
  say anything;
* `getSnapshot_ok`, `getSnapshot_missing`, `earliest_ok`, `latest_ok`: what the results of the manager say
  about the directory.
-/

namespace Paimon.Stream

open Interact Scan List

/-- a published snapshot, with the manifests of its lists -/
structure Snapshot where
  id : Int
  commitKind : CommitKind
  baseManifestList : List ManifestFile
  deltaManifestList : List ManifestFile
  changelogManifestList : Option (List ManifestFile) := none
  watermark : Option Int := none

/-- Ids are given out one after the other from 1 on; expiration removes the oldest snapshots and
keeps the latest. -/
structure Directory where
  log : List Snapshot
  expired : Nat
  ids : ∀ (i : Nat) (s : Snapshot), log[i]? = some s → s.id = (i : Int) + 1
  keepsLatest : expired = 0 ∨ expired < log.length

namespace Directory

/-- commits append to the log and expiration proceeds -/
instance : Preorder Directory where
  le d d' := d.log <+: d'.log ∧ d.expired ≤ d'.expired
  le_refl d := ⟨prefix_refl _, le_refl _⟩
  le_trans _ _ _ h h' := ⟨h.1.trans h'.1, h.2.trans h'.2⟩

def lookup (d : Directory) (id : Int) : Option Snapshot :=
  if (d.expired : Int) < id then d.log[(id - 1).toNat]? else none

variable {d d' : Directory} {id : Int} {s : Snapshot}

theorem lookup_eq_some : d.lookup id = some s ↔ (d.expired : Int) < id ∧ d.log[(id - 1).toNat]? = some s := by
  unfold lookup
  split <;> simp_all

theorem id_of_lookup (h : d.lookup id = some s) : s.id = id := by
  obtain ⟨hexp, hs⟩ := lookup_eq_some.mp h
  rw [d.ids _ s hs]
  omega

theorem bounds_of_lookup (h : d.lookup id = some s) : 1 ≤ id ∧ id ≤ d.log.length := by
  obtain ⟨hexp, hs⟩ := lookup_eq_some.mp h
  have := (List.getElem?_eq_some_iff.mp hs).1
  omega

theorem isSome_lookup : (d.lookup id).isSome = true ↔ (d.expired : Int) < id ∧ id ≤ d.log.length := by
  rw [Option.isSome_iff_exists]
  constructor
  · rintro ⟨s, hs⟩
    exact ⟨(lookup_eq_some.mp hs).1, (bounds_of_lookup hs).2⟩
  · rintro ⟨hexp, hle⟩
    have hlt : (id - 1).toNat < d.log.length := by omega
    exact ⟨d.log[(id - 1).toNat], lookup_eq_some.mpr ⟨hexp, getElem?_eq_getElem hlt⟩⟩

theorem lookup_expired (hle : d ≤ d') (h : id ≤ d.expired) : d'.lookup id = none := by
  refine if_neg ?_
  have := hle.2
  omega

theorem length_le (hle : d ≤ d') : d.log.length ≤ d'.log.length := hle.1.length_le

theorem getElem?_of_le {i : Nat} (hle : d ≤ d') (h : d.log[i]? = some s) : d'.log[i]? = some s := by
  obtain ⟨later, hlater⟩ := hle.1
  have hlt := (List.getElem?_eq_some_iff.mp h).1
  rw [← hlater, getElem?_append_left hlt, h]

end Directory

/-! ## requests -/

inductive SnapshotScanMode where
  | all
  | delta
  | changelog
deriving DecidableEq, Repr

inductive ChangelogProducer where
  | none
  | input
  | fullCompaction
  | lookup
deriving DecidableEq, Repr

/-- the scan that plans a selected snapshot, as far as a stream reads or changes it -/
structure TableScan where
  /-- `validate_snapshot_read` -/
  validated : Result Unit := .ok ()
  changelogProducer : ChangelogProducer := .none
  /-- the option `bucket` -/
  bucket : Int := -1
  /-- the option `num-levels` -/
  numLevels : Option String := none
  /-- the option `num-sorted-run.compaction-trigger` -/
  compactionTrigger : Option String := none
  /-- whether snapshots are loaded from a REST catalog -/
  restEnv : Bool := false
  snapshotLevels : Option (Int × Int) := none
  onlyRealBuckets : Bool := false

inductive ReadError where
  | snapshotNotExist (snapshotId : Int)
  | other (error : Error)
deriving DecidableEq, Repr

structure Plan (Split : Type) where
  splits : List Split
  snapshotId : Option Int
deriving DecidableEq, Repr

inductive Request where
  | «exists» (snapshotId : Int)
  | read (snapshotId : Int)
  | latestHint
  | earliestHint
  | listStatus
  | loadSnapshot
  | consumer (consumerId : String)
  | plan (scan : TableScan) (mode : SnapshotScanMode) (snapshot : Snapshot)

/-- a hint that cannot be read is no hint, every other request may fail -/
def Answer (Split : Type) : Request → Type
  | .exists _ => Result Bool
  | .read _ => Result Snapshot
  | .latestHint => Option Int
  | .earliestHint => Option Int
  | .listStatus => Result (List Int)
  | .loadSnapshot => Result (Option Snapshot)
  | .consumer _ => Result (Option Int)
  | .plan _ _ _ => Result (Plan Split)

abbrev Program (Split : Type) := Prog (Answer Split)

abbrev Fallible (Split : Type) := ExceptT ReadError (Program Split)

variable {Split : Type}

def Fallible.lift {α : Type} (x : Program Split (Result α)) : Fallible Split α :=
  ExceptT.mk do
    let r ← x
    pure (r.mapError .other)

/-- The plan of a snapshot is read from files that are written once, so that it is `planOf` of the
snapshot unless a read fails, as it does where a file has been removed. -/
def Answers (planOf : TableScan → SnapshotScanMode → Snapshot → Result (Plan Split))
    (d : Directory) : (q : Request) → Answer Split q → Prop
  | .exists id, a => a = .ok (d.lookup id).isSome ∨ ∃ e, a = .error e
  | .read id, a => (∃ s, d.lookup id = some s ∧ a = .ok s) ∨ ∃ e, a = .error e
  | .latestHint, _ => True
  | .earliestHint, _ => True
  | .listStatus, a =>
    (∃ ids : List Int, (∀ id, id ∈ ids ↔ (d.lookup id).isSome = true) ∧ a = .ok ids) ∨ ∃ e, a = .error e
  | .loadSnapshot, a => a = .ok d.log.getLast? ∨ ∃ e, a = .error e
  | .consumer _, _ => True
  | .plan scan mode s, a => a = planOf scan mode s ∨ ∃ e, a = .error e

/-- the answers of a directory where no request fails and no hint is written -/
def replyOf (planOf : TableScan → SnapshotScanMode → Snapshot → Result (Plan Split))
    (d : Directory) : (q : Request) → Answer Split q
  | .exists id => Except.ok (d.lookup id).isSome
  | .read id => (d.lookup id).elim (Except.error (.ioUnexpected "not found")) Except.ok
  | .latestHint => Option.none
  | .earliestHint => Option.none
  | .listStatus => Except.ok (((List.range d.log.length).map fun i : Nat => (i : Int) + 1).filter
      fun id => (d.lookup id).isSome)
  | .loadSnapshot => Except.ok d.log.getLast?
  | .consumer _ => Except.ok Option.none
  | .plan scan mode s => planOf scan mode s

theorem replyOf_answers (planOf : TableScan → SnapshotScanMode → Snapshot → Result (Plan Split))
    (d : Directory) (q : Request) : Answers planOf d q (replyOf planOf d q) := by
  cases q with
  | «exists» id => exact .inl rfl
  | read id =>
    cases hl : d.lookup id with
    | some s => exact .inl ⟨s, hl, by rw [replyOf, hl]; rfl⟩
    | none => exact .inr ⟨_, by rw [replyOf, hl]; rfl⟩
  | latestHint | earliestHint => trivial
  | listStatus =>
    refine .inl ⟨_, fun id => ?_, rfl⟩
    simp only [mem_filter, mem_map, mem_range, and_iff_right_iff_imp]
    intro hsome
    have := Directory.isSome_lookup.mp hsome
    exact ⟨(id - 1).toNat, by omega, by omega⟩
  | loadSnapshot => exact .inl rfl
  | consumer id => trivial
  | plan scan mode s => exact .inl rfl

/-! ## the snapshot manager -/

def fileExists (snapshotId : Int) : Fallible Split Bool :=
  Fallible.lift (Prog.request (Request.exists snapshotId))

def readFile (snapshotId : Int) : Fallible Split Snapshot :=
  Fallible.lift (Prog.request (Request.read snapshotId))

def listStatus : Fallible Split (List Int) := Fallible.lift (Prog.request Request.listStatus)

def loadSnapshot : Fallible Split (Option Snapshot) :=
  Fallible.lift (Prog.request Request.loadSnapshot)

def readLatestHint : Fallible Split (Option Int) := ExceptT.lift (Prog.request Request.latestHint)

def readEarliestHint : Fallible Split (Option Int) :=
  ExceptT.lift (Prog.request Request.earliestHint)

def reduceId (reducer : Int → Int → Int) : Option Int → Int → Option Int
  | some r, id => some (reducer r id)
  | none, id => some id

/-- the ids in the listing, reduced -/
def findByListFiles (reducer : Int → Int → Int) : Fallible Split (Option Int) := do
  let ids ← listStatus
  pure (ids.foldl (reduceId reducer) none)

/-- the hinted id, if no next snapshot exists -/
def latestOfHint : Option Int → Fallible Split (Option Int)
  | some hintId =>
    if 0 < hintId then do
      let next ← fileExists (hintId + 1)
      pure (if next then none else some hintId)
    else pure none
  | none => pure none

def latestSnapshotIdFromFilesystem : Fallible Split (Option Int) := do
  let hint ← readLatestHint
  let id ← latestOfHint hint
  match id with
  | some id => pure (some id)
  | none => findByListFiles max

/-- the hinted id, if that snapshot exists -/
def earliestOfHint : Option Int → Fallible Split (Option Int)
  | some hintId => do
    let present ← fileExists hintId
    pure (if present then some hintId else none)
  | none => pure none

def earliestSnapshotId : Fallible Split (Option Int) := do
  let hint ← readEarliestHint
  let id ← earliestOfHint hint
  match id with
  | some id => pure (some id)
  | none => findByListFiles min

def getSnapshot (snapshotId : Int) : Fallible Split Snapshot := do
  let present ← fileExists snapshotId
  if present then
    let snapshot ← readFile snapshotId
    if snapshot.id = snapshotId then pure snapshot
    else throw (.other (.dataInvalid (s!"snapshot file id mismatch: in file name is {snapshotId}, " ++
      s!"but file contains snapshot id {snapshot.id}")))
  else throw (.snapshotNotExist snapshotId)

def getLatestSnapshot (restEnv : Bool) : Fallible Split (Option Snapshot) :=
  if restEnv then loadSnapshot
  else do
    let snapshotId ← latestSnapshotIdFromFilesystem
    match snapshotId with
    | none => pure none
    | some id => do
      let snapshot ← getSnapshot id
      pure (some snapshot)

def getLatestSnapshotId (restEnv : Bool) : Fallible Split (Option Int) :=
  if restEnv then do
    let snapshot ← getLatestSnapshot restEnv
    pure (snapshot.map Snapshot.id)
  else latestSnapshotIdFromFilesystem

/-! ## what the results say -/

section
variable {planOf : TableScan → SnapshotScanMode → Snapshot → Result (Plan Split)}
  {d d' : Directory} {id : Int}

variable {α : Type}

theorem run_lift_ok {x : Program Split (Result α)} {a : α}
    (h : Run (Answers planOf) d (Fallible.lift x).run d' (.ok a)) :
    Run (Answers planOf) d x d' (.ok a) := by
  obtain ⟨d₁, r, hx, hp⟩ := run_bind.mp h
  obtain ⟨rfl, hr⟩ := run_pure.mp hp
  cases r with
  | error e => cases hr
  | ok b =>
    cases hr
    exact hx

theorem run_lift_error {x : Program Split (Result α)} {e : ReadError}
    (h : Run (Answers planOf) d (Fallible.lift x).run d' (.error e)) : ∃ e', e = .other e' := by
  obtain ⟨d₁, r, hx, hp⟩ := run_bind.mp h
  obtain ⟨rfl, hr⟩ := run_pure.mp hp
  cases r with
  | error e' =>
    cases hr
    exact ⟨e', rfl⟩
  | ok b => cases hr

theorem run_value {a : α} {r : Except ReadError α}
    (h : Run (Answers planOf) d (pure a : Fallible Split α).run d' r) : d' = d ∧ r = .ok a :=
  run_pure.mp h

theorem exists_ok {present : Bool} (h : Run (Answers planOf) d (fileExists id).run d' (.ok present)) :
    d ≤ d' ∧ present = (d'.lookup id).isSome := by
  obtain ⟨hle, ha⟩ := run_request.mp (run_lift_ok h)
  refine ⟨hle, ?_⟩
  rcases ha with ha | ⟨e, ha⟩
  · cases ha
    rfl
  · cases ha

theorem getSnapshot_cases {r : Except ReadError Snapshot}
    (h : Run (Answers planOf) d (getSnapshot id).run d' r) :
    (∃ s, r = .ok s ∧ d'.lookup id = some s) ∨
      (r = .error (.snapshotNotExist id) ∧ d'.lookup id = none) ∨ ∃ e, r = .error (.other e) := by
  rcases run_except h with ⟨e, rfl, he⟩ | ⟨d₁, present, hp, h⟩
  · obtain ⟨e', rfl⟩ := run_lift_error he
    exact .inr (.inr ⟨e', rfl⟩)
  obtain ⟨-, rfl⟩ := exists_ok hp
  cases hl : (d₁.lookup id).isSome with
  | false =>
    rw [hl] at h
    obtain ⟨rfl, rfl⟩ := run_pure.mp h
    exact .inr (.inl ⟨rfl, by simpa using hl⟩)
  | true =>
    rw [hl] at h
    rcases run_except h with ⟨e, rfl, he⟩ | ⟨d₂, s, hs, h⟩
    · obtain ⟨e', rfl⟩ := run_lift_error he
      exact .inr (.inr ⟨e', rfl⟩)
    obtain ⟨-, ⟨s', hs', ha⟩ | ⟨e, ha⟩⟩ := run_request.mp (run_lift_ok hs)
    · cases ha
      rw [if_pos (Directory.id_of_lookup hs')] at h
      obtain ⟨rfl, rfl⟩ := run_value h
      exact .inl ⟨s, rfl, hs'⟩
    · cases ha

variable {s : Snapshot}

theorem getSnapshot_ok (h : Run (Answers planOf) d (getSnapshot id).run d' (.ok s)) :
    d'.lookup id = some s := by
  rcases getSnapshot_cases h with ⟨_, hr, hs⟩ | ⟨hr, _⟩ | ⟨_, hr⟩
  · cases hr
    exact hs
  · cases hr
  · cases hr

variable {reducer : Int → Int → Int} {start : Option Int} {ids : List Int}

theorem reduceId_mem (hpick : ∀ a b, reducer a b = a ∨ reducer a b = b) {m : Int}
    (h : ids.foldl (reduceId reducer) start = some m) : m ∈ ids ∨ start = some m := by
  induction ids generalizing start with
  | nil => exact .inr h
  | cons id ids ih =>
    rcases ih h with hm | hm
    · exact .inl (mem_cons_of_mem id hm)
    · cases start with
      | none =>
        cases hm
        exact .inl mem_cons_self
      | some r =>
        have hr : reducer r id = m := Option.some.inj hm
        rcases hpick r id with hp | hp
        · exact .inr (by rw [← hr, hp])
        · exact .inl (by rw [← hr, hp]; exact mem_cons_self)

theorem reduceId_none (h : ids.foldl (reduceId reducer) start = none) : ids = [] := by
  induction ids generalizing start with
  | nil => rfl
  | cons id ids ih =>
    obtain rfl := ih h
    cases start <;> cases h

theorem reduceId_max {m : Int} (h : ids.foldl (reduceId max) start = some m) :
    (∀ id ∈ ids, id ≤ m) ∧ ∀ r, start = some r → r ≤ m := by
  induction ids generalizing start with
  | nil =>
    refine ⟨by simp, ?_⟩
    intro r hr
    rw [hr] at h
    cases h
    exact le_refl m
  | cons id ids ih =>
    obtain ⟨hall, hstart⟩ := ih h
    cases start with
    | none => exact ⟨forall_mem_cons.mpr ⟨hstart id rfl, hall⟩, by simp⟩
    | some r =>
      have hmax := hstart (max r id) rfl
      refine ⟨forall_mem_cons.mpr ⟨by omega, hall⟩, ?_⟩
      rintro r' hr'
      cases hr'
      omega

variable {r : Option Int}

theorem findByListFiles_ok
    (h : Run (Answers planOf) d (findByListFiles reducer).run d' (.ok r)) :
    d ≤ d' ∧ ∃ ids : List Int, (∀ id, id ∈ ids ↔ (d'.lookup id).isSome = true) ∧
      ids.foldl (reduceId reducer) none = r := by
  rcases run_except h with ⟨e, hr, -⟩ | ⟨d₁, ids, hl, h⟩
  · cases hr
  obtain ⟨rfl, hr⟩ := run_value h
  cases hr
  obtain ⟨hle, ⟨ids', hids, ha⟩ | ⟨e, ha⟩⟩ := run_request.mp (run_lift_ok hl)
  · cases ha
    exact ⟨hle, ids, hids, rfl⟩
  · cases ha

theorem run_hint {α β : Type} {x : Program Split β} {f : β → Fallible Split α} {r : Except ReadError α}
    (h : Run (Answers planOf) d ((ExceptT.lift x : Fallible Split β) >>= f).run d' r) :
    ∃ d₁ hint, d ≤ d₁ ∧ Run (Answers planOf) d₁ (f hint).run d' r := by
  rcases run_except h with ⟨e, rfl, he⟩ | ⟨d₁, hint, hh, h⟩
  · obtain ⟨d₁, a, -, hp⟩ := run_bind.mp he
    cases (run_pure.mp hp).2
  · exact ⟨d₁, hint, hh.le, h⟩

theorem earliest_ok (h : Run (Answers planOf) d earliestSnapshotId.run d' (.ok r)) :
    (∀ first, r = some first → (d'.lookup first).isSome = true) ∧ (r = none → ∀ id, d'.lookup id = none) := by
  obtain ⟨d₁, hint, -, h⟩ := run_hint h
  rcases run_except h with ⟨e, hr, -⟩ | ⟨d₂, found, hf, h⟩
  · cases hr
  have hfound : ∀ first, found = some first → (d₂.lookup first).isSome = true := by
    rintro first rfl
    cases hint with
    | none => cases (run_value hf).2
    | some hintId =>
      rcases run_except hf with ⟨e, hr, -⟩ | ⟨d₃, present, hp, hf⟩
      · cases hr
      obtain ⟨rfl, hr⟩ := run_value hf
      obtain ⟨-, rfl⟩ := exists_ok hp
      split at hr
      · cases hr
        assumption
      · cases hr
  cases found with
  | some first =>
    obtain ⟨rfl, hr⟩ := run_value h
    cases hr
    exact ⟨hfound, by intro h; cases h⟩
  | none =>
    obtain ⟨-, ids, hids, rfl⟩ := findByListFiles_ok h
    constructor
    · intro first hfirst
      rcases reduceId_mem min_choice hfirst with hmem | hnone
      · exact (hids first).mp hmem
      · cases hnone
    · intro hnone id
      cases hl : d'.lookup id with
      | none => rfl
      | some s =>
        have hmem : id ∈ ids := (hids id).mpr (by rw [hl]; rfl)
        rw [reduceId_none hnone] at hmem
        cases hmem

theorem latest_id {id : Int} {d'' : Directory}
    (h : Run (Answers planOf) d latestSnapshotIdFromFilesystem.run d' (.ok (some id)))
    (hle : d' ≤ d'') (hread : (d''.lookup id).isSome = true) : (d.log.length : Int) ≤ id := by
  obtain ⟨d₁, hint, hle₁, h⟩ := run_hint h
  rcases run_except h with ⟨e, hr, -⟩ | ⟨d₂, found, hf, h⟩
  · cases hr
  have hlen := Directory.length_le (hle₁.trans hf.le)
  cases found with
  | none =>
    obtain ⟨hle₃, ids, hids, hmax⟩ := findByListFiles_ok h
    have hlen₃ := Directory.length_le hle₃
    by_cases hempty : d'.log.length = 0
    · have := (Directory.isSome_lookup.mp hread).1
      omega
    · have hlast : (d'.log.length : Int) ∈ ids := by
        rw [hids, Directory.isSome_lookup]
        have := d'.keepsLatest
        omega
      have := (reduceId_max hmax).1 _ hlast
      omega
  | some found =>
    obtain ⟨rfl, hr⟩ := run_value h
    cases hr
    cases hint with
    | none => cases (run_value hf).2
    | some hintId =>
      by_cases hpos : 0 < hintId
      · rw [latestOfHint, if_pos hpos] at hf
        rcases run_except hf with ⟨e, hr, -⟩ | ⟨d₃, next, hn, hf⟩
        · cases hr
        obtain ⟨rfl, hr⟩ := run_value hf
        obtain ⟨-, rfl⟩ := exists_ok hn
        split at hr
        · cases hr
        · next hno =>
          cases hr
          rw [Directory.isSome_lookup] at hno hread
          have := hle.2
          omega
      · rw [latestOfHint, if_neg hpos] at hf
        cases (run_value hf).2

theorem latest_ok {restEnv : Bool}
    (h : Run (Answers planOf) d (getLatestSnapshot restEnv).run d' (.ok (some s))) :
    d'.log[(s.id - 1).toNat]? = some s ∧ 1 ≤ s.id ∧ (d.log.length : Int) ≤ s.id := by
  cases restEnv with
  | true =>
    obtain ⟨hle, ha | ⟨e, ha⟩⟩ := run_request.mp (run_lift_ok h)
    · have hlast : d'.log.getLast? = some s := (Except.ok.inj ha).symm
      rw [getLast?_eq_getElem?] at hlast
      have hid := d'.ids _ s hlast
      have hlt := (List.getElem?_eq_some_iff.mp hlast).1
      have hlen := Directory.length_le hle
      refine ⟨?_, by omega, by omega⟩
      rw [← hlast]
      congr 1
      omega
    · cases ha
  | false =>
    rcases run_except h with ⟨e, hr, -⟩ | ⟨d₁, found, hf, h⟩
    · cases hr
    cases found with
    | none => cases (run_value h).2
    | some id =>
      rcases run_except h with ⟨e, hr, -⟩ | ⟨d₂, s', hs, h⟩
      · cases hr
      obtain ⟨rfl, hr⟩ := run_value h
      cases hr
      have hlook := getSnapshot_ok hs
      have hid := Directory.id_of_lookup hlook
      have hlen := latest_id hf hs.le (by rw [hlook]; rfl)
      rw [hid]
      exact ⟨(Directory.lookup_eq_some.mp hlook).2, (Directory.bounds_of_lookup hlook).1, hlen⟩

end

end Paimon.Stream
