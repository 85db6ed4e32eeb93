import Paimon.Stream.Directory

/-!
# The stream scan

`table/stream_table_scan.rs`.  A call of `plan` is a start-up (`startUp`: options, consumer, initial
snapshot) and then, once there is a checkpoint, a loop over snapshot ids (`followUp`, one turn).  A
turn ends the call with a result, or goes on with the next id.

* `restore`, `startUp`, `followUp`: the source's functions, with the fields they change;
* `Planned`: a call of `plan`, from one directory to a later one;
* `startUp_cases`, `followUp_cases`: all that a start-up and a turn can do.
-/

namespace Paimon.Stream

open Interact

structure StreamTableScan where
  scan : TableScan
  /-- the checkpoint: the next snapshot to consume -/
  nextSnapshotId : Option Int := none
  watermark : Option Int := none
  consumerId : Option String := none
  followUpMode : SnapshotScanMode
  consumerRestored : Bool := false
  missingSnapshotPolls : Nat := 0

abbrev PlanResult (Split : Type) := Except ReadError (Option (Plan Split))

def validateConsumerId (consumerId : String) : Result Unit :=
  if consumerId.isEmpty || consumerId == "." || consumerId == ".." ||
      consumerId.toList.any (fun c => c == '/' || c == '\\') then
    .error (.dataInvalid "consumer id must be a non-empty name without path separators")
  else .ok ()

def followUpModeOf : ChangelogProducer → SnapshotScanMode
  | .none => .delta
  | _ => .changelog

namespace StreamTableScan

/-- a postponed bucket has no changelog -/
def withRealBuckets (scan : TableScan) : TableScan :=
  if scan.bucket = -2 ∧ scan.changelogProducer ≠ .none then { scan with onlyRealBuckets := true }
  else scan

def new (scan : TableScan) (consumerId : Option String) : Result StreamTableScan := do
  match consumerId with
  | some id => validateConsumerId id
  | none => pure ()
  pure { scan := withRealBuckets scan, consumerId := consumerId,
         followUpMode := followUpModeOf scan.changelogProducer }

def restore (s : StreamTableScan) (nextSnapshotId : Option Int) : Result StreamTableScan :=
  if nextSnapshotId.any (· < 1) then .error (.dataInvalid "next snapshot id must be positive")
  else .ok { s with nextSnapshotId, consumerRestored := nextSnapshotId.isSome,
                    missingSnapshotPolls := 0 }

end StreamTableScan

/-! ## planning a snapshot -/

def digitsValue (digits : List Char) : Option Nat :=
  if !digits.isEmpty && digits.all Char.isDigit then
    some (digits.foldl (fun n c => 10 * n + (c.toNat - '0'.toNat)) 0)
  else none

/-- `str::parse::<i32>` -/
def parseI32 (s : String) : Option Int :=
  match s.toList with
  | '-' :: digits => (digitsValue digits).bind fun n => if n ≤ 2147483648 then some (-n) else none
  | '+' :: digits => (digitsValue digits).bind fun n => if n ≤ 2147483647 then some n else none
  | digits => (digitsValue digits).bind fun n => if n ≤ 2147483647 then some n else none

def parseOption (key : String) (value : Option String) (default : Int) : Result Int :=
  match value with
  | none => .ok default
  | some value =>
    match parseI32 value with
    | some n => .ok n
    | none => .error (.dataInvalid s!"invalid {key}: {value}")

/-- the scan of the initial snapshot: its levels depend on the changelog producer -/
def initialScan (scan : TableScan) : Result TableScan :=
  match scan.changelogProducer with
  | .lookup => .ok { scan with snapshotLevels := some (1, 2147483647) }
  | .fullCompaction => do
    let levels ← if scan.numLevels.isSome then parseOption "num-levels" scan.numLevels 0
      else do
        let trigger ← parseOption "num-sorted-run.compaction-trigger" scan.compactionTrigger 5
        pure (min (trigger + 1) 2147483647)
    if levels - 1 < -2147483648 then .error (.dataInvalid "num-levels is out of range")
    else .ok { scan with snapshotLevels := some (levels - 1, levels - 1) }
  | .none => .ok scan
  | .input => .ok scan

section
variable {Split : Type}

def Fallible.ofResult {α : Type} (r : Result α) : Fallible Split α := Fallible.lift (pure r)

def planSelectedSnapshot (scan : TableScan) (snapshot : Snapshot) (mode : SnapshotScanMode) :
    Fallible Split (Plan Split) := do
  Fallible.ofResult scan.validated
  Fallible.lift (Prog.request (Request.plan scan mode snapshot))

def planInitialSnapshot (s : StreamTableScan) (snapshot : Snapshot) : Fallible Split (Plan Split) := do
  let scan ← Fallible.ofResult (initialScan s.scan)
  planSelectedSnapshot scan snapshot .all

/-! ## the start of a call -/

def readConsumer (consumerId : String) : Program Split (Result (Option Int)) :=
  Prog.request (Request.consumer consumerId)

/-- take over the consumer's checkpoint, once -/
def restoreConsumer (s : StreamTableScan) : Program Split (StreamTableScan × Result Unit) :=
  if s.nextSnapshotId.isNone && !s.consumerRestored then
    match s.consumerId with
    | none => pure ({ s with consumerRestored := true }, .ok ())
    | some consumerId => do
      let next ← readConsumer consumerId
      match next with
      | .error e => pure (s, .error e)
      | .ok none => pure ({ s with consumerRestored := true }, .ok ())
      | .ok (some next) =>
        match s.restore (some next) with
        | .error e => pure (s, .error e)
        | .ok s => pure ({ s with consumerRestored := true }, .ok ())
  else pure (s, .ok ())

def planInitial (s : StreamTableScan) : Program Split (StreamTableScan × Option (PlanResult Split)) := do
  let latest ← (getLatestSnapshot s.scan.restEnv).run
  match latest with
  | .error e => pure (s, some (.error e))
  | .ok none => pure (s, some (.ok none))
  | .ok (some snapshot) =>
    let planned ← (planInitialSnapshot s snapshot).run
    match planned with
    | .error e => pure (s, some (.error e))
    | .ok plan =>
      pure ({ s with nextSnapshotId := some (snapshot.id + 1), watermark := snapshot.watermark },
        some (.ok (some plan)))

/-- `plan` up to its loop; with no result the loop follows -/
def startUp (s : StreamTableScan) : Program Split (StreamTableScan × Option (PlanResult Split)) :=
  match s.scan.validated with
  | .error e => pure (s, some (.error (.other e)))
  | .ok () => do
    let (s, restored) ← restoreConsumer s
    match restored with
    | .error e => pure (s, some (.error (.other e)))
    | .ok () => if s.nextSnapshotId.isNone then planInitial s else pure (s, none)

/-! ## the loop -/

/-- `{:?}` of an optional id -/
def debugId : Option Int → String
  | some id => s!"Some({id})"
  | none => "None"

/-- is the checkpoint before the earliest or beyond the next snapshot? -/
def checkAvailable (restEnv : Bool) (id : Int) : Fallible Split Unit := do
  let earliest ← earliestSnapshotId
  let latest ← getLatestSnapshotId restEnv
  if earliest.any (fun first => id < first) || latest.any (fun last => last + 1 < id) ||
      (latest.isNone && decide (1 < id)) then
    throw (.other (.dataInvalid (s!"stream checkpoint {id} is outside the available snapshots " ++
      s!"{debugId earliest}..{debugId latest}")))
  else pure ()

/-- the snapshot is not there: not yet, or no longer -/
def missing (s : StreamTableScan) (id : Int) : Program Split (StreamTableScan × Option (PlanResult Split)) :=
  let s := { s with missingSnapshotPolls := s.missingSnapshotPolls + 1 }
  if s.missingSnapshotPolls % 16 = 0 then do
    let checked ← (checkAvailable s.scan.restEnv id).run
    match checked with
    | .error e => pure (s, some (.error e))
    | .ok () => pure (s, some (.ok none))
  else pure (s, some (.ok none))

/-- whether the follow-up mode selects a snapshot; a follow-up mode is not `all` -/
def shouldScan : SnapshotScanMode → Snapshot → Bool
  | .delta, snapshot => snapshot.commitKind == .append
  | .changelog, snapshot => snapshot.changelogManifestList.isSome
  | .all, _ => false

/-- one turn of the loop; with no result the next turn follows -/
def followUp (s : StreamTableScan) : Program Split (StreamTableScan × Option (PlanResult Split)) :=
  match s.nextSnapshotId with
  | none => pure (s, none) -- `expect`: the initial phase is completed
  | some id => do
    let found ← (getSnapshot id).run
    match found with
    | .error (.snapshotNotExist _) => missing s id
    | .error (.other e) => pure (s, some (.error (.other e)))
    | .ok snapshot =>
      let s := { s with missingSnapshotPolls := 0 }
      if shouldScan s.followUpMode snapshot then
        let planned ← (planSelectedSnapshot s.scan snapshot s.followUpMode).run
        match planned with
        | .error e => pure (s, some (.error e))
        | .ok plan =>
          pure ({ s with nextSnapshotId := some (id + 1), watermark := snapshot.watermark },
            if plan.splits.isEmpty then none else some (.ok (some plan)))
      else pure ({ s with nextSnapshotId := some (id + 1) }, none)

end

section
variable {Split : Type} (planOf : TableScan → SnapshotScanMode → Snapshot → Result (Plan Split))

inductive Planned : Directory → StreamTableScan → Directory → StreamTableScan → PlanResult Split → Prop
  | startUp {d d' : Directory} {s s' : StreamTableScan} {r : PlanResult Split}
      (run : Run (Answers planOf) d (startUp s) d' (s', some r)) : Planned d s d' s' r
  | followUp {d d₁ d' : Directory} {s s₁ s' : StreamTableScan} {r : PlanResult Split}
      (run : Run (Answers planOf) d (Stream.startUp s) d₁ (s₁, none))
      (loop : Loop (Answers planOf) Stream.followUp d₁ s₁ d' s' r) : Planned d s d' s' r

end

/-! ## what a call can do -/

/-- the fields that no call changes -/
def StreamTableScan.SameScan (s s' : StreamTableScan) : Prop :=
  s'.scan = s.scan ∧ s'.followUpMode = s.followUpMode ∧ s'.consumerId = s.consumerId

theorem StreamTableScan.SameScan.refl (s : StreamTableScan) : s.SameScan s := ⟨rfl, rfl, rfl⟩

theorem StreamTableScan.SameScan.trans {s s' s'' : StreamTableScan} (h : s.SameScan s')
    (h' : s'.SameScan s'') : s.SameScan s'' :=
  ⟨h'.1.trans h.1, h'.2.1.trans h.2.1, h'.2.2.trans h.2.2⟩

theorem StreamTableScan.restore_some {s s' : StreamTableScan} {next : Int}
    (h : s.restore (some next) = .ok s') :
    1 ≤ next ∧ s' = { s with nextSnapshotId := some next, consumerRestored := true,
                             missingSnapshotPolls := 0 } := by
  unfold restore at h
  split at h
  · cases h
  · next hno =>
    cases h
    refine ⟨?_, rfl⟩
    simpa using hno

section
variable {Split : Type} {planOf : TableScan → SnapshotScanMode → Snapshot → Result (Plan Split)}
  {d d' : Directory} {s s' : StreamTableScan}

variable {snapshot : Snapshot} {plan : Plan Split}

theorem planSelectedSnapshot_ok {scan : TableScan} {mode : SnapshotScanMode}
    (h : Run (Answers planOf) d (planSelectedSnapshot scan snapshot mode).run d' (.ok plan)) :
    d ≤ d' ∧ planOf scan mode snapshot = .ok plan := by
  refine ⟨h.le, ?_⟩
  rcases run_except h with ⟨e, hr, -⟩ | ⟨d₁, -, hv, h⟩
  · cases hr
  obtain ⟨-, ha | ⟨e, ha⟩⟩ := run_request.mp (run_lift_ok h)
  · exact ha.symm
  · cases ha

theorem planInitialSnapshot_ok
    (h : Run (Answers planOf) d (planInitialSnapshot s snapshot).run d' (.ok plan)) :
    d ≤ d' ∧ ∃ scan, initialScan s.scan = .ok scan ∧ planOf scan .all snapshot = .ok plan := by
  refine ⟨h.le, ?_⟩
  rcases run_except h with ⟨e, hr, -⟩ | ⟨d₁, scan, hv, h⟩
  · cases hr
  have hscan := (run_pure.mp (run_lift_ok hv)).2
  exact ⟨scan, hscan.symm, (planSelectedSnapshot_ok h).2⟩

/-- what a start-up ends with -/
inductive StartUp (planOf : TableScan → SnapshotScanMode → Snapshot → Result (Plan Split))
    (d : Directory) (s : StreamTableScan) (d' : Directory) (s' : StreamTableScan) :
    Option (PlanResult Split) → Prop
  /-- there is a checkpoint already -/
  | resumes (next : Int) (had : s.nextSnapshotId = some next) (same : s' = s) :
      StartUp planOf d s d' s' none
  /-- the checkpoint is the consumer's -/
  | consumer (next : Int) (fresh : s.nextSnapshotId = none) (named : s.consumerId ≠ none)
      (positive : 1 ≤ next) (now : s'.nextSnapshotId = some next) :
      StartUp planOf d s d' s' none
  /-- no plan, and the checkpoint is as it was -/
  | nothing (r : PlanResult Split) (empty : ∀ p, r ≠ .ok (some p))
      (same : s'.nextSnapshotId = s.nextSnapshotId)
      (fails : s.nextSnapshotId ≠ none → ∃ e, r = .error e) :
      StartUp planOf d s d' s' (some r)
  /-- the plan of the latest snapshot -/
  | initial (snapshot : Snapshot) (scan : TableScan) (plan : Plan Split)
      (fresh : s.nextSnapshotId = none)
      (published : d'.log[(snapshot.id - 1).toNat]? = some snapshot) (positive : 1 ≤ snapshot.id)
      (latest : (d.log.length : Int) ≤ snapshot.id) (scanned : initialScan s.scan = .ok scan)
      (planned : planOf scan .all snapshot = .ok plan)
      (now : s'.nextSnapshotId = some (snapshot.id + 1)) :
      StartUp planOf d s d' s' (some (.ok (some plan)))

theorem restoreConsumer_cases {restored : Result Unit}
    (h : Run (Answers planOf) d (restoreConsumer s : Program Split _) d' (s', restored)) :
    s.SameScan s' ∧ ((s.nextSnapshotId ≠ none ∧ s' = s ∧ restored = .ok ()) ∨
        (s.nextSnapshotId = none ∧ s'.nextSnapshotId = none) ∨
        (s.nextSnapshotId = none ∧ s.consumerId ≠ none ∧ restored = .ok () ∧
          ∃ next, 1 ≤ next ∧ s'.nextSnapshotId = some next)) := by
  obtain ⟨scan, next, watermark, consumerId, mode, done, polls⟩ := s
  cases next with
  | some next =>
    obtain ⟨-, hr⟩ := run_pure.mp h
    cases hr
    exact ⟨.refl _, .inl ⟨by simp, rfl, rfl⟩⟩
  | none =>
    cases done with
    | true =>
      obtain ⟨-, hr⟩ := run_pure.mp h
      cases hr
      exact ⟨.refl _, .inr (.inl ⟨rfl, rfl⟩)⟩
    | false =>
      cases consumerId with
      | none =>
        obtain ⟨-, hr⟩ := run_pure.mp h
        cases hr
        exact ⟨⟨rfl, rfl, rfl⟩, .inr (.inl ⟨rfl, rfl⟩)⟩
      | some consumerId =>
        obtain ⟨d₁, next, -, h⟩ := run_bind.mp h
        rcases next with e | (- | next)
        · obtain ⟨-, hr⟩ := run_pure.mp h
          cases hr
          exact ⟨.refl _, .inr (.inl ⟨rfl, rfl⟩)⟩
        · obtain ⟨-, hr⟩ := run_pure.mp h
          cases hr
          exact ⟨⟨rfl, rfl, rfl⟩, .inr (.inl ⟨rfl, rfl⟩)⟩
        · cases hrestore : StreamTableScan.restore
            ⟨scan, none, watermark, some consumerId, mode, false, polls⟩ (some next) with
          | error e =>
            simp only [hrestore] at h
            obtain ⟨-, hr⟩ := run_pure.mp h
            cases hr
            exact ⟨.refl _, .inr (.inl ⟨rfl, rfl⟩)⟩
          | ok s₁ =>
            simp only [hrestore] at h
            obtain ⟨-, hr⟩ := run_pure.mp h
            obtain ⟨hpos, rfl⟩ := StreamTableScan.restore_some hrestore
            cases hr
            exact ⟨⟨rfl, rfl, rfl⟩, .inr (.inr ⟨rfl, by simp, rfl, next, hpos, rfl⟩)⟩

variable {o : Option (PlanResult Split)}

theorem planInitial_cases (hnext : s.nextSnapshotId = none)
    (h : Run (Answers planOf) d (planInitial s) d' (s', o)) :
    s.SameScan s' ∧ StartUp planOf d s d' s' o := by
  have hnothing : ∀ r : PlanResult Split, (∀ p, r ≠ .ok (some p)) → s.SameScan s ∧
      StartUp planOf d s d' s (some r) := fun r hr =>
    ⟨.refl s, .nothing r hr rfl fun hne => absurd hnext hne⟩
  obtain ⟨d₁, latest, hlatest, h⟩ := run_bind.mp h
  rcases latest with e | (- | snapshot)
  · obtain ⟨-, hr⟩ := run_pure.mp h
    cases hr
    exact hnothing _ (by simp)
  · obtain ⟨-, hr⟩ := run_pure.mp h
    cases hr
    exact hnothing _ (by simp)
  · obtain ⟨d₂, planned, hplan, h⟩ := run_bind.mp h
    cases planned with
    | error e =>
      obtain ⟨-, hr⟩ := run_pure.mp h
      cases hr
      exact hnothing _ (by simp)
    | ok plan =>
      obtain ⟨rfl, hr⟩ := run_pure.mp h
      cases hr
      obtain ⟨hpublished, hpos, hlen⟩ := latest_ok hlatest
      obtain ⟨hle, scan, hscan, hplanned⟩ := planInitialSnapshot_ok hplan
      refine ⟨⟨rfl, rfl, rfl⟩, .initial snapshot scan plan hnext ?_ hpos hlen hscan hplanned rfl⟩
      exact Directory.getElem?_of_le hle hpublished

variable {d₁ : Directory}

theorem StartUp.of_restored {s₁ : StreamTableScan}
    (hle : d ≤ d₁) (hsame : s.SameScan s₁) (hnone : s.nextSnapshotId = none)
    (hnone₁ : s₁.nextSnapshotId = none) (h : StartUp planOf d₁ s₁ d' s' o) :
    StartUp planOf d s d' s' o := by
  cases h with
  | resumes next had same => exact absurd (hnone₁.symm.trans had) (by simp)
  | consumer next fresh named positive now =>
    exact .consumer next hnone (by rwa [hsame.2.2] at named) positive now
  | nothing r empty same fails =>
    exact .nothing r empty (by rw [same, hnone, hnone₁]) fun hne => absurd hnone hne
  | initial snapshot scan plan fresh published positive latest scanned planned now =>
    have hlen := Directory.length_le hle
    exact .initial snapshot scan plan hnone published positive (by omega)
      (by rwa [hsame.1] at scanned) planned now

theorem startUp_cases (h : Run (Answers planOf) d (startUp s) d' (s', o)) :
    s.SameScan s' ∧ StartUp planOf d s d' s' o := by
  unfold startUp at h
  cases hvalid : s.scan.validated with
  | error e =>
    simp only [hvalid] at h
    obtain ⟨-, hr⟩ := run_pure.mp h
    cases hr
    exact ⟨.refl s, .nothing _ (by simp) rfl fun _ => ⟨_, rfl⟩⟩
  | ok _ =>
    simp only [hvalid] at h
    obtain ⟨d₁, ⟨s₁, restored⟩, hres, h⟩ := run_bind.mp h
    obtain ⟨hsame, hcases⟩ := restoreConsumer_cases hres
    cases restored with
    | error e =>
      obtain ⟨-, hr⟩ := run_pure.mp h
      cases hr
      rcases hcases with ⟨-, -, hr⟩ | ⟨hnone, hnone'⟩ | ⟨-, -, hr, -⟩
      · cases hr
      · exact ⟨hsame, .nothing _ (by simp) (hnone'.trans hnone.symm) fun hne => absurd hnone hne⟩
      · cases hr
    | ok _ =>
      have hrest : Run (Answers planOf) d₁
          (if s₁.nextSnapshotId.isNone then planInitial s₁ else pure (s₁, none)) d' (s', o) := h
      rcases hcases with ⟨hsome, rfl, -⟩ | ⟨hnone, hnone'⟩ | ⟨hnone, hid, -, next, hpos, hnext⟩
      · obtain ⟨next, hnext⟩ := Option.ne_none_iff_exists'.mp hsome
        rw [hnext] at hrest
        obtain ⟨-, hr⟩ := run_pure.mp hrest
        cases hr
        exact ⟨hsame, .resumes next hnext rfl⟩
      · rw [hnone'] at hrest
        obtain ⟨hsame', hstart⟩ := planInitial_cases hnone' hrest
        exact ⟨hsame.trans hsame', hstart.of_restored hres.le hsame hnone hnone'⟩
      · rw [hnext] at hrest
        obtain ⟨-, hr⟩ := run_pure.mp hrest
        cases hr
        exact ⟨hsame, .consumer next hnone hid hpos hnext⟩

/-- what a turn of the loop ends with, at the checkpoint `id` -/
inductive Turn (planOf : TableScan → SnapshotScanMode → Snapshot → Result (Plan Split))
    (id : Int) (d : Directory) (s : StreamTableScan) (d' : Directory) (s' : StreamTableScan) :
    Option (PlanResult Split) → Prop
  /-- the call fails where it is -/
  | fails (e : ReadError) (same : s'.nextSnapshotId = some id) :
      Turn planOf id d s d' s' (some (.error e))
  /-- there is no snapshot of this id -/
  | waits (same : s'.nextSnapshotId = some id) (absent : Sometime d d' fun d₁ => d₁.lookup id = none)
      (polls : s'.missingSnapshotPolls = s.missingSnapshotPolls + 1)
      (available : s'.missingSnapshotPolls % 16 = 0 →
        Sometime d d' fun d₁ =>
          (∃ first ≤ id, (d₁.lookup first).isSome = true) ∨ ∀ i, d₁.lookup i = none) :
      Turn planOf id d s d' s' (some (.ok none))
  /-- the snapshot is not selected, or its plan has no splits -/
  | skips (snapshot : Snapshot) (found : Sometime d d' fun d₁ => d₁.lookup id = some snapshot)
      (empty : shouldScan s.followUpMode snapshot = true →
        ∃ plan, planOf s.scan s.followUpMode snapshot = .ok plan ∧ plan.splits = [])
      (now : s'.nextSnapshotId = some (id + 1)) :
      Turn planOf id d s d' s' none
  | delivers (snapshot : Snapshot) (found : Sometime d d' fun d₁ => d₁.lookup id = some snapshot)
      (selected : shouldScan s.followUpMode snapshot = true) (plan : Plan Split)
      (planned : planOf s.scan s.followUpMode snapshot = .ok plan) (full : plan.splits ≠ [])
      (now : s'.nextSnapshotId = some (id + 1)) :
      Turn planOf id d s d' s' (some (.ok (some plan)))

variable {id : Int}

theorem Turn.of_le
    (h : Turn planOf id d₁ s d' s' o) (le : d ≤ d₁) : Turn planOf id d s d' s' o := by
  cases h with
  | fails e same => exact .fails e same
  | waits same absent polls available =>
    exact .waits same (absent.of_le le) polls fun h16 => (available h16).of_le le
  | skips snapshot found empty now => exact .skips snapshot (found.of_le le) empty now
  | delivers snapshot found selected plan planned full now =>
    exact .delivers snapshot (found.of_le le) selected plan planned full now

theorem checkAvailable_ok {restEnv : Bool}
    (h : Run (Answers planOf) d (checkAvailable restEnv id : Fallible Split Unit).run d' (.ok ())) :
    Sometime d d' fun d₁ =>
      (∃ first ≤ id, (d₁.lookup first).isSome = true) ∨ ∀ i, d₁.lookup i = none := by
  rcases run_except h with ⟨e, hr, -⟩ | ⟨d₁, earliest, he, hrest⟩
  · cases hr
  refine ⟨d₁, he.le, hrest.le, ?_⟩
  obtain ⟨hsome, hnone⟩ := earliest_ok he
  cases earliest with
  | none => exact .inr (hnone rfl)
  | some first =>
    refine .inl ⟨first, ?_, hsome first rfl⟩
    rcases run_except hrest with ⟨e, hr, -⟩ | ⟨d₂, latest, hl, hrest⟩
    · cases hr
    by_contra hgt
    have hout : (Option.any (fun first => decide (id < first)) (some first)) = true := by
      simpa using hgt
    rw [hout] at hrest
    cases (run_pure.mp hrest).2

theorem missing_cases (hnext : s.nextSnapshotId = some id) (habsent : d.lookup id = none)
    (h : Run (Answers planOf) d (missing s id) d' (s', o)) :
    s.SameScan s' ∧ Turn planOf id d s d' s' o := by
  have hle := h.le
  unfold missing at h
  by_cases h16 : (s.missingSnapshotPolls + 1) % 16 = 0
  · simp only [h16, if_true] at h
    obtain ⟨d₁, checked, hcheck, h⟩ := run_bind.mp h
    cases checked with
    | error e =>
      obtain ⟨-, hr⟩ := run_pure.mp h
      cases hr
      exact ⟨⟨rfl, rfl, rfl⟩, .fails e hnext⟩
    | ok _ =>
      obtain ⟨rfl, hr⟩ := run_pure.mp h
      cases hr
      exact ⟨⟨rfl, rfl, rfl⟩, .waits hnext ⟨d, le_refl d, hle, habsent⟩ rfl fun _ => checkAvailable_ok hcheck⟩
  · simp only [h16, if_false] at h
    obtain ⟨rfl, hr⟩ := run_pure.mp h
    cases hr
    exact ⟨⟨rfl, rfl, rfl⟩, .waits hnext ⟨_, le_refl _, hle, habsent⟩ rfl fun h0 => absurd h0 h16⟩

theorem followUp_cases (hnext : s.nextSnapshotId = some id)
    (h : Run (Answers planOf) d (followUp s) d' (s', o)) :
    s.SameScan s' ∧ Turn planOf id d s d' s' o := by
  unfold followUp at h
  simp only [hnext] at h
  obtain ⟨d₁, found, hfound, h⟩ := run_bind.mp h
  have hle := h.le
  rcases getSnapshot_cases hfound with ⟨snapshot, rfl, hlook⟩ | ⟨rfl, habsent⟩ | ⟨e, rfl⟩
  · cases hscan : shouldScan s.followUpMode snapshot with
    | false =>
      simp only [hscan, if_false, Bool.false_eq_true] at h
      obtain ⟨-, hr⟩ := run_pure.mp h
      cases hr
      refine ⟨⟨rfl, rfl, rfl⟩, .skips snapshot ⟨d₁, hfound.le, hle, hlook⟩ ?_ rfl⟩
      intro htrue
      rw [hscan] at htrue
      cases htrue
    | true =>
      simp only [hscan, if_true] at h
      obtain ⟨d₂, planned, hplan, h⟩ := run_bind.mp h
      cases planned with
      | error e =>
        obtain ⟨-, hr⟩ := run_pure.mp h
        cases hr
        exact ⟨⟨rfl, rfl, rfl⟩, .fails e rfl⟩
      | ok plan =>
        obtain ⟨-, hr⟩ := run_pure.mp h
        have hplanned := (planSelectedSnapshot_ok hplan).2
        by_cases hempty : plan.splits = []
        · simp only [hempty, List.isEmpty_nil, if_true] at hr
          cases hr
          exact ⟨⟨rfl, rfl, rfl⟩, .skips snapshot ⟨d₁, hfound.le, hle, hlook⟩ (fun _ => ⟨plan, hplanned, hempty⟩) rfl⟩
        · have hfull : plan.splits.isEmpty = false := by simpa using hempty
          simp only [hfull, if_false, Bool.false_eq_true] at hr
          cases hr
          exact ⟨⟨rfl, rfl, rfl⟩, .delivers snapshot ⟨d₁, hfound.le, hle, hlook⟩ hscan plan hplanned hempty rfl⟩
  · obtain ⟨hsame, hturn⟩ := missing_cases hnext habsent h
    exact ⟨hsame, hturn.of_le hfound.le⟩
  · obtain ⟨-, hr⟩ := run_pure.mp h
    cases hr
    exact ⟨.refl s, .fails _ hnext⟩

end

end Paimon.Stream
