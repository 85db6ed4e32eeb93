import Paimon.Commit.Prepare

/-!
# Committers over one snapshot sequence

`TableCommit::try_commit` as a state machine.  Any number of committers share the list of published
snapshots; between two awaits of one committer the others may take any number of steps.

* `Phase`, `Local`: where a committer stands in its loop, and its local variables;
* `Action`: one step, with what the environment decides: which reads fail, how the publication is answered,
  how much time has passed;
* `Outcome`: publication of a snapshot id is an atomic create-if-absent whose response may be lost;
* `System.step`, `.run`: interleaved runs.

Nothing removes a snapshot: snapshots do not expire during a run.
-/

namespace Paimon

/-- reads of published snapshots by id, some of which may fail -/
def reader (history : List Snapshot) (unreadable : List Int) : Reader := fun id =>
  if id ∈ unreadable then .error (.ioUnexpected "snapshot read failed")
  else match history.find? (fun s => s.id = id) with
    | some s => .ok s
    | none => .error (.ioUnexpected "snapshot not found")

theorem reader_ok {h : List Snapshot} {u : List Int} {i : Int} {s : Snapshot}
    (hr : reader h u i = .ok s) : s ∈ h ∧ s.id = i := by
  unfold reader at hr
  split at hr
  · exact nomatch hr
  · split at hr
    · rename_i hf
      cases hr
      exact ⟨List.mem_of_find?_eq_some hf, by simpa using List.find?_some hf⟩
    · exact nomatch hr

/-- the first snapshot of the list of ids that satisfies `p`; the latest one is at hand -/
def findSnapshot (read : Reader) (latest : Snapshot) (p : Snapshot → Bool) :
    List Int → Result (Option Snapshot)
  | [] => .ok none
  | id :: ids => do
    let snapshot ← if id = latest.id then pure latest else read id
    if p snapshot then return some snapshot
    findSnapshot read latest p ids

/-- the ids `a ..= b`, last first -/
def idsDownFrom (b a : Int) : List Int := (idsAfter (a - 1) b).reverse

theorem mem_idsDownFrom {a b i : Int} : i ∈ idsDownFrom b a ↔ a ≤ i ∧ i ≤ b := by
  unfold idsDownFrom
  rw [List.mem_reverse, mem_idsAfter]
  omega

def isCommittedIdentifier (commitUser : String) (read : Reader) (earliest : Option Int)
    (latestSnapshot : Option Snapshot) (commitIdentifier : Int) : Result Bool :=
  match latestSnapshot with
  | none => .ok false
  | some latest =>
    if latest.commitUser = commitUser then .ok (decide (commitIdentifier ≤ latest.commitIdentifier))
    else do
      let found ← findSnapshot read latest (fun s => s.commitUser == commitUser)
        (idsDownFrom latest.id (earliest.getD latest.id))
      return match found with
        | none => false
        | some s => decide (commitIdentifier ≤ s.commitIdentifier)

def findDuplicateCommit (commitUser : String) (read : Reader) (startSnapshotId : Int)
    (latestSnapshot : Option Snapshot) (commitIdentifier : Int) (commitKind : CommitKind) :
    Result (Option Snapshot) :=
  match latestSnapshot with
  | none => .ok none
  | some latest => findSnapshot read latest
      (fun s => s.commitUser == commitUser && s.commitIdentifier == commitIdentifier &&
        s.commitKind == commitKind) (idsDownFrom latest.id startSnapshotId)

def validateExpectedLatestSnapshot (expected : Option Int) (latestSnapshot : Option Snapshot) : Result Unit :=
  match expected with
  | none => .ok ()
  | some e =>
    if latestSnapshot.map Snapshot.id = some e then .ok ()
    else
      let actual := match latestSnapshot with
        | none => "none"
        | some s => toString s.id
      .error (.dataInvalid s!"Snapshot changed while committing index files: expected latest snapshot {e}, got {actual}")

/-! ## one committer -/

structure Committer where
  commit : TableCommit
  plan : CommitEntriesPlan
  expectedSnapshotId : Option Int := none
  commitIdentifier : Int
  filterCommitted : Bool := false
  hasCallbacks : Bool := false
  /-- callers build plans with an empty cache -/
  fresh : plan.fresh = true := by rfl

inductive Phase where
  | readLatest
  | check (latestSnapshot : Option Snapshot)
  | resolve (latestSnapshot : Option Snapshot)
  | publish (latestSnapshot : Option Snapshot) (snapshot : Snapshot) (resolved : ResolvedCommit)
  | retry
  | done (result : Result Unit)

structure Local where
  phase : Phase
  plan : CommitEntriesPlan
  retryCount : Nat
  duplicateCheckStart : Option Int
  retryState : Option RetryState
  filterCommitted : Bool
  lastPublicationError : Option Error

def Local.init (c : Committer) : Local where
  phase := .readLatest
  plan := c.plan
  retryCount := 0
  duplicateCheckStart := none
  retryState := none
  filterCommitted := c.filterCommitted
  lastPublicationError := none

inductive Outcome where
  /-- the response arrives; a callback may fail after it -/
  | answered (callbackError : Option Error)
  /-- the request takes effect but its response is lost -/
  | lost (error : Error)
  /-- the request never takes effect -/
  | failed (error : Error)

inductive Action where
  | readLatest
  | check (unreadable : List Int) (callbackError : Option Error)
  | resolve (unreadable : List Int)
  | publish (outcome : Outcome)
  | retry (elapsedMs : Nat)
  /-- an await of the current phase fails -/
  | fail (error : Error)

/-- leave the loop; an error after an uncertain publication says so -/
def Local.finish (l : Local) (result : Result Unit) : Local :=
  { l with phase := .done (match result, l.lastPublicationError with
      | .error e, some _ => .error (.unexpectedErrorFrom "Commit outcome may be unknown; retain prepared files and retry with the same commit identifier" e)
      | r, _ => r) }

/-- an error of a callback, if there are callbacks to call -/
def notifyCallbacks (c : Committer) (callbackError : Option Error) : Result Unit :=
  match c.hasCallbacks, callbackError with
  | true, some e => .error e
  | _, _ => .ok ()

/-- the filter of committed identifiers, asked before the first attempt only -/
def filterApplies (c : Committer) (history : List Snapshot) (l : Local)
    (latestSnapshot : Option Snapshot) (unreadable : List Int) : Result Bool :=
  if l.filterCommitted then
    isCommittedIdentifier c.commit.commitUser (reader history unreadable)
      (history.head?.map Snapshot.id) latestSnapshot c.commitIdentifier
  else .ok false

/-- the snapshot of an earlier attempt whose response was lost -/
def duplicateOf (c : Committer) (history : List Snapshot) (l : Local)
    (latestSnapshot : Option Snapshot) (unreadable : List Int) : Result (Option Snapshot) :=
  match l.duplicateCheckStart with
  | none => .ok none
  | some start => findDuplicateCommit c.commit.commitUser (reader history unreadable) start
      latestSnapshot c.commitIdentifier l.plan.commitKindHint

/-- the checks at the top of the loop: filter of committed identifiers, duplicate of a lost
publication, expected latest snapshot.  `some r` leaves the loop with `r`. -/
def topOfLoop (c : Committer) (history : List Snapshot) (l : Local)
    (latestSnapshot : Option Snapshot) (unreadable : List Int) (callbackError : Option Error) :
    Result (Option (Result Unit)) := do
  let committed ← filterApplies c history l latestSnapshot unreadable
  if committed then return some (.ok ())
  let duplicate ← duplicateOf c history l latestSnapshot unreadable
  match duplicate with
  | some _ => return some (notifyCallbacks c callbackError)
  | none =>
    validateExpectedLatestSnapshot c.expectedSnapshotId latestSnapshot
    return none

def nothingToCommit (c : Committer) (resolved : ResolvedCommit) : Bool :=
  resolved.entries = [] && resolved.changelogEntries = [] && !resolved.indexManifestChanged &&
    !(c.plan.commitKindHint == .overwrite) &&
    !(!c.commit.ignoreEmptyCommit && match c.plan with
      | .direct .. => true
      | .overwrite .. => false)

def Local.toRetry (l : Local) (latestSnapshot : Option Snapshot) (resolved : ResolvedCommit)
    (publicationError : Option Error) : Local :=
  { l with
    phase := .retry
    duplicateCheckStart := some (l.duplicateCheckStart.getD (nextSnapshotId latestSnapshot))
    retryState := some ⟨latestSnapshot, resolved.baseDataFiles⟩
    lastPublicationError := publicationError.or l.lastPublicationError }

def retriesExhaustedError (l : Local) (elapsedMs : Nat) : Error :=
  let message := s!"Commit failed for snapshot {l.duplicateCheckStart.getD 1} after {elapsedMs} millis with {l.retryCount} retries, there may exist commit conflicts between multiple jobs."
  match l.lastPublicationError with
  | none => .dataInvalid message
  | some e => .dataInvalidFrom message e

/-- one step of a committer; `none` when the action does not belong to its phase -/
def stepCommitter (c : Committer) (history : List Snapshot) (l : Local) (a : Action) :
    Option (List Snapshot × Local) :=
  match l.phase, a with
  | .readLatest, .readLatest => some (history, { l with phase := .check history.getLast? })
  | .check latest, .check unreadable callbackError =>
    match topOfLoop c history l latest unreadable callbackError with
    | .error e => some (history, l.finish (.error e))
    | .ok (some r) => some (history, l.finish r)
    | .ok none => some (history, { l with phase := .resolve latest, filterCommitted := false })
  | .resolve latest, .resolve unreadable =>
    match resolveCommit c.commit (reader history unreadable) l.plan latest l.retryState
        c.filterCommitted with
    | .error e => some (history, l.finish (.error e))
    | .ok (plan, resolved) =>
      let l := { l with plan := plan }
      if nothingToCommit c resolved then some (history, l.finish (.ok ()))
      else match prepareSnapshot c.commit resolved latest c.commitIdentifier with
        | .error e => some (history, l.finish (.error e))
        | .ok snapshot => some (history, { l with phase := .publish latest snapshot resolved })
  | .publish latest snapshot resolved, .publish outcome =>
    if history.any (fun s => s.id == snapshot.id) then
      match outcome with
      | .answered _ => some (history, l.toRetry latest resolved none)
      | .lost e => some (history, l.toRetry latest resolved (some e))
      | .failed e => some (history, l.toRetry latest resolved (some e))
    else
      match outcome with
      | .answered callbackError =>
        some (history ++ [snapshot], l.finish (notifyCallbacks c callbackError))
      | .lost e => some (history ++ [snapshot], l.toRetry latest resolved (some e))
      | .failed e => some (history, l.toRetry latest resolved (some e))
  | .retry, .retry elapsedMs =>
    if c.commit.commitTimeoutMs < elapsedMs ∨ c.commit.commitMaxRetries ≤ l.retryCount then
      some (history, l.finish (.error (retriesExhaustedError l elapsedMs)))
    else some (history, { l with phase := .readLatest, retryCount := l.retryCount + 1 })
  | .readLatest, .fail e => some (history, l.finish (.error e))
  | .check _, .fail e => some (history, l.finish (.error e))
  | .resolve _, .fail e => some (history, l.finish (.error e))
  | _, _ => none

/-! ## runs -/

section
variable {ι : Type} [DecidableEq ι]

structure System (ι : Type) where
  history : List Snapshot
  committer : ι → Local

def System.init (cs : ι → Committer) (history : List Snapshot) : System ι where
  history := history
  committer := fun i => Local.init (cs i)

def System.step (cs : ι → Committer) (s : System ι) (i : ι) (a : Action) : Option (System ι) :=
  match stepCommitter (cs i) s.history (s.committer i) a with
  | none => none
  | some (history, l) => some ⟨history, Function.update s.committer i l⟩

def System.run (cs : ι → Committer) : System ι → List (ι × Action) → Option (System ι)
  | s, [] => some s
  | s, (i, a) :: rest =>
    match s.step cs i a with
    | none => none
    | some s' => s'.run cs rest

theorem System.step_eq {cs : ι → Committer} {s s' : System ι} {i : ι} {a : Action}
    (h : s.step cs i a = some s') : ∃ history l,
      stepCommitter (cs i) s.history (s.committer i) a = some (history, l) ∧
      s'.history = history ∧ s'.committer = Function.update s.committer i l := by
  unfold System.step at h
  split at h
  · exact nomatch h
  · rename_i history l hs
    cases h
    exact ⟨history, l, hs, rfl, rfl⟩

/-- **What every step keeps, every run keeps.** -/
theorem System.run_induction {cs : ι → Committer} {P : System ι → Prop} {s s' : System ι}
    {evs : List (ι × Action)} (h0 : P s)
    (hstep : ∀ s i a s', P s → s.step cs i a = some s' → P s')
    (h : s.run cs evs = some s') : P s' := by
  induction evs generalizing s with
  | nil =>
    injection h with h
    rwa [← h]
  | cons ev evs ih =>
    obtain ⟨i, a⟩ := ev
    unfold System.run at h
    split at h
    · exact nomatch h
    · rename_i s1 hs
      exact ih (hstep s i a s1 h0 hs) h

end

end Paimon
