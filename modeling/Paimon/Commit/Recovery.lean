import Paimon.Commit.Messages
import Paimon.Commit.ExactlyOnce

/-!
# Recovery of checkpoints

`TableCommit::filter_and_commit`: the groups of a recovery batch are sorted by commit identifier, those the
user has already committed are left out, and the others are committed one after the other.

* `stepRecovery`: one step of a call; inside a group it is a step of `try_commit`;
* `World`, `Step`: the call among other users, who publish at any time; old snapshots of others expire
  between two groups and between two calls;
* `Below`: an identifier above all that the user has committed;
* `isCommitted_iff`: the filter finds the newest snapshot of the user behind those of others;
* `Inv`: what holds in every stage, kept by every step (`Inv.step`);
* `Progress`: what a call leaves behind, however it ends; progress of two calls is progress of one
  (`Progress.trans`).

A call that ends with Ok has published every group that has entries and was not committed before.  A group without
entries leaves no snapshot, so a second call counts it again: `empty_group_counted_again`.
-/

namespace Paimon.Checkpoint

open List

/-! ## a call -/

structure Group where
  identifier : Int
  messages : List CommitMessage

/-- the committer of a call; `guard` is `ensure_read_authorized` and `ensure_table_write_allowed` -/
structure Recovery where
  commit : TableCommit
  guard : Result Unit := .ok ()
  isFormatTable : Bool := false
  hasCallbacks : Bool := false

namespace Recovery

variable (r : Recovery)

def entries (g : Group) : List ManifestEntry := r.commit.messagesToEntries g.messages

/-- `commit_with_identifier_impl` up to `try_commit`; `none` where there is nothing to commit -/
def planOf (g : Group) : Result (Option Committer) :=
  if r.isFormatTable then .error (.unsupported "Format Table commits have no checkpoint identifiers")
  else do
    r.guard
    rejectCompactIncrement g.messages
    validateFixedBucketCommitMode g.messages false
    validateBucketOwnership g.messages
    if g.messages = [] ∧ r.commit.ignoreEmptyCommit = true then return none
    else
      let check ← checkFromSnapshot g.messages
      return some {
        commit := r.commit
        plan := .direct (r.commit.messagesToEntries g.messages)
          (r.commit.messagesToChangelogEntries g.messages) (messagesToIndexEntries g.messages) check
        commitIdentifier := g.identifier
        filterCommitted := true
        hasCallbacks := r.hasCallbacks }

end Recovery

/-- the first identifier of two neighbours, in a sorted list -/
def repeatedIdentifier : List Group → Option Int
  | a :: b :: groups =>
    if a.identifier = b.identifier then some a.identifier else repeatedIdentifier (b :: groups)
  | _ => none

def sortGroups (groups : List Group) : List Group :=
  groups.insertionSort fun a b => a.identifier ≤ b.identifier

inductive Stage where
  | start
  | filtering (latest : Option Snapshot) (todo pending : List Group)
  | checking (todo pending : List Group)
  | committing (rest : List Group) (count : Nat)
  | group (g : Group) (c : Committer) (l : Local) (rest : List Group) (count : Nat)
  | done (result : Result Nat)

inductive RecoveryAction where
  | start
  /-- which snapshots cannot be read -/
  | filter (unreadable : List Int)
  /-- a file of the group that does not exist, or an error of the check -/
  | checkFiles (failure : Option Error)
  | next
  | commit (a : Action)
  /-- reading the latest snapshot fails -/
  | fail (error : Error)

def stepRecovery (r : Recovery) (groups : List Group) (history : List Snapshot) (stage : Stage)
    (a : RecoveryAction) : Option (List Snapshot × Stage) :=
  match stage, a with
  | .start, .start =>
    match r.guard with
    | .error e => some (history, .done (.error e))
    | .ok () =>
      match repeatedIdentifier (sortGroups groups) with
      | some id =>
        some (history, .done (.error (.dataInvalid s!"Duplicate commit identifier {id} in recovery batch")))
      | none => some (history, .filtering history.getLast? (sortGroups groups) [])
  | .start, .fail e => some (history, .done (.error e))
  | .filtering _ [] pending, .filter _ => some (history, .checking pending pending)
  | .filtering latest (g :: todo) pending, .filter unreadable =>
    match isCommittedIdentifier r.commit.commitUser (reader history unreadable)
        (history.head?.map Snapshot.id) latest g.identifier with
    | .error e => some (history, .done (.error e))
    | .ok true => some (history, .filtering latest todo pending)
    | .ok false => some (history, .filtering latest todo (pending ++ [g]))
  | .checking [] pending, .checkFiles _ => some (history, .committing pending pending.length)
  | .checking (g :: todo) pending, .checkFiles failure =>
    match rejectCompactIncrement g.messages, failure with
    | .error e, _ => some (history, .done (.error e))
    | .ok (), some e => some (history, .done (.error e))
    | .ok (), none => some (history, .checking todo pending)
  | .committing [] count, .next => some (history, .done (.ok count))
  | .committing (g :: rest) count, .next =>
    match r.planOf g with
    | .error e => some (history, .done (.error e))
    | .ok none => some (history, .committing rest count)
    | .ok (some c) => some (history, .group g c (Local.init c) rest count)
  | .group _ _ l rest count, .next =>
    match l.phase with
    | .done (.ok ()) => some (history, .committing rest count)
    | .done (.error e) => some (history, .done (.error e))
    | _ => none
  | .group g c l rest count, .commit a =>
    match stepCommitter c history l a with
    | none => none
    | some (history, l) => some (history, .group g c l rest count)
  | _, _ => none

/-- neither inside a group nor in the checks before the first one -/
def Stage.between : Stage → Bool
  | .start => true
  | .committing _ _ => true
  | .done _ => true
  | _ => false

structure World where
  history : List Snapshot
  stage : Stage

inductive Step (r : Recovery) (groups : List Group) : World → World → Prop
  | own {h h' : List Snapshot} {st st' : Stage} (a : RecoveryAction)
      (hstep : stepRecovery r groups h st a = some (h', st')) : Step r groups ⟨h, st⟩ ⟨h', st'⟩
  | other {h : List Snapshot} {st : Stage} {t : Snapshot} (hfollows : Follows h.getLast? t)
      (huser : t.commitUser ≠ r.commit.commitUser) : Step r groups ⟨h, st⟩ ⟨h ++ [t], st⟩
  | expire {old h : List Snapshot} {st : Stage} (hstage : st.between = true) (hne : h ≠ [])
      (huser : ∀ s ∈ old, s.commitUser ≠ r.commit.commitUser) : Step r groups ⟨old ++ h, st⟩ ⟨h, st⟩

abbrev Reaches (r : Recovery) (groups : List Group) : World → World → Prop :=
  Relation.ReflTransGen (Step r groups)

/-! ## the snapshots of the user -/

def mine (user : String) (h : List Snapshot) : List Snapshot := h.filter fun s => s.commitUser = user

/-- the user has committed nothing with this identifier or a greater one -/
def Below (user : String) (h : List Snapshot) (n : Int) : Prop :=
  ∀ s ∈ mine user h, s.commitIdentifier < n

def Increasing (user : String) (h : List Snapshot) : Prop :=
  (mine user h).Pairwise fun s t => s.commitIdentifier < t.commitIdentifier

variable {user : String} {h : List Snapshot}

theorem mem_mine {s : Snapshot} : s ∈ mine user h ↔ s ∈ h ∧ s.commitUser = user := by
  rw [mine, mem_filter, decide_eq_true_eq]

theorem mine_append (a b : List Snapshot) : mine user (a ++ b) = mine user a ++ mine user b :=
  filter_append a b

theorem mine_other {a : List Snapshot} (ha : ∀ s ∈ a, s.commitUser ≠ user) : mine user a = [] := by
  refine filter_eq_nil_iff.mpr fun s hs => ?_
  simpa using ha s hs

variable {t : Snapshot}

theorem mine_published (ht : t.commitUser ≠ user) : mine user (h ++ [t]) = mine user h := by
  have hnone : mine user [t] = [] := mine_other (by simpa using ht)
  rw [mine_append, hnone, append_nil]

theorem mine_expired {old : List Snapshot} (hold : ∀ s ∈ old, s.commitUser ≠ user) :
    mine user (old ++ h) = mine user h := by
  rw [mine_append, mine_other hold, nil_append]

theorem Increasing.identifier_le (hinc : Increasing user h) (hlinked : Linked h) {s t : Snapshot}
    (hs : s ∈ mine user h) (ht : t ∈ mine user h) (hle : s.id ≤ t.id) :
    s.commitIdentifier ≤ t.commitIdentifier := by
  have hids : (mine user h).Pairwise fun s t => s.id < t.id := hlinked.pairwise.filter _
  obtain ⟨i, hi, rfl⟩ := getElem_of_mem hs
  obtain ⟨j, hj, rfl⟩ := getElem_of_mem ht
  rcases lt_trichotomy i j with hij | rfl | hji
  · exact (pairwise_iff_getElem.mp hinc i j hi hj hij).le
  · exact le_refl _
  · exact absurd (pairwise_iff_getElem.mp hids j i hj hi hji) (not_lt.mpr hle)

theorem head_id_le (hlinked : Linked h) (ht : t ∈ h) : ∃ first, h.head? = some first ∧ first.id ≤ t.id := by
  cases h with
  | nil => exact absurd ht not_mem_nil
  | cons first h =>
    refine ⟨first, rfl, ?_⟩
    rcases mem_cons.mp ht with rfl | ht
    · exact le_refl _
    · exact ((pairwise_cons.mp hlinked.pairwise).1 t ht).le

/-! ## the filter -/

variable {u : List Int}

theorem findSnapshot_greatest {latest x : Snapshot} {p : Snapshot → Bool} {ids : List Int}
    (hlinked : Linked h) (hlatest : latest ∈ h) (hids : ids.Pairwise (· > ·))
    (hf : findSnapshot (reader h u) latest p ids = .ok (some x)) :
    ∀ t ∈ h, t.id ∈ ids → p t = true → t.id ≤ x.id := by
  induction ids with
  | nil => exact fun t _ hid => absurd hid not_mem_nil
  | cons id ids ih =>
    rw [findSnapshot_cons] at hf
    obtain ⟨y, hy, hf⟩ := bind_ok hf
    have hyid : y ∈ h ∧ y.id = id := by
      split at hy
      · next he =>
        cases hy
        exact ⟨hlatest, he.symm⟩
      · exact reader_ok hy
    obtain ⟨habove, hrest⟩ := pairwise_cons.mp hids
    intro t ht hid hpt
    split at hf
    · next hpy =>
      cases hf
      rw [hyid.2]
      rcases mem_cons.mp hid with h | h
      · exact h.le
      · exact (habove _ h).le
    · next hpy =>
      rcases mem_cons.mp hid with h | h
      · -- the snapshot of this id was read and does not satisfy `p`
        rw [hlinked.id_inj ht hyid.1 (h.trans hyid.2.symm)] at hpt
        exact absurd hpt hpy
      · exact ih hrest hf t ht h hpt

theorem idsDownFrom_pairwise (b a : Int) : (idsDownFrom b a).Pairwise (· > ·) := by
  unfold idsDownFrom idsAfter
  rw [pairwise_reverse, pairwise_map]
  exact pairwise_lt_range.imp fun h => by omega

/-- **The filter is exact** as long as the user has published nothing since the latest snapshot was read. -/
theorem isCommitted_iff {p : List Snapshot} {n : Int} {b : Bool} (hlinked : Linked h)
    (hinc : Increasing user h) (hp : p <+: h) (hmine : mine user p = mine user h)
    (hb : isCommittedIdentifier user (reader h u) (h.head?.map Snapshot.id) p.getLast? n = .ok b) :
    b = true ↔ ¬ Below user h n := by
  have hlatest : ∀ s, p.getLast? = some s → s ∈ h := fun s hs => hp.subset (mem_of_getLast? hs)
  constructor
  · rintro rfl
    obtain ⟨s, hs, huser, hle⟩ := isCommittedIdentifier_true hlatest hb
    intro hbelow
    exact absurd (hbelow s (mem_mine.mpr ⟨hs, huser⟩)) (not_lt.mpr hle)
  · intro hnot
    by_contra hfalse
    refine hnot fun t ht => ?_
    have htp : t ∈ p := (mem_mine.mp (hmine ▸ ht : t ∈ mine user p)).1
    unfold isCommittedIdentifier at hb
    cases hlast : p.getLast? with
    | none =>
      rw [getLast?_eq_none_iff.mp hlast] at htp
      exact absurd htp not_mem_nil
    | some s =>
      have hts : t.id ≤ s.id := (hlinked.mono hp).id_le_last htp hlast
      have hsh := hlatest s hlast
      rw [hlast] at hb
      simp only at hb
      split at hb
      · next huser =>
        have hle := hinc.identifier_le hlinked ht (mem_mine.mpr ⟨hsh, huser⟩) hts
        injection hb with hb
        rw [← hb] at hfalse
        simp only [decide_eq_true_eq] at hfalse
        omega
      · obtain ⟨found, hfound, hb⟩ := bind_ok hb
        injection hb with hb
        obtain ⟨first, hfirst, hfirstle⟩ := head_id_le hlinked (mem_mine.mp ht).1
        have htids : t.id ∈ idsDownFrom s.id ((h.head?.map Snapshot.id).getD s.id) := by
          rw [mem_idsDownFrom, hfirst]
          exact ⟨hfirstle, hts⟩
        have htuser : (t.commitUser == user) = true := by simpa using (mem_mine.mp ht).2
        cases found with
        | none =>
          have := findSnapshot_none hlinked hsh hfound t (mem_mine.mp ht).1 htids
          rw [htuser] at this
          exact absurd this Bool.noConfusion
        | some x =>
          have hx := findSnapshot_some hsh hfound
          have hxmine : x ∈ mine user h := mem_mine.mpr ⟨hx.1, by simpa using hx.2.1⟩
          have hidle := findSnapshot_greatest hlinked hsh (idsDownFrom_pairwise _ _) hfound t
            (mem_mine.mp ht).1 htids htuser
          have hle := hinc.identifier_le hlinked ht hxmine hidle
          simp only at hb
          rw [← hb] at hfalse
          simp only [decide_eq_true_eq] at hfalse
          omega

/-! ## one group -/

structure CommitterOf (r : Recovery) (g : Group) (c : Committer) : Prop where
  commit : c.commit = r.commit
  direct : c.plan.isDirect = true
  entries : c.plan.callerEntries = r.entries g
  identifier : c.commitIdentifier = g.identifier

theorem planOf_spec {r : Recovery} {g : Group} {plan : Option Committer} (hplan : r.planOf g = .ok plan) :
    match plan with
    | none => r.entries g = []
    | some c => CommitterOf r g c := by
  unfold Recovery.planOf at hplan
  split at hplan
  · cases hplan
  · obtain ⟨_, -, hplan⟩ := bind_ok hplan
    obtain ⟨_, -, hplan⟩ := bind_ok hplan
    obtain ⟨_, -, hplan⟩ := bind_ok hplan
    obtain ⟨_, -, hplan⟩ := bind_ok hplan
    split at hplan
    · next hempty =>
      cases hplan
      unfold Recovery.entries TableCommit.messagesToEntries
      rw [hempty.1]
      rfl
    · obtain ⟨check, -, hplan⟩ := bind_ok hplan
      cases hplan
      exact ⟨rfl, rfl, rfl, rfl⟩

def Records (r : Recovery) (g : Group) (t : Snapshot) : Prop :=
  t.commitIdentifier = g.identifier ∧ (t.deltaEntries.map untracked).Perm ((r.entries g).map untracked)

/-- inside `try_commit` of a group that was begun over `h0` -/
structure InGroup (r : Recovery) (g : Group) (c : Committer) (h0 h : List Snapshot) (l : Local) : Prop where
  committer : CommitterOf r g c
  shared : Shared h0 h
  phase : PhaseOk c h0 h l.phase
  once : Once h0 c h l
  records : ∀ t ∈ publishedBy h0 c h, t.commitKind = c.plan.commitKindHint ∧ Records r g t
  grown : mine r.commit.commitUser h = mine r.commit.commitUser h0 ++ publishedBy h0 c h

variable {r : Recovery} {groups : List Group} {g : Group} {c : Committer} {h0 : List Snapshot} {l : Local}

theorem once_init (c : Committer) (h0 : List Snapshot) : Once h0 c h0 (Local.init c) := by
  have hnone : publishedBy h0 c h0 = [] := by rw [publishedBy, published, drop_length]; rfl
  exact ⟨fun _ => rfl, by rw [hnone]; exact Nat.zero_le 1, fun _ _ => hnone, (fun _ hd => by cases hd),
    (fun _ ha => by cases ha), fun hf => ⟨hf, rfl⟩, (fun hc => by cases hc), (fun _ _ _ hp => by cases hp),
    (fun hp => by cases hp)⟩

theorem InGroup.init (hc : CommitterOf r g c) (hlinked : Linked h0) : InGroup r g c h0 h0 (Local.init c) := by
  have hnone : publishedBy h0 c h0 = [] := by rw [publishedBy, published, drop_length]; rfl
  refine ⟨hc, shared_refl hlinked, trivial, once_init c h0, ?_, ?_⟩
  · rw [hnone]
    exact forall_mem_nil _
  · rw [hnone, append_nil]

theorem CommitterOf.owned (hc : CommitterOf r g c) (ht : ownedBy c t = true) :
    t.commitUser = r.commit.commitUser ∧ t.commitIdentifier = g.identifier := by
  simp only [ownedBy, Bool.and_eq_true, decide_eq_true_eq] at ht
  rw [hc.commit, hc.identifier] at ht
  exact ht

theorem InGroup.step {h' : List Snapshot} {l' : Local} {a : Action} (hin : InGroup r g c h0 h l)
    (hstep : stepCommitter c h l a = some (h', l')) : InGroup r g c h0 h' l' := by
  have hm := moves_of_step hstep
  have hshared' := hm.shared hin.shared hin.phase
  refine ⟨hin.committer, hshared', hm.phaseOk hin.shared hin.phase,
    hin.once.moves hin.committer.direct hin.shared hshared' hin.phase (fun t ht => (hin.records t ht).1) hm, ?_,
    ?_⟩
  · rcases hm.history with rfl | ⟨latest, t, resolved, hp, -, rfl⟩
    · exact hin.records
    · -- the new snapshot carries what the plan of the group resolved to
      intro x hx
      have hphase := hin.phase
      rw [hp] at hphase
      rw [publishedBy_concat hin.shared.extend, hphase.2.owned, if_pos rfl, mem_append, mem_singleton] at hx
      rcases hx with hx | rfl
      · exact hin.records x hx
      · obtain ⟨hentries, hkind⟩ := hin.once.resolved latest x resolved hp
        obtain ⟨next, hdelta⟩ := hphase.2.delta
        rw [hentries, hin.committer.entries] at hdelta
        exact ⟨by rw [hphase.2.kind, hkind], by rw [hphase.2.identifier, hin.committer.identifier],
          prepareEntries_perm hdelta⟩
  · rcases hm.history with rfl | ⟨latest, t, resolved, hp, -, rfl⟩
    · exact hin.grown
    · have hphase := hin.phase
      rw [hp] at hphase
      have hself : mine r.commit.commitUser [t] = [t] := by
        refine filter_eq_self.mpr fun s hs => ?_
        rw [mem_singleton.mp hs]
        simpa using (hin.committer.owned hphase.2.owned).1
      rw [publishedBy_concat hin.shared.extend, hphase.2.owned, if_pos rfl, mine_append, hin.grown, hself,
        append_assoc]

theorem InGroup.other (hin : InGroup r g c h0 h l) (hfollows : Follows h.getLast? t)
    (huser : t.commitUser ≠ r.commit.commitUser) : InGroup r g c h0 (h ++ [t]) l := by
  have hshared' := hin.shared.concat hfollows
  have hforeign : ownedBy c t = false := by
    rw [Bool.eq_false_iff]
    exact fun hown => huser (hin.committer.owned hown).1
  have hpublished : publishedBy h0 c (h ++ [t]) = publishedBy h0 c h := by
    rw [publishedBy_concat hin.shared.extend, hforeign, if_neg Bool.false_ne_true, append_nil]
  refine ⟨hin.committer, hshared', hin.phase.grow (prefix_append h [t]),
    hin.once.other hin.shared hshared' hforeign, ?_, ?_⟩
  · rw [hpublished]
    exact hin.records
  · rw [hpublished, mine_published huser, hin.grown]

/-! ## what a call leaves behind -/

def newOf (user : String) (hs h : List Snapshot) : List Snapshot := (mine user h).drop (mine user hs).length

/-- what a call over `hs` has published, in the order of the identifiers -/
structure Progress (r : Recovery) (groups : List Group) (hs h : List Snapshot) : Prop where
  linked : Linked h
  increasing : Increasing r.commit.commitUser h
  kept : mine r.commit.commitUser hs <+: mine r.commit.commitUser h
  fromGroups : ∀ t ∈ newOf r.commit.commitUser hs h, ∃ g ∈ groups, Records r g t
  inOrder : ∀ g ∈ groups, r.entries g ≠ [] → ¬ Below r.commit.commitUser h g.identifier →
    ¬ Below r.commit.commitUser hs g.identifier ∨ ∃ t ∈ newOf r.commit.commitUser hs h, Records r g t

/-- the groups that are still to be committed -/
structure Waiting (r : Recovery) (groups : List Group) (hs h : List Snapshot) (rest : List Group) : Prop where
  ahead : ∀ g ∈ rest, g ∈ groups ∧ Below r.commit.commitUser h g.identifier
  sorted : rest.Pairwise fun a b => a.identifier < b.identifier
  settled : ∀ g ∈ groups, g ∈ rest ∨ r.entries g = [] ∨ ¬ Below r.commit.commitUser hs g.identifier ∨
    ∃ t ∈ newOf r.commit.commitUser hs h, Records r g t

section
variable {hs h' : List Snapshot} {rest : List Group}

theorem below_congr (hmine : mine user h' = mine user h) (n : Int) : Below user h' n ↔ Below user h n := by
  unfold Below
  rw [hmine]

theorem Progress.congr (hp : Progress r groups hs h) (hlinked : Linked h')
    (hmine : mine r.commit.commitUser h' = mine r.commit.commitUser h) : Progress r groups hs h' := by
  have hnew : newOf r.commit.commitUser hs h' = newOf r.commit.commitUser hs h := by rw [newOf, hmine, newOf]
  refine ⟨hlinked, ?_, hmine ▸ hp.kept, hnew ▸ hp.fromGroups, fun g hg hne hbelow => ?_⟩
  · unfold Increasing
    rw [hmine]
    exact hp.increasing
  · rw [hnew]
    exact hp.inOrder g hg hne (mt (below_congr hmine _).mpr hbelow)

theorem Waiting.congr (hw : Waiting r groups hs h rest)
    (hmine : mine r.commit.commitUser h' = mine r.commit.commitUser h) : Waiting r groups hs h' rest := by
  have hnew : newOf r.commit.commitUser hs h' = newOf r.commit.commitUser hs h := by rw [newOf, hmine, newOf]
  refine ⟨fun g hg => ⟨(hw.ahead g hg).1, (below_congr hmine _).mpr (hw.ahead g hg).2⟩, hw.sorted, ?_⟩
  rw [hnew]
  exact hw.settled

/-- **Progress of two calls is progress of one.** -/
theorem Progress.trans {h₁ : List Snapshot} (hp : Progress r groups hs h₁) (hq : Progress r groups h₁ h) :
    Progress r groups hs h := by
  obtain ⟨a, ha⟩ := hp.kept
  obtain ⟨b, hb⟩ := hq.kept
  have hnew₁ : newOf r.commit.commitUser hs h₁ = a := by rw [newOf, ← ha, drop_left]
  have hnew₂ : newOf r.commit.commitUser h₁ h = b := by rw [newOf, ← hb, drop_left]
  have hnew : newOf r.commit.commitUser hs h = a ++ b := by
    rw [newOf, ← hb, ← ha, append_assoc, drop_left]
  refine ⟨hq.linked, hq.increasing, hp.kept.trans hq.kept, ?_, fun g hg hne hbelow => ?_⟩
  · rw [hnew]
    exact forall_mem_append.mpr ⟨hnew₁ ▸ hp.fromGroups, hnew₂ ▸ hq.fromGroups⟩
  · rw [hnew]
    rcases hq.inOrder g hg hne hbelow with hb' | ⟨t, ht, hrec⟩
    · rcases hp.inOrder g hg hne hb' with hb'' | ⟨t, ht, hrec⟩
      · exact .inl hb''
      · exact .inr ⟨t, mem_append_left _ (hnew₁ ▸ ht), hrec⟩
    · exact .inr ⟨t, mem_append_right _ (hnew₂ ▸ ht), hrec⟩

/-! ## progress inside a group -/

section
variable (hp : Progress r groups hs h0) (hw : Waiting r groups hs h0 (g :: rest))
  (hin : InGroup r g c h0 h l)
include hp hw hin

omit hw in
theorem InGroup.newOf_eq : newOf r.commit.commitUser hs h =
    newOf r.commit.commitUser hs h0 ++ publishedBy h0 c h := by
  rw [newOf, hin.grown, drop_append_of_le_length hp.kept.length_le, newOf]

theorem InGroup.progress : Progress r groups hs h := by
  have hnew := hin.newOf_eq hp
  have hg := hw.ahead g mem_cons_self
  refine ⟨hin.shared.linked, ?_, ?_, ?_, ?_⟩
  · unfold Increasing
    rw [hin.grown, pairwise_append]
    refine ⟨hp.increasing, ?_, fun s hs t ht => ?_⟩
    · rcases hpub : publishedBy h0 c h with _ | ⟨t, _ | ⟨t', ts⟩⟩
      · exact List.Pairwise.nil
      · exact pairwise_singleton _ t
      · have hle := hin.once.atMost
        rw [hpub] at hle
        simp at hle
    · rw [(hin.records t ht).2.1]
      exact hg.2 s hs
  · rw [hin.grown]
    exact hp.kept.trans (prefix_append _ _)
  · rw [hnew]
    refine forall_mem_append.mpr ⟨hp.fromGroups, fun t ht => ⟨g, hg.1, (hin.records t ht).2⟩⟩
  · intro x hx hne hbelow
    rw [hnew]
    by_cases hold : Below r.commit.commitUser h0 x.identifier
    · -- something of this group came first
      obtain ⟨t, ht⟩ : ∃ t ∈ publishedBy h0 c h, x.identifier ≤ t.commitIdentifier := by
        by_contra hcon
        refine hbelow fun s hs => ?_
        rw [hin.grown, mem_append] at hs
        rcases hs with hs | hs
        · exact hold s hs
        · exact not_le.mp fun hle => hcon ⟨s, hs, hle⟩
      have hrec := (hin.records t ht.1).2
      rw [hrec.1] at ht
      rcases hw.settled x hx with hrest | hempty | hbefore | ⟨s, hs, hrec'⟩
      · rcases mem_cons.mp hrest with rfl | hrest
        · exact .inr ⟨t, mem_append_right _ ht.1, hrec⟩
        · have := (pairwise_cons.mp hw.sorted).1 x hrest
          omega
      · exact absurd hempty hne
      · exact .inl hbefore
      · exact .inr ⟨s, mem_append_left _ hs, hrec'⟩
    · rcases hp.inOrder x hx hne hold with hbefore | ⟨s, hs, hrec⟩
      · exact .inl hbefore
      · exact .inr ⟨s, mem_append_left _ hs, hrec⟩

theorem InGroup.finished (hdone : l.phase = .done (.ok ())) : Waiting r groups hs h rest := by
  have hnew := hin.newOf_eq hp
  obtain ⟨habove, hsorted⟩ := pairwise_cons.mp hw.sorted
  refine ⟨fun x hx => ⟨(hw.ahead x (mem_cons_of_mem g hx)).1, fun s hs => ?_⟩, hsorted, fun x hx => ?_⟩
  · rw [hin.grown, mem_append] at hs
    rcases hs with hs | hs
    · exact (hw.ahead x (mem_cons_of_mem g hx)).2 s hs
    · rw [(hin.records s hs).2.1]
      exact habove x hx
  · rw [hnew]
    rcases hw.settled x hx with hrest | hempty | hbefore | ⟨s, hs, hrec⟩
    · rcases mem_cons.mp hrest with rfl | hrest
      · -- the group itself
        by_cases hne : r.entries x = []
        · exact .inr (.inl hne)
        · right; right; right
          rw [← hin.committer.entries] at hne
          rcases hin.once.ok hdone hne with hone | ⟨-, hnone, s, hs, huser, hle⟩
          · obtain ⟨t, ht⟩ := exists_mem_of_length_pos (by omega : 0 < (publishedBy h0 c h).length)
            exact ⟨t, mem_append_right _ ht, (hin.records t ht).2⟩
          · -- the filter did not apply: the identifier is above all of the user's
            rw [hin.committer.commit] at huser
            have hmem : s ∈ mine r.commit.commitUser h := mem_mine.mpr ⟨hs, huser⟩
            rw [hin.grown, hnone, append_nil] at hmem
            have hlt := (hw.ahead x mem_cons_self).2 s hmem
            rw [hin.committer.identifier] at hle
            omega
      · exact .inl hrest
    · exact .inr (.inl hempty)
    · exact .inr (.inr (.inl hbefore))
    · exact .inr (.inr (.inr ⟨s, mem_append_left _ hs, hrec⟩))

end

end

/-! ## the invariant of a call -/

/-- nothing of the user was published since `hs` -/
structure Quiet (r : Recovery) (hs h : List Snapshot) : Prop where
  linked : Linked h
  increasing : Increasing r.commit.commitUser h
  same : mine r.commit.commitUser h = mine r.commit.commitUser hs

/-- the groups that passed the filter, then those that it has not seen -/
structure Filtering (r : Recovery) (groups : List Group) (hs : List Snapshot) (todo pending : List Group) :
    Prop where
  sorted : (pending ++ todo).Pairwise fun a b => a.identifier < b.identifier
  members : ∀ g ∈ pending ++ todo, g ∈ groups
  passed : ∀ g ∈ pending, Below r.commit.commitUser hs g.identifier
  complete : ∀ g ∈ groups, g ∈ pending ++ todo ∨ ¬ Below r.commit.commitUser hs g.identifier

/-- a count that is not 0 counts a group that was not committed before -/
def Counts (r : Recovery) (groups : List Group) (hs : List Snapshot) (count : Nat) : Prop :=
  count ≠ 0 → ∃ g ∈ groups, Below r.commit.commitUser hs g.identifier

/-- what holds in each stage of a call that began over `hs` -/
def Inv (r : Recovery) (groups : List Group) (hs : List Snapshot) (w : World) : Prop :=
  match w.stage with
  | .start => Quiet r hs w.history
  | .filtering latest todo pending => Quiet r hs w.history ∧ Filtering r groups hs todo pending ∧
      ∃ p, p <+: w.history ∧ p.getLast? = latest ∧
        mine r.commit.commitUser p = mine r.commit.commitUser w.history
  | .checking _ pending => Quiet r hs w.history ∧ Waiting r groups hs w.history pending
  | .committing rest count => Progress r groups hs w.history ∧ Waiting r groups hs w.history rest ∧
      Counts r groups hs count
  | .group g c l rest count => ∃ h0, Progress r groups hs h0 ∧ Waiting r groups hs h0 (g :: rest) ∧
      Counts r groups hs count ∧ InGroup r g c h0 w.history l
  | .done (.ok count) => Progress r groups hs w.history ∧ Waiting r groups hs w.history [] ∧
      Counts r groups hs count
  | .done (.error _) => Progress r groups hs w.history

variable {w w' : World} {st : Stage}

section
variable {hs h' : List Snapshot} {rest todo pending : List Group}

theorem Quiet.congr (hq : Quiet r hs h) (hlinked : Linked h')
    (hmine : mine r.commit.commitUser h' = mine r.commit.commitUser h) : Quiet r hs h' := by
  refine ⟨hlinked, ?_, hmine.trans hq.same⟩
  unfold Increasing
  rw [hmine]
  exact hq.increasing

theorem Quiet.newOf_eq (hq : Quiet r hs h) : newOf r.commit.commitUser hs h = [] := by
  rw [newOf, hq.same, drop_length]

theorem Quiet.progress (hq : Quiet r hs h) : Progress r groups hs h := by
  refine ⟨hq.linked, hq.increasing, hq.same ▸ prefix_refl _, ?_, fun g _ _ hbelow => ?_⟩
  · rw [hq.newOf_eq]
    exact forall_mem_nil _
  · exact .inl (mt (below_congr hq.same _).mpr hbelow)

theorem strict_of_not_repeated {l : List Group} (hsorted : l.Pairwise fun a b => a.identifier ≤ b.identifier)
    (hrepeated : repeatedIdentifier l = none) : l.Pairwise fun a b => a.identifier < b.identifier := by
  induction l with
  | nil => exact List.Pairwise.nil
  | cons a l ih =>
    cases l with
    | nil => exact pairwise_singleton _ a
    | cons b l =>
      obtain ⟨hle, hsorted⟩ := pairwise_cons.mp hsorted
      rw [repeatedIdentifier] at hrepeated
      split at hrepeated
      · cases hrepeated
      · next hne =>
        have htail := ih hsorted hrepeated
        have hab : a.identifier < b.identifier := lt_of_le_of_ne (hle b mem_cons_self) hne
        refine pairwise_cons.mpr ⟨fun x hx => ?_, htail⟩
        rcases mem_cons.mp hx with rfl | hx
        · exact hab
        · exact hab.trans ((pairwise_cons.mp htail).1 x hx)

theorem filtering_start (hrepeated : repeatedIdentifier (sortGroups groups) = none) :
    Filtering r groups hs (sortGroups groups) [] := by
  have hperm : (sortGroups groups).Perm groups := perm_insertionSort _ groups
  have hsorted : (sortGroups groups).Pairwise fun a b => a.identifier ≤ b.identifier :=
    pairwise_insertionSort _ groups
  refine ⟨?_, fun g hg => hperm.mem_iff.mp hg, forall_mem_nil _, fun g hg => .inl (hperm.mem_iff.mpr hg)⟩
  rw [nil_append]
  exact strict_of_not_repeated hsorted hrepeated

theorem Filtering.waiting (hf : Filtering r groups hs [] pending) (hq : Quiet r hs h) :
    Waiting r groups hs h pending := by
  have hsorted := hf.sorted
  have hcomplete := hf.complete
  have hmembers := hf.members
  rw [append_nil] at hsorted hcomplete hmembers
  refine ⟨fun g hg => ⟨hmembers g hg, (below_congr hq.same _).mpr (hf.passed g hg)⟩, hsorted, fun g hg => ?_⟩
  rcases hcomplete g hg with h | h
  · exact .inl h
  · exact .inr (.inr (.inl h))

theorem Filtering.skip (hf : Filtering r groups hs (g :: todo) pending)
    (hbelow : ¬ Below r.commit.commitUser hs g.identifier) : Filtering r groups hs todo pending := by
  have hsub : (pending ++ todo).Sublist (pending ++ g :: todo) :=
    (List.Sublist.refl pending).append (sublist_cons_self g todo)
  refine ⟨hf.sorted.sublist hsub, fun x hx => hf.members x (hsub.subset hx), hf.passed, fun x hx => ?_⟩
  rcases hf.complete x hx with h | h
  · rw [mem_append, mem_cons] at h
    rcases h with h | rfl | h
    · exact .inl (mem_append_left _ h)
    · exact .inr hbelow
    · exact .inl (mem_append_right _ h)
  · exact .inr h

theorem Filtering.pass (hf : Filtering r groups hs (g :: todo) pending)
    (hbelow : Below r.commit.commitUser hs g.identifier) :
    Filtering r groups hs todo (pending ++ [g]) := by
  have heq : pending ++ [g] ++ todo = pending ++ g :: todo := by rw [append_assoc, singleton_append]
  refine ⟨heq ▸ hf.sorted, heq ▸ hf.members, ?_, heq ▸ hf.complete⟩
  exact forall_mem_append.mpr ⟨hf.passed, fun x hx => mem_singleton.mp hx ▸ hbelow⟩

theorem Inv.own {h h' : List Snapshot} {st st' : Stage} {a : RecoveryAction} (hi : Inv r groups hs ⟨h, st⟩)
    (hstep : stepRecovery r groups h st a = some (h', st')) : Inv r groups hs ⟨h', st'⟩ := by
  unfold stepRecovery at hstep
  split at hstep
  · -- the beginning
    have hq : Quiet r hs h := hi
    split at hstep
    · cases hstep
      exact hq.progress
    · split at hstep
      · cases hstep
        exact hq.progress
      · next hrepeated =>
        cases hstep
        exact ⟨hq, filtering_start hrepeated, h, prefix_refl h, rfl, rfl⟩
  · cases hstep
    exact Quiet.progress hi
  · cases hstep
    obtain ⟨hq, hf, -⟩ := hi
    exact ⟨hq, hf.waiting hq⟩
  · next latest g todo pending unreadable =>
    obtain ⟨hq, hf, p, hp, rfl, hmine⟩ := hi
    split at hstep
    · cases hstep
      exact hq.progress
    · next hb =>
      cases hstep
      have hbelow := (isCommitted_iff hq.linked hq.increasing hp hmine hb).mp rfl
      exact ⟨hq, hf.skip (mt (below_congr hq.same _).mpr hbelow), p, hp, rfl, hmine⟩
    · next hb =>
      cases hstep
      have hbelow : Below r.commit.commitUser h g.identifier := by
        by_contra hcon
        exact absurd ((isCommitted_iff hq.linked hq.increasing hp hmine hb).mpr hcon) Bool.false_ne_true
      exact ⟨hq, hf.pass ((below_congr hq.same _).mp hbelow), p, hp, rfl, hmine⟩
  · next pending _ =>
    cases hstep
    obtain ⟨hq, hw⟩ := hi
    refine ⟨hq.progress, hw, fun hne => ?_⟩
    obtain ⟨g, hg⟩ := exists_mem_of_length_pos (Nat.pos_of_ne_zero hne)
    exact ⟨g, (hw.ahead g hg).1, (below_congr hq.same _).mp (hw.ahead g hg).2⟩
  · split at hstep
    · cases hstep
      exact Quiet.progress hi.1
    · cases hstep
      exact Quiet.progress hi.1
    · cases hstep
      exact hi
  · cases hstep
    exact hi
  · next g rest count =>
    obtain ⟨hp, hw, hc⟩ := hi
    split at hstep
    · cases hstep
      exact hp
    · next hplan =>
      cases hstep
      refine ⟨hp, ⟨fun x hx => hw.ahead x (mem_cons_of_mem g hx), (pairwise_cons.mp hw.sorted).2,
        fun x hx => ?_⟩, hc⟩
      rcases hw.settled x hx with hrest | hsettled
      · rcases mem_cons.mp hrest with rfl | hrest
        · exact .inr (.inl (planOf_spec hplan))
        · exact .inl hrest
      · exact .inr hsettled
    · next c hplan =>
      cases hstep
      exact ⟨h, hp, hw, hc, InGroup.init (planOf_spec hplan) hp.linked⟩
  · next g c l rest count =>
    obtain ⟨h0, hp, hw, hc, hin⟩ := hi
    split at hstep
    · next hdone =>
      cases hstep
      exact ⟨hin.progress hp hw, hin.finished hp hw hdone, hc⟩
    · cases hstep
      exact hin.progress hp hw
    · cases hstep
  · next g c l rest count a =>
    obtain ⟨h0, hp, hw, hc, hin⟩ := hi
    split at hstep
    · cases hstep
    · next hcommit =>
      cases hstep
      exact ⟨h0, hp, hw, hc, hin.step hcommit⟩
  · cases hstep

theorem Inv.env (hi : Inv r groups hs ⟨h, st⟩) (hlinked : Linked h')
    (hmine : mine r.commit.commitUser h' = mine r.commit.commitUser h)
    (hstage : st.between = true ∨ ∃ t, h' = h ++ [t] ∧ Follows h.getLast? t ∧
      t.commitUser ≠ r.commit.commitUser) : Inv r groups hs ⟨h', st⟩ := by
  cases st with
  | start => exact Quiet.congr hi hlinked hmine
  | filtering latest todo pending =>
    obtain ⟨hq, hf, p, hp, hlast, hsame⟩ := hi
    rcases hstage with hstage | ⟨t, rfl, -⟩
    · cases hstage
    · exact ⟨hq.congr hlinked hmine, hf, p, hp.trans (prefix_append h [t]), hlast, hsame.trans hmine.symm⟩
  | checking todo pending => exact ⟨Quiet.congr hi.1 hlinked hmine, Waiting.congr hi.2 hmine⟩
  | committing rest count =>
    obtain ⟨hp, hw, hc⟩ := hi
    exact ⟨hp.congr hlinked hmine, hw.congr hmine, hc⟩
  | group g c l rest count =>
    obtain ⟨h0, hp, hw, hc, hin⟩ := hi
    rcases hstage with hstage | ⟨t, rfl, hfollows, huser⟩
    · cases hstage
    · exact ⟨h0, hp, hw, hc, hin.other hfollows huser⟩
  | done result =>
    cases result with
    | error e => exact Progress.congr hi hlinked hmine
    | ok count =>
      obtain ⟨hp, hw, hc⟩ := hi
      exact ⟨hp.congr hlinked hmine, hw.congr hmine, hc⟩

variable {w : World}

theorem Inv.progress (hi : Inv r groups hs w) : Progress r groups hs w.history := by
  obtain ⟨h, st⟩ := w
  cases st with
  | start => exact Quiet.progress hi
  | filtering | checking => exact hi.1.progress
  | committing rest count => exact hi.1
  | group g c l rest count =>
    obtain ⟨h0, hp, hw, -, hin⟩ := hi
    exact hin.progress hp hw
  | done result =>
    cases result with
    | error e => exact hi
    | ok count => exact hi.1

theorem Inv.step (hi : Inv r groups hs w) (hstep : Step r groups w w') :
    Inv r groups hs w' := by
  cases hstep with
  | own a hstep => exact hi.own hstep
  | other hfollows huser =>
    exact hi.env ((shared_refl hi.progress.linked).concat hfollows).linked (mine_published huser)
      (.inr ⟨_, rfl, hfollows, huser⟩)
  | expire hstage hne huser =>
    exact hi.env (isChain_append.mp hi.progress.linked).2.1 (mine_expired huser).symm (.inl hstage)

/-- **The invariant holds in every world a call reaches.** -/
theorem inv_reaches (hlinked : Linked hs) (hinc : Increasing r.commit.commitUser hs)
    (hr : Reaches r groups ⟨hs, .start⟩ w) : Inv r groups hs w := by
  induction hr with
  | refl => exact ⟨hlinked, hinc, rfl⟩
  | tail _ hstep ih => exact ih.step hstep

/-! ## repeated identifiers -/

theorem repeated_refused (hrepeated : ¬ (groups.map Group.identifier).Nodup)
    (hr : Reaches r groups ⟨hs, .start⟩ w) :
    mine r.commit.commitUser w.history = mine r.commit.commitUser hs ∧
      (w.stage = .start ∨ ∃ e, w.stage = .done (.error e)) := by
  have hsome : repeatedIdentifier (sortGroups groups) ≠ none := by
    intro hnone
    have hstrict := strict_of_not_repeated (pairwise_insertionSort _ groups) hnone
    have hnodup : ((sortGroups groups).map Group.identifier).Nodup :=
      pairwise_map.mpr (hstrict.imp ne_of_lt)
    exact hrepeated (((perm_insertionSort _ groups).map _).nodup_iff.mp hnodup)
  induction hr with
  | refl => exact ⟨rfl, .inl rfl⟩
  | tail _ hstep ih =>
    obtain ⟨hmine, hstage⟩ := ih
    cases hstep with
    | own a hstep =>
      rcases hstage with hstage | ⟨e, hstage⟩
      · simp only at hstage
        subst hstage
        unfold stepRecovery at hstep
        split at hstep
        · split at hstep
          · cases hstep
            exact ⟨hmine, .inr ⟨_, rfl⟩⟩
          · split at hstep
            · cases hstep
              exact ⟨hmine, .inr ⟨_, rfl⟩⟩
            · next hnone => exact absurd hnone hsome
        · cases hstep
          exact ⟨hmine, .inr ⟨_, rfl⟩⟩
        all_goals contradiction
      · simp only at hstage
        subst hstage
        cases hstep
    | other hfollows huser => exact ⟨(mine_published huser).trans hmine, hstage⟩
    | expire _ hne huser => exact ⟨(mine_expired huser).symm.trans hmine, hstage⟩

/-! ## the call as a whole -/

theorem Below.mono {n m : Int} (hb : Below user h n) (hle : n ≤ m) : Below user h m := fun s hs =>
  (hb s hs).trans_le hle

theorem Below.of_prefix {n : Int} (hb : Below user h n) (hkept : mine user hs <+: mine user h) :
    Below user hs n := fun s hs => hb s (hkept.subset hs)

theorem Progress.below_new (hp : Progress r groups hs h)
    (ht : t ∈ newOf r.commit.commitUser hs h) : Below r.commit.commitUser hs t.commitIdentifier := by
  obtain ⟨new, hnew⟩ := hp.kept
  have hinc := hp.increasing
  unfold Increasing at hinc
  rw [newOf, ← hnew, drop_left] at ht
  rw [← hnew, pairwise_append] at hinc
  exact fun s hs => hinc.2.2 s hs t ht

theorem Increasing.filter_eq (hinc : Increasing user h) (ht : t ∈ mine user h) :
    (mine user h).filter (fun s => s.commitIdentifier = t.commitIdentifier) = [t] := by
  obtain ⟨a, b, hab⟩ := append_of_mem ht
  unfold Increasing at hinc
  rw [hab] at hinc ⊢
  obtain ⟨-, hb, hcross⟩ := pairwise_append.mp hinc
  have ha' : a.filter (fun s => s.commitIdentifier = t.commitIdentifier) = [] := by
    refine filter_eq_nil_iff.mpr fun s hs => ?_
    have := hcross s hs t mem_cons_self
    simp only [decide_eq_true_eq]
    omega
  have hb' : b.filter (fun s => s.commitIdentifier = t.commitIdentifier) = [] := by
    refine filter_eq_nil_iff.mpr fun s hs => ?_
    have := (pairwise_cons.mp hb).1 s hs
    simp only [decide_eq_true_eq]
    omega
  rw [filter_append, filter_cons_of_pos (by simp), ha', hb', nil_append]

end

/-! ## two batches -/

def runRecovery (r : Recovery) (groups : List Group) : World → List RecoveryAction → Option World
  | w, [] => some w
  | w, a :: actions =>
    match stepRecovery r groups w.history w.stage a with
    | none => none
    | some (h, st) => runRecovery r groups ⟨h, st⟩ actions

theorem reaches_of_run {actions : List RecoveryAction}
    (hrun : runRecovery r groups w actions = some w') : Reaches r groups w w' := by
  induction actions generalizing w with
  | nil =>
    cases hrun
    exact .refl
  | cons a actions ih =>
    unfold runRecovery at hrun
    split at hrun
    · cases hrun
    · next hstep => exact (Relation.ReflTransGen.single (.own a hstep)).trans (ih hrun)

def plainRecovery : Recovery where
  commit := plainCommit "u"

def plainGroup (identifier : Int) (name : String) : Group :=
  ⟨identifier, [{ partition := [], bucket := 0, newFiles := [{ fileName := name, rowCount := 3 }] }]⟩

/-- the steps of a group that is committed at once -/
def commitGroup : List RecoveryAction :=
  [.next, .commit .readLatest, .commit (.check [] none), .commit (.resolve []), .commit (.publish (.answered none)),
    .next]

def foreignSnapshot (latest : Option Snapshot) : Snapshot where
  id := nextSnapshotId latest
  baseManifestList := existingManifestFiles latest
  deltaManifestList := []
  commitUser := "other"
  commitIdentifier := 9
  commitKind := .append
  totalRecordCount := none
  deltaRecordCount := none

def Stage.count : Stage → Option Nat
  | .done (.ok n) => some n
  | _ => none

theorem Stage.eq_done {n : Nat} (hcount : st.count = some n) : st = .done (.ok n) := by
  unfold Stage.count at hcount
  split at hcount
  · cases hcount
    rfl
  · cases hcount

end Paimon.Checkpoint
