import Paimon.Commit.Runs

/-!
# Exactly-once commits

Committers with Direct plans and distinct (commit user, commit identifier) pairs over one snapshot
sequence, under any interleaving, any number of retries and lost publication responses.

* `publishedBy`: the snapshots of a run that carry a committer's pair;
* `Once`: the invariant of one committer. A publication whose response was lost lies at or after the first id
  the committer tried, so the duplicate check of the next attempt sees it (`findDuplicateCommit_none`), and
  an attempt past the check has nothing of its own among the snapshots it read;
* `commits_exactly_once`: the result.

A committer started with `filter_committed` returns Ok without publishing when a snapshot of its
user carries the same or a greater identifier: identifiers of one user are expected to increase.
-/

namespace Paimon

open List

def published (h0 h : List Snapshot) : List Snapshot := h.drop h0.length

def publishedBy (h0 : List Snapshot) (c : Committer) (h : List Snapshot) : List Snapshot :=
  (published h0 h).filter (ownedBy c)

variable {h0 h : List Snapshot}

theorem published_concat (he : h0 <+: h) (t : Snapshot) : published h0 (h ++ [t]) = published h0 h ++ [t] :=
  drop_append_of_le_length he.length_le

theorem publishedBy_concat (he : h0 <+: h) (c : Committer) (t : Snapshot) :
    publishedBy h0 c (h ++ [t]) = publishedBy h0 c h ++ if ownedBy c t then [t] else [] := by
  rw [publishedBy, published_concat he, filter_append, filter_singleton, Bool.cond_eq_ite, publishedBy]

variable {t : Snapshot} {c : Committer}

theorem mem_of_publishedBy (ht : t ∈ publishedBy h0 c h) : t ∈ h ∧ ownedBy c t = true :=
  ⟨mem_of_mem_drop (mem_filter.mp ht).1, (mem_filter.mp ht).2⟩

theorem mem_publishedBy {d : Int}
    (he : h0 <+: h) (hd : ∀ s ∈ h0, s.id < d) (ht : t ∈ h) (hid : d ≤ t.id)
    (ho : ownedBy c t = true) : t ∈ publishedBy h0 c h := by
  obtain ⟨q, rfl⟩ := he
  refine mem_filter.mpr ⟨?_, ho⟩
  rw [published, drop_left]
  rcases mem_append.mp ht with h | h
  · exact absurd (hd t h) (by omega)
  · exact h

/-! ## reads of the duplicate check -/

section
variable {h : List Snapshot} {u : List Int} {latest : Snapshot} {p : Snapshot → Bool}

theorem findSnapshot_cons (read : Reader) (id : Int) (ids : List Int) :
    findSnapshot read latest p (id :: ids) = ((if id = latest.id then .ok latest else read id) >>= fun s =>
        if p s then .ok (some s) else findSnapshot read latest p ids) := by
  rw [findSnapshot]
  split <;> rfl

variable {ids : List Int}

theorem findSnapshot_some {s : Snapshot} (hl : latest ∈ h)
    (hf : findSnapshot (reader h u) latest p ids = .ok (some s)) :
    s ∈ h ∧ p s = true ∧ s.id ∈ ids := by
  induction ids with
  | nil => exact nomatch hf
  | cons id ids ih =>
    rw [findSnapshot_cons] at hf
    obtain ⟨x, hx, hf⟩ := bind_ok hf
    split at hf
    · rename_i hpx
      injection hf with hf
      cases hf
      split at hx
      · rename_i hid
        cases hx
        exact ⟨hl, hpx, by simp [hid]⟩
      · obtain ⟨hm, hid⟩ := reader_ok hx
        exact ⟨hm, hpx, by simp [hid]⟩
    · obtain ⟨hm, hps, hid⟩ := ih hf
      exact ⟨hm, hps, mem_cons_of_mem _ hid⟩

theorem findSnapshot_none (hk : Linked h) (hl : latest ∈ h)
    (hf : findSnapshot (reader h u) latest p ids = .ok none) :
    ∀ s ∈ h, s.id ∈ ids → p s = false := by
  induction ids with
  | nil => exact fun s _ hid => absurd hid (by simp)
  | cons id ids ih =>
    rw [findSnapshot_cons] at hf
    obtain ⟨x, hx, hf⟩ := bind_ok hf
    split at hf
    · exact nomatch hf
    · rename_i hpx
      intro s hs hid
      rcases mem_cons.mp hid with hid | hid
      · -- the snapshot read under this id is `s`
        have hxs : x ∈ h ∧ x.id = id := by
          split at hx
          · rename_i he
            injection hx with hx
            exact ⟨hx ▸ hl, by rw [← hx, he]⟩
          · exact reader_ok hx
        rw [hk.id_inj hs hxs.1 (by rw [hid, hxs.2])]
        simpa using hpx
      · exact ih hf s hs hid

end

variable {latest : Option Snapshot} {u : List Int} {user : String} {n : Int} {h : List Snapshot}

theorem isCommittedIdentifier_true {earliest : Option Int}
    (hl : ∀ s, latest = some s → s ∈ h)
    (hc : isCommittedIdentifier user (reader h u) earliest latest n = .ok true) :
    ∃ s ∈ h, s.commitUser = user ∧ n ≤ s.commitIdentifier := by
  unfold isCommittedIdentifier at hc
  split at hc
  · exact nomatch hc
  · rename_i s
    split at hc
    · rename_i hu
      injection hc with hc
      exact ⟨s, hl s rfl, hu, by simpa using hc⟩
    · obtain ⟨found, hf, hc⟩ := bind_ok hc
      injection hc with hc
      cases found with
      | none => exact nomatch hc
      | some t =>
        obtain ⟨hm, hp, _⟩ := findSnapshot_some (hl s rfl) hf
        exact ⟨t, hm, by simpa using hp, by simpa using hc⟩

variable {kind : CommitKind} {start : Int}

theorem findDuplicateCommit_none
    (hs : Shared h0 h)
    (hr : ReadAt h0 h latest)
    (hf : findDuplicateCommit user (reader h u) start latest n kind = .ok none) :
    ∀ t ∈ published h0 h, t.commitUser = user → t.commitIdentifier = n → t.commitKind = kind →
      start ≤ t.id → nextSnapshotId latest ≤ t.id := by
  intro t ht hu hn hkind hid
  have hth : t ∈ h := mem_of_mem_drop ht
  cases latest with
  | none =>
    obtain ⟨p, h1, h2, h3⟩ := hr
    rw [getLast?_eq_none_iff] at h3
    subst h3
    exact hs.one_le (prefix_nil.mp h1) hth
  | some s =>
    by_contra hlt
    simp only [nextSnapshotId] at hlt
    have := findSnapshot_none hs.linked hr.mem hf t hth (mem_idsDownFrom.mpr ⟨hid, by omega⟩)
    simp [hu, hn, hkind] at this

theorem findDuplicateCommit_some
    (hl : ∀ s, latest = some s → s ∈ h)
    (hf : findDuplicateCommit user (reader h u) start latest n kind = .ok (some t)) :
    t ∈ h ∧ t.commitUser = user ∧ t.commitIdentifier = n ∧ start ≤ t.id := by
  cases latest with
  | none => exact nomatch hf
  | some s =>
    obtain ⟨hm, hp, hid⟩ := findSnapshot_some (hl s rfl) hf
    simp only [Bool.and_eq_true, beq_iff_eq] at hp
    exact ⟨hm, hp.1.1, hp.1.2, (mem_idsDownFrom.mp hid).1⟩

/-! ## the top of the loop -/

variable {r : Result Unit}

section
variable {c : Committer} {h : List Snapshot} {l : Local} {latest : Option Snapshot} {u : List Int}
  {cb : Option Error}

theorem topOfLoop_some (ht : topOfLoop c h l latest u cb = .ok (some r)) :
    (filterApplies c h l latest u = .ok true) ∨ ∃ t, duplicateOf c h l latest u = .ok (some t) := by
  obtain ⟨committed, hc, ht⟩ := bind_ok ht
  split at ht
  · rename_i htrue
    exact Or.inl (by rw [hc, htrue])
  · obtain ⟨duplicate, hd, ht⟩ := bind_ok ht
    cases duplicate with
    | some t => exact Or.inr ⟨t, hd⟩
    | none =>
      obtain ⟨_, _, ht⟩ := bind_ok ht
      exact nomatch ht

theorem topOfLoop_none (ht : topOfLoop c h l latest u cb = .ok none) :
    duplicateOf c h l latest u = .ok none := by
  obtain ⟨committed, hc, ht⟩ := bind_ok ht
  split at ht
  · exact nomatch ht
  · obtain ⟨duplicate, hd, ht⟩ := bind_ok ht
    cases duplicate with
    | some t => exact nomatch ht
    | none => exact hd

end

theorem resolveCommit_direct {c : TableCommit} {read : Reader} {plan plan' : CommitEntriesPlan}
    {rs : Option RetryState} {b : Bool} {r : ResolvedCommit}
    (hd : plan.isDirect = true) (h : resolveCommit c read plan latest rs b = .ok (plan', r)) :
    plan' = plan ∧ r.entries = plan.callerEntries ∧ r.kind = plan.commitKindHint := by
  cases plan with
  | overwrite f new ix cf cs ce => exact nomatch hd
  | direct es cl ix cf =>
    obtain ⟨r', hr, h⟩ := bind_ok h
    cases h
    obtain ⟨base, updates, all, _, _, _, _, _, rfl⟩ := resolveDirect_ok hr
    exact ⟨rfl, rfl, rfl⟩

/-! ## the invariant of one committer -/

def Phase.isDone : Phase → Bool
  | .done _ => true
  | _ => false

/-- the snapshot read by an attempt that passed the duplicate check -/
def Phase.attempt : Phase → Option (Option Snapshot)
  | .resolve latest => some latest
  | .publish latest _ _ => some latest
  | _ => none

/-- past the first round of checks in this attempt -/
def Phase.checked : Phase → Bool
  | .resolve _ => true
  | .publish .. => true
  | .retry => true
  | _ => false

/-- the committer gave way to its filter of committed identifiers and published nothing -/
def FilteredOut (h0 : List Snapshot) (c : Committer) (h : List Snapshot) : Prop :=
  c.filterCommitted = true ∧ publishedBy h0 c h = [] ∧
    ∃ s ∈ h, s.commitUser = c.commit.commitUser ∧ c.commitIdentifier ≤ s.commitIdentifier

structure Once (h0 : List Snapshot) (c : Committer) (h : List Snapshot) (l : Local) : Prop where
  plan : l.phase.isDone = false → l.plan = c.plan
  atMost : (publishedBy h0 c h).length ≤ 1
  notStarted : l.phase.isDone = false → l.duplicateCheckStart = none → publishedBy h0 c h = []
  started : ∀ d, l.duplicateCheckStart = some d → (∀ s ∈ h0, s.id < d) ∧
    d ≤ nextSnapshotId h.getLast? ∧ ∀ t ∈ publishedBy h0 c h, d ≤ t.id
  unread : ∀ latest, l.phase.attempt = some latest →
    ∀ t ∈ publishedBy h0 c h, nextSnapshotId latest ≤ t.id
  filter : l.filterCommitted = true → c.filterCommitted = true ∧ l.duplicateCheckStart = none
  unfiltered : l.phase.checked = true → l.filterCommitted = false
  resolved : ∀ latest t r, l.phase = .publish latest t r →
    r.entries = c.plan.callerEntries ∧ r.kind = c.plan.commitKindHint
  ok : l.phase = .done (.ok ()) → c.plan.callerEntries ≠ [] →
    (publishedBy h0 c h).length = 1 ∨ FilteredOut h0 c h

theorem finish_ok {l : Local} (h : (l.finish r).phase = .done (.ok ())) : r = .ok () := by
  cases r with
  | ok u => rfl
  | error e =>
    unfold Local.finish at h
    cases hl : l.lastPublicationError <;> simp [hl] at h

section
variable {h0 h : List Snapshot} {c : Committer} {l : Local}

theorem Once.finish (ho : Once h0 c h l) (plan : CommitEntriesPlan)
    (hr : r = .ok () → c.plan.callerEntries ≠ [] → (publishedBy h0 c h).length = 1 ∨ FilteredOut h0 c h) :
    Once h0 c h ({ l with plan := plan }.finish r) where
  plan hd := nomatch hd
  atMost := ho.atMost
  notStarted hd := nomatch hd
  started := ho.started
  unread _ ha := nomatch ha
  filter := ho.filter
  unfiltered hc := nomatch hc
  resolved _ _ _ hp := nomatch hp
  ok hp := hr (finish_ok hp)

theorem Once.outside (ho : Once h0 c h l) (hnd : l.phase.isDone = false) (n : Nat) {ph : Phase}
    (h1 : ph.isDone = false) (h2 : ph.attempt = none) (h3 : ph.checked = false) :
    Once h0 c h { l with phase := ph, retryCount := n } := by
  refine ⟨fun _ => ho.plan hnd, ho.atMost, fun _ => ho.notStarted hnd, ho.started, ?_, ho.filter, ?_, ?_, ?_⟩
  · intro latest hl
    rw [h2] at hl
    exact nomatch hl
  · intro hc
    rw [h3] at hc
    exact nomatch hc
  · rintro latest t r rfl
    exact nomatch h2
  · rintro rfl
    exact nomatch h1

theorem Once.other (hs : Shared h0 h) (hs' : Shared h0 (h ++ [t]))
    (ht : ownedBy c t = false) (ho : Once h0 c h l) : Once h0 c (h ++ [t]) l := by
  have hm : publishedBy h0 c (h ++ [t]) = publishedBy h0 c h := by
    rw [publishedBy_concat hs.extend, ht]
    simp
  have hn : nextSnapshotId h.getLast? ≤ nextSnapshotId (h ++ [t]).getLast? :=
    ReadAt.next_le hs' ((ReadAt.last hs.extend).grow (prefix_append h [t]))
  refine ⟨ho.plan, ?_, ?_, ?_, ?_, ho.filter, ho.unfiltered, ho.resolved, ?_⟩
  · rw [hm]
    exact ho.atMost
  · rw [hm]
    exact ho.notStarted
  · intro d hd
    obtain ⟨h1, h2, h3⟩ := ho.started d hd
    rw [hm]
    exact ⟨h1, le_trans h2 hn, h3⟩
  · rw [hm]
    exact ho.unread
  · intro hp hne
    rw [hm]
    rcases ho.ok hp hne with h1 | ⟨h1, h2, s, hsm, h3⟩
    · exact Or.inl h1
    · exact Or.inr ⟨h1, by rw [hm]; exact h2, s, mem_append_left _ hsm, h3⟩

variable {cb : Option Error}

theorem Once.leave (hs : Shared h0 h) (hk : PhaseOk c h0 h l.phase) (ho : Once h0 c h l)
    (hp : l.phase = .check latest) (ht : topOfLoop c h l latest u cb = .ok (some r)) :
    Once h0 c h (l.finish r) := by
  rw [hp] at hk
  have hl : ∀ s, latest = some s → s ∈ h := by
    rintro s rfl
    exact ReadAt.mem hk
  refine ho.finish l.plan (fun _ _ => ?_)
  rcases topOfLoop_some ht with hf | ⟨t, hd⟩
  · -- the filter: no attempt was made yet
    unfold filterApplies at hf
    split at hf
    · rename_i hfc
      obtain ⟨hcf, hstart⟩ := ho.filter hfc
      exact Or.inr ⟨hcf, ho.notStarted (by rw [hp]; rfl) hstart, isCommittedIdentifier_true hl hf⟩
    · exact nomatch hf
  · -- a duplicate: the publication of an earlier attempt took effect
    unfold duplicateOf at hd
    split at hd
    · exact nomatch hd
    · rename_i start hstart
      obtain ⟨hm, hu, hn, hid⟩ := findDuplicateCommit_some hl hd
      have hmine : t ∈ publishedBy h0 c h :=
        mem_publishedBy hs.extend (ho.started start hstart).1 hm hid (by simp [ownedBy, hu, hn])
      have := length_pos_of_mem hmine
      have := ho.atMost
      exact Or.inl (by omega)

theorem Once.pass (hs : Shared h0 h) (hk : PhaseOk c h0 h l.phase)
    (hown : ∀ t ∈ publishedBy h0 c h, t.commitKind = c.plan.commitKindHint) (ho : Once h0 c h l)
    (hp : l.phase = .check latest) (ht : topOfLoop c h l latest u cb = .ok none) :
    Once h0 c h { l with phase := .resolve latest, filterCommitted := false } := by
  rw [hp] at hk
  have hnd : l.phase.isDone = false := by rw [hp]; rfl
  refine ⟨fun _ => ho.plan hnd, ho.atMost, fun _ => ho.notStarted hnd, ho.started, ?_,
    (fun hf => nomatch hf), fun _ => rfl, (fun _ _ _ hp => nomatch hp), (fun hp => nomatch hp)⟩
  intro latest' hl t ht'
  cases hl
  have hd := topOfLoop_none ht
  unfold duplicateOf at hd
  split at hd
  · rename_i hstart
    rw [ho.notStarted hnd hstart] at ht'
    exact absurd ht' (by simp)
  · rename_i start hstart
    obtain ⟨hpub, howned⟩ := mem_filter.mp ht'
    simp only [ownedBy, Bool.and_eq_true, decide_eq_true_eq] at howned
    refine findDuplicateCommit_none hs hk hd t hpub howned.1 howned.2 ?_ ((ho.started start hstart).2.2 t ht')
    rw [hown t ht', ho.plan hnd]

variable {resolved : ResolvedCommit}

theorem Once.free (hs : Shared h0 h) (hk : PhaseOk c h0 h (.publish latest t resolved)) (ho : Once h0 c h l)
    (hp : l.phase = .publish latest t resolved) (ha : ∀ s ∈ h, s.id ≠ t.id) :
    publishedBy h0 c (h ++ [t]) = [t] := by
  have hnil : publishedBy h0 c h = [] := by
    refine eq_nil_iff_forall_not_mem.mpr (fun x hx => ?_)
    have h1 := ho.unread latest (by rw [hp]; rfl) x hx
    have h2 := hs.linked.id_lt_next (mem_of_publishedBy hx).1
    rw [hk.last hs ha] at h2
    omega
  rw [publishedBy_concat hs.extend, hnil, hk.2.owned]
  rfl

theorem Once.started_free
    (hs : Shared h0 h) (hs' : Shared h0 (h ++ [t])) (hk : PhaseOk c h0 h (.publish latest t resolved))
    (ho : Once h0 c h l) (hp : l.phase = .publish latest t resolved) (ha : ∀ s ∈ h, s.id ≠ t.id)
    (d : Int) (hd : l.duplicateCheckStart = some d) : (∀ s ∈ h0, s.id < d) ∧
      d ≤ nextSnapshotId (h ++ [t]).getLast? ∧ ∀ x ∈ publishedBy h0 c (h ++ [t]), d ≤ x.id := by
  obtain ⟨h1, h2, _⟩ := ho.started d hd
  refine ⟨h1, le_trans h2 (ReadAt.next_le hs'
    ((ReadAt.last hs.extend).grow (prefix_append h [t]))), fun x hx => ?_⟩
  rw [ho.free hs hk hp ha, mem_singleton] at hx
  rw [hx, hk.2.follows.1, ← hk.last hs ha]
  exact h2

variable {h' : List Snapshot}

theorem Once.toRetry {e : Option Error} (hs : Shared h0 h) (hs' : Shared h0 h')
    (hext : h <+: h') (hr : ReadAt h0 h latest) (ho : Once h0 c h l)
    (hp : l.phase = .publish latest t resolved) (hmine : (publishedBy h0 c h').length ≤ 1)
    (hid : ∀ x ∈ publishedBy h0 c h', l.duplicateCheckStart.getD (nextSnapshotId latest) ≤ x.id) :
    Once h0 c h' (l.toRetry latest resolved e) := by
  have hck : l.filterCommitted = false := ho.unfiltered (by rw [hp]; rfl)
  have hlast : nextSnapshotId h.getLast? ≤ nextSnapshotId h'.getLast? :=
    ReadAt.next_le hs' ((ReadAt.last hs.extend).grow hext)
  refine ⟨fun _ => ho.plan (by rw [hp]; rfl), hmine, (fun _ hn => nomatch hn), ?_,
    (fun _ ha => nomatch ha), ?_, fun _ => hck, (fun _ _ _ hp => nomatch hp),
    (fun hp => nomatch hp)⟩
  · intro d hd
    cases hd
    cases hstart : l.duplicateCheckStart with
    | none =>
      rw [hstart] at hid
      exact ⟨fun s hsm => hr.id_lt hs hsm, le_trans (hr.next_le hs) hlast, hid⟩
    | some d =>
      rw [hstart] at hid
      obtain ⟨h1, h2, _⟩ := ho.started d hstart
      exact ⟨h1, le_trans h2 hlast, hid⟩
  · intro hf
    rw [show (l.toRetry latest resolved e).filterCommitted = l.filterCommitted from rfl, hck] at hf
    exact nomatch hf

theorem Once.moves {l' : Local} (hdirect : c.plan.isDirect = true)
    (hs : Shared h0 h) (hs' : Shared h0 h') (hk : PhaseOk c h0 h l.phase)
    (hown : ∀ t ∈ publishedBy h0 c h, t.commitKind = c.plan.commitKindHint)
    (ho : Once h0 c h l) (hm : Moves c h l h' l') : Once h0 c h' l' := by
  cases hm with
  | read hp => exact ho.outside (by rw [hp]; rfl) l.retryCount rfl rfl rfl
  | again hp => exact ho.outside (by rw [hp]; rfl) (l.retryCount + 1) rfl rfl rfl
  | leave hp ht => exact ho.leave hs hk hp ht
  | pass hp ht => exact ho.pass hs hk hown hp ht
  | abort => exact ho.finish _ (fun he => nomatch he)
  | empty hp hr hn =>
    refine ho.finish _ (fun _ hne => absurd ?_ hne)
    rw [ho.plan (by rw [hp]; rfl)] at hr
    rw [← (resolveCommit_direct hdirect hr).2.1]
    simp only [nothingToCommit, Bool.and_eq_true, decide_eq_true_eq] at hn
    exact hn.1.1.1.1
  | prepare hp hr hsn =>
    have hnd : l.phase.isDone = false := by rw [hp]; rfl
    rw [ho.plan hnd] at hr
    obtain ⟨hplan, hres⟩ := resolveCommit_direct hdirect hr
    refine ⟨fun _ => hplan, ho.atMost, fun _ => ho.notStarted hnd, ho.started, ?_, ho.filter,
      fun _ => ho.unfiltered (by rw [hp]; rfl), ?_, (fun hp => nomatch hp)⟩
    · intro latest' hl
      cases hl
      exact ho.unread _ (by rw [hp]; rfl)
    · intro latest' t r hp'
      cases hp'
      exact hres
  | refused hp =>
    rw [hp] at hk
    refine ho.toRetry hs hs' (prefix_refl h) hk.1 hp ho.atMost (fun x hx => ?_)
    cases hstart : l.duplicateCheckStart with
    | none => exact ho.unread _ (by rw [hp]; rfl) x hx
    | some d => exact (ho.started d hstart).2.2 x hx
  | created hp ha =>
    rw [hp] at hk
    have hone := ho.free hs hk hp ha
    refine ⟨(fun hd => nomatch hd), by rw [hone]; rfl, (fun hd => nomatch hd), ?_,
      (fun _ ha => nomatch ha), ho.filter, (fun hc => nomatch hc), (fun _ _ _ hp => nomatch hp),
      fun _ _ => Or.inl (by rw [hone]; rfl)⟩
    intro d hd
    exact ho.started_free hs hs' hk hp ha d hd
  | createdLost hp ha =>
    rw [hp] at hk
    have hone := ho.free hs hk hp ha
    refine ho.toRetry hs hs' (prefix_append h _) hk.1 hp (by rw [hone]; rfl) (fun x hx => ?_)
    cases hstart : l.duplicateCheckStart with
    | none =>
      rw [hone, mem_singleton] at hx
      rw [hx]
      exact le_of_eq hk.2.follows.1.symm
    | some d => exact (ho.started_free hs hs' hk hp ha d hstart).2.2 x hx

end

/-! ## runs -/

section
variable {ι : Type}

/-- exactly-once for the committers `cs` over the initial sequence `h0` -/
structure ExactlyOnce (cs : ι → Committer) (h0 : List Snapshot) (s : System ι) : Prop where
  kept : h0 <+: s.history
  consecutive : s.history.IsChain (fun p t => t.id = p.id + 1)
  fromOne : h0 = [] → ∀ t, s.history.head? = some t → t.id = 1
  owned : ∀ t ∈ published h0 s.history, ∃ i, ownedBy (cs i) t = true
  delta : ∀ i, ∀ t ∈ publishedBy h0 (cs i) s.history,
    (t.deltaEntries.map untracked).Perm ((cs i).plan.callerEntries.map untracked)
  atMostOnce : ∀ i, (publishedBy h0 (cs i) s.history).length ≤ 1
  once : ∀ i, (s.committer i).phase = .done (.ok ()) → (cs i).plan.callerEntries ≠ [] →
    (publishedBy h0 (cs i) s.history).length = 1 ∨ FilteredOut h0 (cs i) s.history
  applied : ∀ a p t b, s.history = a ++ p :: t :: b →
    t.active = applyDelta p.active t.deltaEntries
  first : h0 = [] → ∀ t, s.history.head? = some t → t.active = applyDelta [] t.deltaEntries

/-- every published snapshot carries the kind and the entries of the committer it belongs to -/
def Attributed (cs : ι → Committer) (h0 h : List Snapshot) : Prop :=
  ∀ t ∈ published h0 h, ∃ i, ownedBy (cs i) t = true ∧
    t.commitKind = (cs i).plan.commitKindHint ∧
    (t.deltaEntries.map untracked).Perm ((cs i).plan.callerEntries.map untracked)

variable {cs : ι → Committer}

theorem ownedBy_inj (hpairs : ∀ i j,
      (cs i).commit.commitUser = (cs j).commit.commitUser →
      (cs i).commitIdentifier = (cs j).commitIdentifier → i = j)
    {i j : ι} (hi : ownedBy (cs i) t = true) (hj : ownedBy (cs j) t = true) :
    i = j := by
  simp only [ownedBy, Bool.and_eq_true, decide_eq_true_eq] at hi hj
  exact hpairs i j (hi.1.symm.trans hj.1) (hi.2.symm.trans hj.2)

theorem Attributed.moves {h0 h h' : List Snapshot} {l l' : Local} {i : ι}
    (hs : Shared h0 h) (hk : PhaseOk (cs i) h0 h l.phase) (ho : Once h0 (cs i) h l)
    (hH : Attributed cs h0 h) (hm : Moves (cs i) h l h' l') : Attributed cs h0 h' := by
  rcases hm.history with rfl | ⟨latest, t, r, hp, ha, rfl⟩
  · exact hH
  · intro x hx
    rw [published_concat hs.extend, mem_append, mem_singleton] at hx
    rcases hx with hx | rfl
    · exact hH x hx
    · rw [hp] at hk
      obtain ⟨hentries, hkind⟩ := ho.resolved latest x r hp
      obtain ⟨next, hd⟩ := hk.2.delta
      rw [hentries] at hd
      exact ⟨i, hk.2.owned, by rw [hk.2.kind, hkind], prepareEntries_perm hd⟩

/-- **Exactly-once commit under any interleaving.**  Direct plans, distinct pairs of commit user and
commit identifier, any initial sequence: ids are consecutive, a committer's entries are published at
most once, exactly once when it returns Ok (unless its filter of committed identifiers applied), and
every snapshot applies its delta to the live set of the one before it. -/
theorem commits_exactly_once [DecidableEq ι] {cs : ι → Committer} {h0 : List Snapshot} {evs : List (ι × Action)}
    {s : System ι} (hdirect : ∀ i, (cs i).plan.isDirect = true)
    (hpairs : ∀ i j, (cs i).commit.commitUser = (cs j).commit.commitUser →
      (cs i).commitIdentifier = (cs j).commitIdentifier → i = j)
    (hl : Linked h0) (hrun : (System.init cs h0).run cs evs = some s) :
    ExactlyOnce cs h0 s := by
  have hnone : published h0 h0 = [] := drop_length
  obtain ⟨hs, hH, hQ⟩ := run_rule (H := Attributed cs h0) (Q := fun i => Once h0 (cs i)) hl
    (by intro t ht; rw [hnone] at ht; exact absurd ht (by simp))
    (by
      intro i
      have hmine : publishedBy h0 (cs i) h0 = [] := by rw [publishedBy, hnone]; rfl
      refine ⟨fun _ => rfl, by rw [hmine]; exact Nat.zero_le 1, fun _ _ => hmine,
        (fun _ hd => nomatch hd), (fun _ ha => nomatch ha), fun hf => ⟨hf, rfl⟩,
        (fun hc => nomatch hc), (fun _ _ _ hp => nomatch hp), (fun hp => nomatch hp)⟩)
    (by
      intro i h l h' l' hs hs' hH hk ho hm
      refine ⟨hH.moves hs hk ho hm, ho.moves (hdirect i) hs hs' hk (fun t ht => ?_) hm⟩
      obtain ⟨hpub, hown⟩ := mem_filter.mp ht
      obtain ⟨j, hj, hkind, _⟩ := hH t hpub
      rw [ownedBy_inj hpairs hown hj, hkind])
    (by
      intro i j h l t hne hs hs' hown ho
      refine ho.other hs hs' ?_
      rw [Bool.eq_false_iff]
      exact fun hi => hne (ownedBy_inj hpairs hown hi))
    hrun
  refine ⟨hs.extend, ?_, fun he t ht => (hs.rooted he t ht).1, ?_, ?_, fun i => (hQ i).atMost,
    fun i => (hQ i).ok, ?_, fun he t ht => (hs.rooted he t ht).active⟩
  · exact hs.linked.imp (fun p t h => h.1)
  · intro t ht
    obtain ⟨i, hi, _⟩ := hH t ht
    exact ⟨i, hi⟩
  · intro i t ht
    obtain ⟨hpub, hown⟩ := mem_filter.mp ht
    obtain ⟨j, hj, _, hperm⟩ := hH t hpub
    rw [ownedBy_inj hpairs hown hj]
    exact hperm
  · intro a p t b heq
    have hlink := hs.linked
    rw [heq] at hlink
    exact (isChain_append_cons_cons.mp hlink).2.1.active

end

/-! ## two runs -/

/-- an unpartitioned table with one bucket -/
def plainCommit (user : String) : TableCommit where
  table := { partitioned := false }
  commitUser := user
  totalBuckets := 1
  commitMaxRetries := 10
  commitTimeoutMs := 1000

def plainFile (kind : FileKind) (name : String) : ManifestEntry where
  kind := kind
  partition := []
  bucket := 0
  totalBuckets := 1
  file := { fileName := name, rowCount := 3 }

def directCommitter (commitIdentifier : Int) (entries : List ManifestEntry)
    (ix : List IndexManifestEntry) : Committer where
  commit := plainCommit "u"
  plan := .direct entries [] ix none
  commitIdentifier := commitIdentifier

def twoCommitters (first second : Committer) (i : Bool) : Committer := bif i then second else first

/-- two appends of one user; the first may ask to filter committed identifiers -/
def twoWriters (filter : Bool) : Bool → Committer :=
  twoCommitters { directCommitter 5 [plainFile .add "f"] [] with filterCommitted := filter }
    (directCommitter 7 [plainFile .add "g"] [])

def attemptOf (i : Bool) (o : Outcome) : List (Bool × Action) :=
  [(i, .readLatest), (i, .check [] none), (i, .resolve []), (i, .publish o)]

theorem twoWriters_direct (filter i : Bool) : (twoWriters filter i).plan.isDirect = true := by
  cases i <;> rfl

theorem twoWriters_pairs (filter : Bool) : ∀ i j,
    (twoWriters filter i).commit.commitUser = (twoWriters filter j).commit.commitUser →
    (twoWriters filter i).commitIdentifier = (twoWriters filter j).commitIdentifier → i = j := by
  cases filter <;> decide

def lostResponse : List (Bool × Action) :=
  attemptOf false (.lost (.ioUnexpected "timeout")) ++ attemptOf true (.answered none) ++
    [(false, .retry 0), (false, .readLatest), (false, .check [] none)]

/-- the response of the first publication is lost, the other writer publishes, and the retry finds
its own snapshot -/
theorem commits_exactly_once_lost_response : ∃ s,
    (System.init (twoWriters false) []).run (twoWriters false) lostResponse = some s ∧
      s.history.map Snapshot.commitIdentifier = [5, 7] ∧
      (s.committer false).phase = .done (.ok ()) ∧ ExactlyOnce (twoWriters false) [] s := by
  have hrun : ∃ s, (System.init (twoWriters false) []).run (twoWriters false) lostResponse = some s ∧
      s.history.map Snapshot.commitIdentifier = [5, 7] ∧
      (s.committer false).phase = .done (.ok ()) := ⟨_, rfl, rfl, rfl⟩
  obtain ⟨s, hs, hids, hok⟩ := hrun
  exact ⟨s, hs, hids, hok, commits_exactly_once (twoWriters_direct false) (twoWriters_pairs false)
    isChain_nil hs⟩

/-- identifier 7 is committed first: the committer of identifier 5, started with the filter,
returns Ok and its entries are in no snapshot -/
theorem filtered_commit_publishes_nothing : ∃ s, (System.init (twoWriters true) []).run (twoWriters true)
      (attemptOf true (.answered none) ++ [(false, .readLatest), (false, .check [] none)]) = some s ∧
      (s.committer false).phase = .done (.ok ()) ∧
      (twoWriters true false).plan.callerEntries ≠ [] ∧
      (publishedBy [] (twoWriters true false) s.history).length = 0 ∧
      ∀ t ∈ s.history, ∀ e ∈ t.entries, e.file.fileName ≠ "f" :=
  ⟨_, rfl, rfl, by decide, rfl, by decide⟩

end Paimon
