import Paimon.Commit.Machine

/-!
# The snapshot sequence in every run

* `Moves`: everything a step of a committer can do (`moves_of_step`);
* `Follows`: a snapshot is numbered after its predecessor and starts from its manifests;
* `Shared`: the published sequence: an extension of the initial one, linked by `Follows`, numbered from 1
  when it started empty;
* `ReadAt`: the latest snapshot a committer holds was the last one at some time;
* `publish_at_end`: a snapshot id is free only if the snapshot read is still the last one, so a publication
  that takes effect extends exactly the snapshot it was prepared from;
* `Prepared`: what the snapshot of an attempt carries;
* `run_rule`: the induction over runs that all invariants of the commit path use.
-/

namespace Paimon

open List

/-! ## steps -/

inductive Moves (c : Committer) (h : List Snapshot) (l : Local) : List Snapshot → Local → Prop
  | read (hp : l.phase = .readLatest) :
    Moves c h l h { l with phase := .check h.getLast? }
  | leave {latest : Option Snapshot} {u : List Int} {cb : Option Error} {r : Result Unit}
      (hp : l.phase = .check latest) (ht : topOfLoop c h l latest u cb = .ok (some r)) :
    Moves c h l h (l.finish r)
  | pass {latest : Option Snapshot} {u : List Int} {cb : Option Error}
      (hp : l.phase = .check latest) (ht : topOfLoop c h l latest u cb = .ok none) :
    Moves c h l h { l with phase := .resolve latest, filterCommitted := false }
  | abort {plan : CommitEntriesPlan} {e : Error} :
    Moves c h l h ({ l with plan := plan }.finish (.error e))
  | empty {latest : Option Snapshot} {u : List Int} {plan : CommitEntriesPlan}
      {resolved : ResolvedCommit} (hp : l.phase = .resolve latest)
      (hr : resolveCommit c.commit (reader h u) l.plan latest l.retryState c.filterCommitted
        = .ok (plan, resolved)) (hn : nothingToCommit c resolved = true) :
    Moves c h l h ({ l with plan := plan }.finish (.ok ()))
  | prepare {latest : Option Snapshot} {u : List Int} {plan : CommitEntriesPlan}
      {resolved : ResolvedCommit} {snapshot : Snapshot} (hp : l.phase = .resolve latest)
      (hr : resolveCommit c.commit (reader h u) l.plan latest l.retryState c.filterCommitted
        = .ok (plan, resolved))
      (hs : prepareSnapshot c.commit resolved latest c.commitIdentifier = .ok snapshot) :
    Moves c h l h { l with plan := plan, phase := .publish latest snapshot resolved }
  | refused {latest : Option Snapshot} {snapshot : Snapshot} {resolved : ResolvedCommit}
      {e : Option Error} (hp : l.phase = .publish latest snapshot resolved) :
    Moves c h l h (l.toRetry latest resolved e)
  | created {latest : Option Snapshot} {snapshot : Snapshot} {resolved : ResolvedCommit}
      {cb : Option Error} (hp : l.phase = .publish latest snapshot resolved)
      (ha : ∀ s ∈ h, s.id ≠ snapshot.id) :
    Moves c h l (h ++ [snapshot]) (l.finish (notifyCallbacks c cb))
  | createdLost {latest : Option Snapshot} {snapshot : Snapshot} {resolved : ResolvedCommit}
      {e : Error} (hp : l.phase = .publish latest snapshot resolved)
      (ha : ∀ s ∈ h, s.id ≠ snapshot.id) :
    Moves c h l (h ++ [snapshot]) (l.toRetry latest resolved (some e))
  | again (hp : l.phase = .retry) :
    Moves c h l h { l with phase := .readLatest, retryCount := l.retryCount + 1 }

variable {c : Committer} {l l' : Local} {h h' : List Snapshot}

theorem moves_of_step {a : Action}
    (hs : stepCommitter c h l a = some (h', l')) : Moves c h l h' l' := by
  unfold stepCommitter at hs
  split at hs
  · rename_i hp
    cases hs
    exact .read hp
  · rename_i hp
    split at hs
    · cases hs
      exact .abort
    · rename_i ht
      cases hs
      exact .leave hp ht
    · rename_i ht
      cases hs
      exact .pass hp ht
  · rename_i hp
    split at hs
    · cases hs
      exact .abort
    · rename_i hr
      simp only [] at hs
      split at hs
      · rename_i hn
        cases hs
        exact .empty hp hr hn
      · split at hs
        · cases hs
          exact .abort
        · rename_i hsn
          cases hs
          exact .prepare hp hr hsn
  · rename_i hp
    split at hs
    · split at hs <;> cases hs <;> exact .refused hp
    · rename_i snapshot _ _ hfree
      have ha : ∀ s ∈ h, s.id ≠ snapshot.id := by
        intro s hs' he
        exact hfree (any_eq_true.mpr ⟨s, hs', by simpa using he⟩)
      split at hs
      · cases hs
        exact .created hp ha
      · cases hs
        exact .createdLost hp ha
      · cases hs
        exact .refused hp
  · rename_i hp
    split at hs
    · cases hs
      exact .abort
    · cases hs
      exact .again hp
  · cases hs
    exact .abort
  · cases hs
    exact .abort
  · cases hs
    exact .abort
  · exact nomatch hs

/-! ## the shared sequence -/

/-- `t` is what an attempt that read `latest` publishes: the next id, over its manifests -/
def Follows (latest : Option Snapshot) (t : Snapshot) : Prop :=
  t.id = nextSnapshotId latest ∧ t.baseManifestList = existingManifestFiles latest

def Linked (h : List Snapshot) : Prop := h.IsChain (fun s t => Follows (some s) t)

structure Shared (h0 h : List Snapshot) : Prop where
  extend : h0 <+: h
  linked : Linked h
  rooted : h0 = [] → ∀ t, h.head? = some t → Follows none t

/-- `latest` was the last snapshot at some time -/
def ReadAt (h0 h : List Snapshot) (latest : Option Snapshot) : Prop :=
  ∃ p, h0 <+: p ∧ p <+: h ∧ p.getLast? = latest

variable {h : List Snapshot}

theorem Linked.pairwise (hl : Linked h) : h.Pairwise (fun s t => s.id < t.id) := by
  have hc : h.IsChain (fun s t => s.id < t.id) := by
    refine List.IsChain.imp (fun s t hst => ?_) hl
    have := hst.1
    simp only [nextSnapshotId] at this
    omega
  have : IsTrans Snapshot (fun s t => s.id < t.id) := ⟨fun _ _ _ h1 h2 => lt_trans h1 h2⟩
  exact isChain_iff_pairwise.mp hc

variable {s t : Snapshot}

theorem Linked.id_inj (hl : Linked h) (hs : s ∈ h) (ht : t ∈ h) (he : s.id = t.id) :
    s = t := by
  have hn : (h.map Snapshot.id).Nodup := pairwise_map.mpr (hl.pairwise.imp ne_of_lt)
  exact inj_on_of_nodup_map hn hs ht he

theorem Linked.id_le_last (hl : Linked h) (hs : s ∈ h) (ht : h.getLast? = some t) :
    s.id ≤ t.id := by
  obtain ⟨a, rfl⟩ := getLast?_eq_some_iff.mp ht
  rcases mem_append.mp hs with hs | hs
  · exact le_of_lt ((pairwise_append.mp hl.pairwise).2.2 s hs t (by simp))
  · rw [mem_singleton.mp hs]

variable {s : Snapshot}

theorem Linked.id_lt_next (hl : Linked h) (hs : s ∈ h) : s.id < nextSnapshotId h.getLast? := by
  cases hg : h.getLast? with
  | none => rw [getLast?_eq_none_iff.mp hg] at hs; exact absurd hs (by simp)
  | some t =>
    have := hl.id_le_last hs hg
    simp only [nextSnapshotId]
    omega

theorem Linked.mono {p h : List Snapshot} (hl : Linked h) (hp : p <+: h) : Linked p := by
  obtain ⟨q, rfl⟩ := hp
  exact (isChain_append.mp hl).1

theorem shared_refl (hl : Linked h) : Shared h h where
  extend := prefix_refl h
  linked := hl
  rooted := by
    rintro rfl t ht
    exact absurd ht (by simp)

variable {h0 h : List Snapshot} {t : Snapshot}

theorem Shared.concat (hs : Shared h0 h) (ht : Follows h.getLast? t) : Shared h0 (h ++ [t]) where
  extend := hs.extend.trans (prefix_append h [t])
  linked := by
    refine isChain_append.mpr ⟨hs.linked, isChain_singleton _, ?_⟩
    intro s hsl y hy
    rw [Option.mem_def] at hsl
    rw [head?_cons, Option.mem_some_iff] at hy
    rw [← hy, ← hsl]
    exact ht
  rooted := by
    intro he u hu
    cases h with
    | nil => rw [nil_append, head?_cons, Option.some_inj] at hu; rwa [← hu]
    | cons a h => exact hs.rooted he u hu

theorem Shared.one_le (hs : Shared h0 h) (he : h0 = []) (ht : t ∈ h) : 1 ≤ t.id := by
  cases h with
  | nil => exact absurd ht (by simp)
  | cons a h =>
    have ha : a.id = 1 := (hs.rooted he a (by simp)).1
    rcases mem_cons.mp ht with rfl | ht
    · omega
    · have := (pairwise_cons.mp hs.linked.pairwise).1 t ht
      omega

variable {latest : Option Snapshot} {h0 h h' : List Snapshot}

theorem ReadAt.grow (hr : ReadAt h0 h latest) (hp : h <+: h') : ReadAt h0 h' latest := by
  obtain ⟨p, h1, h2, h3⟩ := hr
  exact ⟨p, h1, h2.trans hp, h3⟩

theorem ReadAt.last (he : h0 <+: h) : ReadAt h0 h h.getLast? :=
  ⟨h, he, prefix_refl h, rfl⟩

theorem ReadAt.mem (hr : ReadAt h0 h (some s)) : s ∈ h := by
  obtain ⟨p, _, hp, hl⟩ := hr
  exact hp.subset (mem_of_getLast? hl)

theorem ReadAt.id_lt (hs : Shared h0 h) (hr : ReadAt h0 h latest) (hm : s ∈ h0) :
    s.id < nextSnapshotId latest := by
  obtain ⟨p, h1, h2, rfl⟩ := hr
  exact (hs.linked.mono h2).id_lt_next (h1.subset hm)

theorem ReadAt.next_le (hs : Shared h0 h) (hr : ReadAt h0 h latest) :
    nextSnapshotId latest ≤ nextSnapshotId h.getLast? := by
  cases latest with
  | some s =>
    have := hs.linked.id_lt_next hr.mem
    simp only [nextSnapshotId] at this ⊢
    omega
  | none =>
    obtain ⟨p, h1, h2, h3⟩ := hr
    rw [getLast?_eq_none_iff] at h3
    subst h3
    cases hg : h.getLast? with
    | none => exact le_refl _
    | some t =>
      have := hs.one_le (prefix_nil.mp h1) (mem_of_getLast? hg)
      simp only [nextSnapshotId]
      omega

/-- **A free id is the id after the last snapshot**: what was read is still the latest. -/
theorem publish_at_end (hs : Shared h0 h) (hr : ReadAt h0 h latest)
    (hfree : ∀ s ∈ h, s.id ≠ nextSnapshotId latest) :
    h.getLast? = latest := by
  obtain ⟨p, h1, ⟨q, rfl⟩, rfl⟩ := hr
  cases q with
  | nil => rw [append_nil]
  | cons t q =>
    refine absurd ?_ (hfree t (by simp))
    cases hp : p.getLast? with
    | none =>
      rw [getLast?_eq_none_iff] at hp
      subst hp
      exact (hs.rooted (prefix_nil.mp h1) t (by simp)).1
    | some s =>
      exact ((isChain_append.mp hs.linked).2.2 s (by simpa using hp) t (by simp)).1

def applyDelta (live delta : List ManifestEntry) : List ManifestEntry :=
  Net.run ManifestEntry.identifier ManifestEntry.isAdd live delta

def activeAt (latest : Option Snapshot) : List ManifestEntry :=
  (latest.map Snapshot.active).getD []

def entriesAt (latest : Option Snapshot) : List ManifestEntry :=
  (latest.map Snapshot.entries).getD []

theorem Follows.entries (hf : Follows latest t) : t.entries = entriesAt latest ++ t.deltaEntries := by
  rw [Snapshot.entries, Snapshot.baseEntries, hf.2]
  cases latest with
  | none => rfl
  | some s =>
    rw [existingManifestFiles, flatten_append]
    rfl

theorem active_of_entries (latest : Option Snapshot) {d : List ManifestEntry}
    (he : t.entries = entriesAt latest ++ d) : t.active = applyDelta (activeAt latest) d := by
  rw [Snapshot.active, he, mergeActiveEntries_eq, Net.net_append, ← mergeActiveEntries_eq]
  cases latest with
  | none | some => rfl

/-- **No delta is lost**: the live set of a snapshot is that of its predecessor with its own delta
applied. -/
theorem Follows.active (hf : Follows latest t) :
    t.active = applyDelta (activeAt latest) t.deltaEntries := active_of_entries latest hf.entries

/-! ## what an attempt prepares -/

structure Prepared (c : TableCommit) (resolved : ResolvedCommit) (latest : Option Snapshot)
    (commitIdentifier : Int) (t : Snapshot) : Prop where
  follows : Follows latest t
  user : t.commitUser = c.commitUser
  identifier : t.commitIdentifier = commitIdentifier
  kind : t.commitKind = resolved.kind
  delta : ∃ next, prepareEntries c (nextSnapshotId latest) latest resolved.entries
    = .ok (t.deltaEntries, next)
  total : t.totalRecordCount
    = some ((latest.bind Snapshot.totalRecordCount).getD 0 + deltaRecordCount t.deltaEntries)
  deltaCount : t.deltaRecordCount = some (deltaRecordCount t.deltaEntries)
  index : t.indexManifest.getD []
    = (resolved.newIndexManifestEntries.or resolved.indexManifest).getD []

variable {resolved : ResolvedCommit}

theorem prepareSnapshot_ok {c : TableCommit} {n : Int}
    (h : prepareSnapshot c resolved latest n = .ok t) : Prepared c resolved latest n t := by
  obtain ⟨⟨entries, next⟩, he, h⟩ := bind_ok h
  obtain ⟨schemaId, _, h⟩ := bind_ok h
  cases h
  have hd : (writeManifestFiles c entries).flatten = entries := writeManifestFiles_flatten c entries
  refine ⟨⟨rfl, rfl⟩, rfl, rfl, rfl, ⟨next, ?_⟩, ?_, ?_, ?_⟩
  · rw [he]
    simp only [Snapshot.deltaEntries, hd]
  · simp only [Snapshot.deltaEntries, hd]
  · simp only [Snapshot.deltaEntries, hd]
  · cases resolved.newIndexManifestEntries with
    | none => rfl
    | some all => cases all <;> rfl

/-! ## runs -/

def PhaseOk (c : Committer) (h0 h : List Snapshot) : Phase → Prop
  | .check latest => ReadAt h0 h latest
  | .resolve latest => ReadAt h0 h latest
  | .publish latest t resolved =>
    ReadAt h0 h latest ∧ Prepared c.commit resolved latest c.commitIdentifier t
  | _ => True

theorem PhaseOk.grow {ph : Phase} (hk : PhaseOk c h0 h ph) (hp : h <+: h') : PhaseOk c h0 h' ph := by
  cases ph with
  | check | resolve => exact ReadAt.grow hk hp
  | publish latest t resolved => exact ⟨hk.1.grow hp, hk.2⟩
  | readLatest | retry | done => exact trivial

theorem PhaseOk.last (hs : Shared h0 h)
    (hk : PhaseOk c h0 h (.publish latest t resolved)) (ha : ∀ s ∈ h, s.id ≠ t.id) :
    h.getLast? = latest := by
  refine publish_at_end hs hk.1 (fun s hm => ?_)
  rw [← hk.2.follows.1]
  exact ha s hm

theorem Moves.history (hm : Moves c h l h' l') : h' = h ∨ ∃ latest t resolved,
      l.phase = .publish latest t resolved ∧ (∀ s ∈ h, s.id ≠ t.id) ∧ h' = h ++ [t] := by
  cases hm with
  | created hp ha | createdLost hp ha => exact Or.inr ⟨_, _, _, hp, ha, rfl⟩
  | _ => exact Or.inl rfl

theorem Moves.shared (hs : Shared h0 h) (hk : PhaseOk c h0 h l.phase) (hm : Moves c h l h' l') :
    Shared h0 h' := by
  rcases hm.history with rfl | ⟨latest, t, resolved, hp, ha, rfl⟩
  · exact hs
  · rw [hp] at hk
    refine hs.concat ?_
    rw [hk.last hs ha]
    exact hk.2.follows

theorem Moves.phaseOk (hs : Shared h0 h) (hk : PhaseOk c h0 h l.phase) (hm : Moves c h l h' l') :
    PhaseOk c h0 h' l'.phase := by
  cases hm with
  | read hp => exact ReadAt.last hs.extend
  | pass hp ht =>
    rw [hp] at hk
    exact hk
  | prepare hp hr hsn =>
    rw [hp] at hk
    exact ⟨hk, prepareSnapshot_ok hsn⟩
  | _ => exact trivial

/-- the snapshot is the committer's: its commit user and its commit identifier -/
def ownedBy (c : Committer) (t : Snapshot) : Bool :=
  t.commitUser = c.commit.commitUser && t.commitIdentifier = c.commitIdentifier

theorem Prepared.owned (hp : Prepared c.commit resolved latest c.commitIdentifier t) :
    ownedBy c t = true := by
  simp [ownedBy, hp.user, hp.identifier]

section
variable {ι : Type} [DecidableEq ι]

/-- **Rule for invariants of runs.**  `H` speaks of the published sequence and `Q i` of the `i`-th
committer: `H` and `Q i` are kept by the steps of `i`, and `Q i` by the publications of others. -/
theorem run_rule {cs : ι → Committer} {h0 : List Snapshot} {H : List Snapshot → Prop}
    {Q : ι → List Snapshot → Local → Prop} {s : System ι} {evs : List (ι × Action)}
    (hl : Linked h0) (hH : H h0) (hQ : ∀ i, Q i h0 (Local.init (cs i)))
    (hmove : ∀ i h l h' l', Shared h0 h → Shared h0 h' → H h → PhaseOk (cs i) h0 h l.phase →
      Q i h l → Moves (cs i) h l h' l' → H h' ∧ Q i h' l')
    (hother : ∀ i j h l t, j ≠ i → Shared h0 h → Shared h0 (h ++ [t]) → ownedBy (cs j) t = true →
      Q i h l → Q i (h ++ [t]) l)
    (hrun : (System.init cs h0).run cs evs = some s) :
    Shared h0 s.history ∧ H s.history ∧ ∀ i, Q i s.history (s.committer i) := by
  have inv : Shared h0 s.history ∧ H s.history ∧
      ∀ i, PhaseOk (cs i) h0 s.history (s.committer i).phase ∧ Q i s.history (s.committer i) := by
    refine System.run_induction (s := .init cs h0) (P := fun s => Shared h0 s.history ∧ H s.history ∧
      ∀ i, PhaseOk (cs i) h0 s.history (s.committer i).phase ∧ Q i s.history (s.committer i))
      ⟨shared_refl hl, hH, fun i => ⟨trivial, hQ i⟩⟩ ?_ hrun
    intro s i a s' ⟨hs, hh, hc⟩ hst
    obtain ⟨h', l', hst, hh', hc'⟩ := System.step_eq hst
    have hm := moves_of_step hst
    have hs' := hm.shared hs (hc i).1
    obtain ⟨hH', hQ'⟩ := hmove i _ _ _ _ hs hs' hh (hc i).1 (hc i).2 hm
    rw [hh', hc']
    refine ⟨hs', hH', fun j => ?_⟩
    by_cases hj : j = i
    · subst hj
      rw [Function.update_self]
      exact ⟨hm.phaseOk hs (hc j).1, hQ'⟩
    · rw [Function.update_of_ne hj]
      have hi := (hc i).1
      rcases hm.history with rfl | ⟨latest, t, resolved, hp, ha, rfl⟩
      · exact hc j
      · rw [hp] at hi
        exact ⟨(hc j).1.grow (prefix_append _ _), hother j i _ _ t (Ne.symm hj) hs hs' hi.2.owned (hc j).2⟩
  exact ⟨inv.1, inv.2.1, fun i => (inv.2.2 i).2⟩

end

end Paimon
