import Paimon.Commit.Runs

/-!
# Attempts of one plan

A plan is resolved, loses the race for its snapshot id, and is resolved again against a later
snapshot.  Two things survive from attempt to attempt: the overwrite cache inside the plan and the
conflict base inside the retry state.

* `Retried`: a plan and a retry state reached by accepted attempts, while others publish snapshots of any
  kind;
* `exists_since`: the snapshots after a given one: their ids, and what they do to its live set;
* `incrementalDeltas_ok`, `probeDeltas_true`: what the two readers of intervening snapshots saw;
* `CacheOk`: the overwrite cache is the filtered live set of the cached snapshot, kept by
  `provideOverwriteEntries`;
* `overwrite_entries_sound`: an overwrite deletes exactly the live files its filter selects, cache or no
  cache.
-/

namespace Paimon

open List

/-! ## the snapshots after a snapshot -/

variable {b : List Snapshot} {s : Snapshot}

theorem Linked.since (hl : Linked (s :: b)) :
    ∀ last, (s :: b).getLast? = some last → s.id ≤ last.id ∧ b.map Snapshot.id = idsAfter s.id last.id ∧
      last.entries = s.entries ++ b.flatMap Snapshot.deltaEntries := by
  induction b using List.reverseRecOn with
  | nil =>
    intro last hlast
    cases hlast
    exact ⟨le_refl _, (idsAfter_self _).symm, (append_nil _).symm⟩
  | append_singleton b t ih =>
    intro last hlast
    rw [← cons_append] at hl hlast
    rw [getLast?_concat] at hlast
    cases hlast
    obtain ⟨hl', _, hlink⟩ := isChain_append.mp hl
    cases hm : (s :: b).getLast? with
    | none => exact absurd (getLast?_eq_none_iff.mp hm) (by simp)
    | some m =>
      obtain ⟨hle, hids, hentries⟩ := ih hl' m hm
      have hf : Follows (some m) t := hlink m (by simp [hm]) t (by simp)
      have hid : t.id = m.id + 1 := hf.1
      have hent : t.entries = m.entries ++ t.deltaEntries := hf.entries
      refine ⟨by omega, ?_, ?_⟩
      · rw [map_append, hids, hid, idsAfter_succ hle]
        simp [hid]
      · rw [hent, hentries, flatMap_append, append_assoc]
        simp

variable {h : List Snapshot} {s last : Snapshot}

theorem exists_since (hl : Linked h) (hs : s ∈ h)
    (hlast : h.getLast? = some last) : ∃ b : List Snapshot, (∀ t ∈ b, t ∈ h) ∧
      b.map Snapshot.id = idsAfter s.id last.id ∧
      last.entries = s.entries ++ b.flatMap Snapshot.deltaEntries := by
  obtain ⟨a, b, rfl⟩ := append_of_mem hs
  have hl' : Linked (s :: b) := (isChain_append.mp hl).2.1
  have hb : (s :: b).getLast? = some last := by
    rw [getLast?_append] at hlast
    cases hm : (s :: b).getLast? with
    | none => exact absurd (getLast?_eq_none_iff.mp hm) (by simp)
    | some m =>
      rw [hm] at hlast
      exact hlast
  obtain ⟨_, hids, hent⟩ := hl'.since last hb
  exact ⟨b, fun t ht => by simp [ht], hids, hent⟩

variable {u : List Int}

theorem reader_linked (hl : Linked h) {s t : Snapshot}
    (hs : s ∈ h) (hr : reader h u s.id = .ok t) : t = s := by
  obtain ⟨ht, hid⟩ := reader_ok hr
  exact hl.id_inj ht hs hid

/-! ## readers of the intervening snapshots -/

variable {f : Option PartitionFilter}

section
variable {h : List Snapshot} {u : List Int}

theorem incrementalDeltas_ok (hl : Linked h) (hb : ∀ t ∈ b, t ∈ h) {d : List ManifestEntry}
    (hd : incrementalDeltas (reader h u) f (b.map Snapshot.id) = .ok (some d)) :
    d = (b.flatMap Snapshot.deltaEntries).filter (fun e => acceptsOpt f e.partition) := by
  induction b generalizing d with
  | nil =>
    injection hd with hd
    injection hd with hd
    rw [← hd]
    rfl
  | cons s b ih =>
    simp only [map_cons, incrementalDeltas] at hd
    split at hd
    · exact nomatch hd
    · rename_i t hr
      rw [reader_linked hl (hb s (by simp)) hr] at hd
      obtain ⟨delta, hdelta, hd⟩ := bind_ok hd
      obtain ⟨rest, hrest, hd⟩ := bind_ok hd
      injection hd with hd
      cases rest with
      | none => exact nomatch hd
      | some rest =>
        injection hd with hd
        rw [← hd, ih (fun t ht => hb t (by simp [ht])) hrest, filterPartitionOpt_ok hdelta,
          flatMap_cons, filter_append]

theorem probeDeltas_true {f : PartitionFilter} (hl : Linked h)
    (hb : ∀ t ∈ b, t ∈ h) (hp : probeDeltas (reader h u) f (b.map Snapshot.id) = .ok true) :
    ∀ e ∈ b.flatMap Snapshot.deltaEntries, f.accepts e.partition = false := by
  induction b with
  | nil => exact fun e he => absurd he (by simp)
  | cons s b ih =>
    simp only [map_cons, probeDeltas] at hp
    split at hp
    · exact nomatch hp
    · rename_i t hr
      rw [reader_linked hl (hb s (by simp)) hr] at hp
      split at hp
      · exact nomatch hp
      · obtain ⟨delta, hdelta, hp⟩ := bind_ok hp
        split at hp
        · exact nomatch hp
        · rename_i hnil
          intro e he
          rw [flatMap_cons, mem_append] at he
          rcases he with he | he
          · have hf := filterPartitionOpt_ok hdelta
            rw [not_not.mp hnil] at hf
            have := filter_eq_nil_iff.mp hf.symm e he
            simpa [acceptsOpt] using this
          · exact ih (fun t ht => hb t (by simp [ht])) hp e he

end

/-! ## the overwrite cache -/

/-- the cached entries are the live files of `s` that the filter selects -/
structure Cached (f : Option PartitionFilter) (s : Snapshot) (entries : List ManifestEntry) : Prop where
  keyed : Net.Keyed ManifestEntry.identifier entries
  mem : ∀ e, e ∈ entries ↔ e ∈ s.active ∧ acceptsOpt f e.partition = true

theorem readSnapshotEntries_cached
    {r : List ManifestEntry} (h : readSnapshotEntries s f = .ok r) : Cached f s r := by
  refine ⟨?_, mem_readSnapshotEntries h⟩
  obtain ⟨es, _, h⟩ := bind_ok h
  injection h with h
  rw [← h, mergeActiveEntries_eq]
  exact Net.keyed_net es

theorem Cached.advance {f : PartitionFilter} {ce d : List ManifestEntry}
    (hc : Cached (some f) s ce) (hent : last.entries = s.entries ++ d)
    (hd : ∀ e ∈ d, f.accepts e.partition = false) : Cached (some f) last ce := by
  refine ⟨hc.keyed, fun e => ?_⟩
  rw [hc.mem e]
  refine and_congr_left (fun hacc => ?_)
  have hact : last.active = applyDelta s.active d := active_of_entries (some s) hent
  rw [mem_active, mem_active, liveAt, liveAt, hact, applyDelta]
  -- no entry of the deltas has the identifier of `e`: their partitions are not accepted
  have hskip : ∀ x ∈ d, x.identifier ≠ e.identifier := by
    intro x hx he
    have hp : x.partition = e.partition := congrArg Identifier.partition he
    have := hd x hx
    rw [hp] at this
    simp only [acceptsOpt] at hacc
    rw [hacc] at this
    cases this
  rw [Net.look_run_skip hskip]

variable {h h' : List Snapshot}

theorem rebuildOverwriteCache_false {ce : List ManifestEntry} {cs : Option Snapshot}
    {latest : Snapshot} (hl : Linked h') (hext : h <+: h') (hlatest : h.getLast? = some latest)
    (hc : ∀ s, cs = some s → s ∈ h ∧ Cached f s ce)
    (hreb : rebuildOverwriteCache (reader h' u) latest f cs = .ok false) : Cached f latest ce := by
  have hlh : Linked h := hl.mono hext
  have hmem : latest ∈ h := mem_of_getLast? hlatest
  cases cs with
  | none => exact nomatch hreb
  | some s =>
    obtain ⟨hs, hcs⟩ := hc s rfl
    unfold rebuildOverwriteCache at hreb
    simp only [] at hreb
    split at hreb
    · exact nomatch hreb
    · split at hreb
      · -- an older snapshot: the probe saw no delta in the filtered partitions
        obtain ⟨usable, huse, hreb⟩ := bind_ok hreb
        injection hreb with hreb
        have htrue : usable = true := by simpa using hreb
        rw [htrue] at huse
        cases f with
        | none => exact nomatch huse
        | some f =>
          obtain ⟨b, hb, hids, hent⟩ := exists_since hlh hs hlatest
          have hprobe : probeDeltas (reader h' u) f (b.map Snapshot.id) = .ok true := by
            rw [hids]
            exact huse
          exact hcs.advance hent (probeDeltas_true hl (fun t ht => hext.subset (hb t ht)) hprobe)
      · have hid : s.id = latest.id := by omega
        rw [← hlh.id_inj hs hmem hid]
        exact hcs

/-- **One attempt of an overwrite.**  Whatever the cache decides, the entries are DELETEs of the
filtered live set and the new entries, and the cache left behind is exact. -/
theorem provideOverwriteEntries_ok {new ce es ce' : List ManifestEntry} {cs cs' : Option Snapshot}
    (hl : Linked h') (hext : h <+: h') (hc : ∀ s, cs = some s → s ∈ h ∧ Cached f s ce)
    (hok : provideOverwriteEntries (reader h' u) h.getLast? f new cs ce = .ok (es, cs', ce')) :
    (∃ existing, es = buildOverwriteResult existing new ∧ Net.Keyed ManifestEntry.identifier existing ∧
      ∀ e, e ∈ existing ↔ e ∈ activeAt h.getLast? ∧ acceptsOpt f e.partition = true) ∧
    ∀ s, cs' = some s → s ∈ h ∧ Cached f s ce' := by
  cases hlatest : h.getLast? with
  | none =>
    rw [hlatest] at hok
    injection hok with hok
    injection hok with h1 h2
    injection h2 with h2 h3
    subst h1 h2 h3
    exact ⟨⟨[], rfl, Net.keyed_nil, fun e => by simp [activeAt]⟩, hc⟩
  | some latest =>
    rw [hlatest] at hok
    obtain ⟨rebuild, hreb, hok⟩ := bind_ok hok
    have hused : ∃ cached, Cached f latest cached ∧
        (buildOverwriteResult cached new, some latest, cached) = (es, cs', ce') := by
      cases rebuild with
      | true =>
        obtain ⟨cached, hscan, hok⟩ := bind_ok hok
        injection hok with hok
        exact ⟨cached, readSnapshotEntries_cached hscan, hok⟩
      | false =>
        obtain ⟨cached, hce, hok⟩ := bind_ok hok
        injection hce with hce
        injection hok with hok
        subst hce
        exact ⟨ce, rebuildOverwriteCache_false hl hext hlatest hc hreb, hok⟩
    obtain ⟨cached, hcached, he⟩ := hused
    injection he with h1 h2
    injection h2 with h2 h3
    subst h1 h2 h3
    refine ⟨⟨cached, rfl, hcached.keyed, hcached.mem⟩, fun s hs => ?_⟩
    cases hs
    exact ⟨mem_of_getLast? hlatest, hcached⟩

/-! ## chains of attempts -/

/-- the entries one attempt commits, with the plan and its new cache -/
def attemptEntries (read : Reader) (latestSnapshot : Option Snapshot) :
    CommitEntriesPlan → Result (List ManifestEntry × CommitEntriesPlan)
  | .direct entries changelog ix checkFrom => .ok (entries, .direct entries changelog ix checkFrom)
  | .overwrite f new ix checkFrom cachedSnapshot cachedEntries => do
    let (es, cs, ce) ←
      provideOverwriteEntries read latestSnapshot f new cachedSnapshot cachedEntries
    return (es, .overwrite f new ix checkFrom cs ce)

/-- The plan and the retry state after any number of accepted attempts of `plan0`, with the entries
of each (last first).  An attempt reads the latest snapshot of `h` and resolves when the sequence is
`h'`; others publish in between. -/
inductive Retried (c : TableCommit) (checkAppendFiles : Bool) (plan0 : CommitEntriesPlan) :
    List Snapshot → CommitEntriesPlan → Option RetryState → List (List ManifestEntry) → Prop
  | start {h : List Snapshot} (hl : Linked h) (hf : plan0.fresh = true) :
    Retried c checkAppendFiles plan0 h plan0 none []
  | wait {h h' : List Snapshot} {plan : CommitEntriesPlan} {rs : Option RetryState}
      {past : List (List ManifestEntry)} (hr : Retried c checkAppendFiles plan0 h plan rs past)
      (hext : h <+: h') (hl : Linked h') : Retried c checkAppendFiles plan0 h' plan rs past
  | attempt {h h' : List Snapshot} {u : List Int} {plan plan' : CommitEntriesPlan}
      {rs : Option RetryState} {r : ResolvedCommit} {past : List (List ManifestEntry)}
      (hr : Retried c checkAppendFiles plan0 h plan rs past) (hext : h <+: h') (hl : Linked h')
      (ha : resolveCommit c (reader h' u) plan h.getLast? rs checkAppendFiles = .ok (plan', r)) :
    Retried c checkAppendFiles plan0 h' plan' (some ⟨h.getLast?, r.baseDataFiles⟩)
      (r.entries :: past)

variable {rs : Option RetryState} {c : TableCommit}

theorem Retried.linked {b : Bool} {plan0 plan : CommitEntriesPlan} {past : List (List ManifestEntry)}
    (hr : Retried c b plan0 h plan rs past) : Linked h := by
  cases hr with
  | start hl _ | wait _ _ hl | attempt _ _ hl _ => exact hl

/-- conflict detection: where the base came from, and that the checks passed on it -/
def Detected (c : TableCommit) (read : Reader) (latest : Option Snapshot) (rs : Option RetryState)
    (es base : List ManifestEntry) : Prop :=
  resolveConflictBaseEntries c.table read latest rs es = .ok base ∧
    ∃ kind checkFrom, checkCommitConflicts c read latest base es kind checkFrom = .ok ()

variable {es : List ManifestEntry} {latest : Option Snapshot} {read : Reader}

theorem detectCommitConflicts_ok
    {kind : CommitKind} {cf : Option Int}
    {base : Option (List ManifestEntry)}
    (h : detectCommitConflicts c read latest rs es kind cf = .ok base) :
    ∃ b, base = some b ∧ Detected c read latest rs es b := by
  obtain ⟨b, hb, h⟩ := bind_ok h
  obtain ⟨_, hc, h⟩ := bind_ok h
  injection h with h
  exact ⟨b, h.symm, hb, kind, cf, hc⟩

/-- an accepted attempt: its entries, and what was checked -/
structure Accepted (c : TableCommit) (read : Reader) (latest : Option Snapshot)
    (rs : Option RetryState) (plan plan' : CommitEntriesPlan) (r : ResolvedCommit) : Prop where
  entries : attemptEntries read latest plan = .ok (r.entries, plan')
  shapes : validateFileEntries r.entries = .ok ()
  detected : ∀ base, r.baseDataFiles = some base → Detected c read latest rs r.entries base
  undetected : r.baseDataFiles = none →
    plan.isDirect = true ∧ ∀ e ∈ r.entries, e.kind = .add

theorem resolveCommit_ok {plan plan' : CommitEntriesPlan}
    {b : Bool} {r : ResolvedCommit}
    (h : resolveCommit c read plan latest rs b = .ok (plan', r)) :
    Accepted c read latest rs plan plan' r := by
  cases plan with
  | direct es cl ix cf =>
    obtain ⟨r', hr, h⟩ := bind_ok h
    cases h
    obtain ⟨base', updates, all, hval, hcheck, _, _, _, rfl⟩ := resolveDirect_ok hr
    unfold checkDirect at hcheck
    split at hcheck
    · obtain ⟨base, rfl, hdet⟩ := detectCommitConflicts_ok hcheck
      refine ⟨rfl, hval, fun x hx => ?_, fun hn => nomatch hn⟩
      injection hx with hx
      exact hx ▸ hdet
    · rename_i hno
      obtain ⟨_, _, hcheck⟩ := bind_ok hcheck
      cases hcheck
      refine ⟨rfl, hval, (fun x hx => nomatch hx), fun _ => ⟨rfl, fun e he => ?_⟩⟩
      -- a DELETE makes the commit an OVERWRITE, which detects conflicts
      cases hk : e.kind with
      | add => rfl
      | delete =>
        have hany : es.any (fun e => e.kind == .delete) = true :=
          any_eq_true.mpr ⟨e, he, by simp [hk]⟩
        simp [detectsConflicts, directCommitKind, hany] at hno
  | overwrite f new ix cf cs ce =>
    obtain ⟨⟨es, cs', ce'⟩, hp, h⟩ := bind_ok h
    obtain ⟨r', hr, h⟩ := bind_ok h
    cases h
    obtain ⟨base', retained, all, hval, hcheck, _, _, _, rfl⟩ := resolveOverwrite_ok hr
    obtain ⟨base, rfl, hdet⟩ := detectCommitConflicts_ok hcheck
    refine ⟨?_, hval, fun x hx => ?_, fun hn => nomatch hn⟩
    · simp only [attemptEntries, hp]
      rfl
    · injection hx with hx
      exact hx ▸ hdet

/-! ## what the attempts of a plan commit -/

/-- two stages of one plan: they differ in the cache at most -/
def SamePlan : CommitEntriesPlan → CommitEntriesPlan → Prop
  | .direct es cl ix cf, plan => plan = .direct es cl ix cf
  | .overwrite f new ix cf _ _, plan => ∃ cs ce, plan = .overwrite f new ix cf cs ce

def CacheOk (h : List Snapshot) : CommitEntriesPlan → Prop
  | .direct .. => True
  | .overwrite f _ _ _ cs ce => ∀ s, cs = some s → s ∈ h ∧ Cached f s ce

def EntriesOf (latest : Option Snapshot) : CommitEntriesPlan → List ManifestEntry → Prop
  | .direct entries _ _ _, es => es = entries
  | .overwrite f new _ _ _ _, es => ∃ existing, es = buildOverwriteResult existing new ∧
      Net.Keyed ManifestEntry.identifier existing ∧
      ∀ e, e ∈ existing ↔ e ∈ activeAt latest ∧ acceptsOpt f e.partition = true

theorem SamePlan.refl (plan : CommitEntriesPlan) : SamePlan plan plan := by
  cases plan with
  | direct => rfl
  | overwrite f new ix cf cs ce => exact ⟨cs, ce, rfl⟩

theorem CacheOk.grow {plan : CommitEntriesPlan} (hc : CacheOk h plan)
    (hext : h <+: h') : CacheOk h' plan := by
  cases plan with
  | direct => exact trivial
  | overwrite f new ix cf cs ce => exact fun s hs => ⟨hext.subset (hc s hs).1, (hc s hs).2⟩

theorem attemptEntries_ok {plan0 plan plan' : CommitEntriesPlan}
    (hl : Linked h') (hext : h <+: h') (hsame : SamePlan plan0 plan)
    (hc : CacheOk h plan)
    (ha : attemptEntries (reader h' u) h.getLast? plan = .ok (es, plan')) :
    SamePlan plan0 plan' ∧ CacheOk h plan' ∧ EntriesOf h.getLast? plan0 es := by
  cases plan0 with
  | direct entries cl ix cf =>
    rw [show plan = _ from hsame] at ha
    cases ha
    exact ⟨rfl, trivial, rfl⟩
  | overwrite f new ix cf cs0 ce0 =>
    obtain ⟨cs, ce, rfl⟩ := hsame
    obtain ⟨⟨es', cs', ce'⟩, hp, ha⟩ := bind_ok ha
    cases ha
    obtain ⟨hes, hcache⟩ := provideOverwriteEntries_ok hl hext hc hp
    exact ⟨⟨cs', ce', rfl⟩, hcache, hes⟩

section
variable {c : TableCommit} {b : Bool} {plan0 plan : CommitEntriesPlan} {h h' : List Snapshot}
  {rs : Option RetryState} {past : List (List ManifestEntry)} {u : List Int}

theorem Retried.cacheOk (hr : Retried c b plan0 h plan rs past) : SamePlan plan0 plan ∧ CacheOk h plan := by
  induction hr with
  | start hl hf =>
    refine ⟨SamePlan.refl plan0, ?_⟩
    cases plan0 with
    | direct => exact trivial
    | overwrite f new ix cf cs ce =>
      cases cs with
      | none => exact fun s hs => nomatch hs
      | some s => exact nomatch hf
  | wait _ hext _ ih => exact ⟨ih.1, ih.2.grow hext⟩
  | attempt _ hext hl ha ih =>
    obtain ⟨h1, h2, _⟩ := attemptEntries_ok hl hext ih.1 ih.2 (resolveCommit_ok ha).entries
    exact ⟨h1, h2.grow hext⟩

theorem Retried.entriesOf {plan' : CommitEntriesPlan}
    (hr : Retried c b plan0 h plan rs past) (hext : h <+: h') (hl : Linked h')
    (ha : attemptEntries (reader h' u) h.getLast? plan = .ok (es, plan')) :
    EntriesOf h.getLast? plan0 es :=
  (attemptEntries_ok hl hext hr.cacheOk.1 hr.cacheOk.2 ha).2.2

/-- **The overwrite cache is sound.**  At any point of a chain of attempts, the entries provided for
the next one are DELETEs of exactly the live files of the latest snapshot that match the filter,
followed by the new entries: the same as after a full rescan. -/
theorem overwrite_entries_sound {f : Option PartitionFilter} {new ce es ce' : List ManifestEntry}
    {ix : List IndexManifestEntry} {cf : Option Int} {cs cs' : Option Snapshot}
    (hr : Retried c b plan0 h (.overwrite f new ix cf cs ce) rs past) (hext : h <+: h')
    (hl : Linked h')
    (hok : provideOverwriteEntries (reader h' u) h.getLast? f new cs ce = .ok (es, cs', ce')) :
    ∃ deletes, es = deletes ++ new ∧ (∀ x, x ∈ deletes ↔
        ∃ e ∈ activeAt h.getLast?, acceptsOpt f e.partition = true ∧ x = e.withKind .delete) ∧
      ∀ scanned, scanSnapshotEntries h.getLast? f = .ok scanned →
        ∀ x, x ∈ deletes ↔ x ∈ scanned.map (fun e => e.withKind .delete) := by
  obtain ⟨⟨existing, rfl, _, hmem⟩, _⟩ := provideOverwriteEntries_ok hl hext hr.cacheOk.2 hok
  have hdel : ∀ x, x ∈ existing.map (fun e => e.withKind .delete) ↔
      ∃ e ∈ activeAt h.getLast?, acceptsOpt f e.partition = true ∧ x = e.withKind .delete := by
    intro x
    rw [mem_map]
    constructor
    · rintro ⟨e, he, rfl⟩
      obtain ⟨h1, h2⟩ := (hmem e).mp he
      exact ⟨e, h1, h2, rfl⟩
    · rintro ⟨e, h1, h2, rfl⟩
      exact ⟨e, (hmem e).mpr ⟨h1, h2⟩, rfl⟩
  refine ⟨_, rfl, hdel, fun scanned hscan x => ?_⟩
  have hscanned : ∀ e, e ∈ scanned ↔ e ∈ existing := by
    intro e
    rw [hmem e]
    cases hlatest : h.getLast? with
    | none =>
      rw [hlatest] at hscan
      injection hscan with hscan
      simp [← hscan, activeAt]
    | some s =>
      rw [hlatest] at hscan
      exact mem_readSnapshotEntries hscan e
  simp only [mem_map, hscanned]

end

/-! ## an overwrite that reuses its cache -/

/-- a table partitioned by one column, one bucket per partition -/
def partitionedCommit : TableCommit where
  table := { partitioned := true }
  commitUser := "u"
  totalBuckets := 1
  commitMaxRetries := 10

def partitionFile (kind : FileKind) (partition : UInt8) (name : String) : ManifestEntry where
  kind := kind
  partition := [partition]
  bucket := 0
  totalBuckets := 1
  file := { fileName := name, rowCount := 1 }

def otherSnapshot (id : Int) (kind : CommitKind) (base : List Manifest) (delta : Manifest) : Snapshot where
  id := id
  baseManifestList := base
  deltaManifestList := [delta]
  commitUser := "other"
  commitIdentifier := id
  commitKind := kind
  totalRecordCount := none
  deltaRecordCount := none

def truncateFirst (cs : Option Snapshot) (ce : List ManifestEntry) : CommitEntriesPlan :=
  .overwrite (some (.partitionSet [[1]])) [] [] none cs ce

def firstSnapshot : Snapshot := otherSnapshot 1 .append [] [partitionFile .add 1 "f"]

def appendElsewhere : Snapshot :=
  otherSnapshot 2 .append [[partitionFile .add 1 "f"]] [partitionFile .add 2 "g"]

/-- the first attempt loses to an APPEND in another partition; the second reuses the cache -/
theorem overwrite_entries_sound_reuse : provideOverwriteEntries (reader [firstSnapshot, appendElsewhere] [])
      (some appendElsewhere) (some (.partitionSet [[1]])) [] (some firstSnapshot)
      [partitionFile .add 1 "f"]
      = .ok ([partitionFile .delete 1 "f"], some appendElsewhere, [partitionFile .add 1 "f"]) ∧
    ∃ deletes, [partitionFile .delete 1 "f"] = deletes ++ [] ∧
      (∀ x, x ∈ deletes ↔ ∃ e ∈ activeAt (some appendElsewhere),
        acceptsOpt (some (.partitionSet [[1]])) e.partition = true ∧ x = e.withKind .delete) ∧
      ∀ scanned, scanSnapshotEntries (some appendElsewhere) (some (.partitionSet [[1]])) = .ok scanned →
        ∀ x, x ∈ deletes ↔ x ∈ scanned.map (fun e => e.withKind .delete) := by
  have hl : Linked [firstSnapshot, appendElsewhere] :=
    isChain_pair.mpr ⟨rfl, rfl⟩
  have h1 : Linked [firstSnapshot] := isChain_singleton _
  have hext : [firstSnapshot] <+: [firstSnapshot, appendElsewhere] := ⟨[appendElsewhere], rfl⟩
  have start : Retried partitionedCommit false (truncateFirst none []) [firstSnapshot]
      (truncateFirst none []) none [] := .start h1 rfl
  have once : Retried partitionedCommit false (truncateFirst none []) [firstSnapshot]
      (truncateFirst (some firstSnapshot) [partitionFile .add 1 "f"])
      (some ⟨some firstSnapshot, some [partitionFile .add 1 "f"]⟩)
      [[partitionFile .delete 1 "f"]] :=
    .attempt (u := []) start (prefix_refl _) h1 rfl
  refine ⟨?prov, overwrite_entries_sound (.wait once hext hl) (prefix_refl _) hl ?prov⟩
  rfl

end Paimon
