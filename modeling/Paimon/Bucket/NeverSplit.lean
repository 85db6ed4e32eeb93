import Paimon.Bucket.DynamicIndex

/-!
# A key hash stays in its bucket

* `MapsTo`: what the assigner and the committed files say together;
* `Inv`: the assigner and the files agree, bucket by bucket;
* `Respects`: a notification made before the full index is loaded names no hash that another bucket's file
  holds: the partial index would not notice;
* `step_inv`: every operation keeps the invariant and loses no mapping;
* `buckets_never_split`: whole runs with restarts.
-/

namespace Paimon.Dynamic

open PartitionIndex Assigner List

/-- the partial index of direct writers, empty if there is none -/
def Assigner.current (a : Assigner) : PartitionIndex :=
  a.precomputedIndex.getD (PartitionIndex.empty a.targetBucketRowNumber)

/-- the index that is written at a commit -/
def Assigner.live (a : Assigner) : PartitionIndex := a.partitionIndex.getD a.current

/-- the hash is assigned to the bucket, in memory or in a committed file -/
def System.MapsTo (s : System) (h b : Int) : Prop :=
  s.assigner.live.Mapped h b ∨ InFile s.files b h

/-- an index in memory beside the files: a maintainer that is not modified has its file -/
structure Live (files : List IndexEntry) (idx : PartitionIndex) : Prop where
  count : idx.CountOk
  maint : idx.MaintOk
  synced : ∀ b m, idx.bucketMaintainers.lookup b = some m → m.modified = false →
    ∀ h, idx.Mapped h b → InFile files b h
  /-- a bucket in memory knows its file -/
  complete : ∀ b, (idx.bucketMaintainers.lookup b).isSome → ∀ h, InFile files b h → idx.Mapped h b
  /-- no hash is in memory in one bucket and in the file of another -/
  agrees : ∀ h b b', idx.Mapped h b → InFile files b' h → b = b'

structure Inv (s : System) : Prop where
  files : FilesOk s.files
  live : Live s.files s.assigner.live
  /-- the cached files are older, and still right for the buckets not in memory -/
  cached : ∀ c, s.assigner.cachedIndexEntries = some c → FilesOk c ∧
    (∀ b h, InFile c b h → InFile s.files b h) ∧
    (s.assigner.partitionIndex = none → ∀ b h,
      s.assigner.current.bucketMaintainers.lookup b = none → InFile s.files b h → InFile c b h)
  full : ∀ idx, s.assigner.partitionIndex = some idx → ∀ b h, InFile s.files b h → idx.Mapped h b
  target : s.assigner.live.targetBucketRowNumber = s.assigner.targetBucketRowNumber

theorem live_empty (files : List IndexEntry) (target : Int) : Live files (PartitionIndex.empty target) := by
  have hmap : ∀ h b, ¬ (PartitionIndex.empty target).Mapped h b := by
    intro h b hm
    exact nomatch hm
  have hloaded : ∀ b m, (PartitionIndex.empty target).bucketMaintainers.lookup b ≠ some m := by
    intro b m hm
    exact nomatch hm
  refine ⟨⟨fun b n hb => (nomatch hb), forall_mem_nil _,
    fun h b hm => absurd hm (hmap h b), fun i h₀ hi => ?_, forall_mem_nil _⟩,
    ⟨fun b m hb => absurd hb (hloaded b m), fun h b hm => absurd hm (hmap h b)⟩,
    fun b m hb => absurd hb (hloaded b m), fun b hb => absurd hb (by simp [PartitionIndex.empty]),
    fun h b b' hm => absurd hm (hmap h b)⟩
  exact absurd hi (by show ¬ i < 0; omega)

variable {idx idx' : PartitionIndex} {files : List IndexEntry}

theorem Live.grows (h : Live files idx)
    (hg : Grows idx idx') (hnew : ∀ b, idx.bucketMaintainers.lookup b = none →
      (idx'.bucketMaintainers.lookup b).isSome → ∀ x, InFile files b x → idx'.Mapped x b)
    (ha : ∀ x b b', idx'.Mapped x b → InFile files b' x → b = b') : Live files idx' := by
  have hm := hg.maint h.maint
  refine ⟨hg.count h.count, hm, fun b m hb hf x hx => ?_, fun b hb x hx => ?_, ha⟩
  · have hold := hg.clean b m hb hf
    have hin : x ∈ m.hashes := ((hm.hashes b m hb).2 x).mpr hx
    exact h.synced b m hold hf x (((h.maint.hashes b m hold).2 x).mp hin)
  · cases hl : idx.bucketMaintainers.lookup b with
    | none => exact hnew b hl hb x hx
    | some m => exact hg.mono x b (h.complete b (by rw [hl]; rfl) x hx)

/-! ### The partial index -/

variable {idx : PartitionIndex} {a : Assigner} {entries : List IndexEntry}

theorem loadHashIndexes_spec
    (hf : FilesOk entries) (hl : a.loadHashIndexes entries = .ok idx) :
    Loaded entries idx ∧ idx.targetBucketRowNumber = a.targetBucketRowNumber := by
  unfold loadHashIndexes at hl
  split at hl
  · exact load_spec hf hl
  · next he =>
    obtain rfl := not_not.mp he
    obtain rfl := Except.ok.inj hl
    have hlive := live_empty [] a.targetBucketRowNumber
    refine ⟨⟨hlive.count, hlive.maint, fun h b => ⟨fun hm => (nomatch hm), ?_⟩, fun b => ?_⟩, rfl⟩
    · rintro ⟨e, he, -⟩
      exact absurd he not_mem_nil
    · simp [PartitionIndex.empty]

theorem inFile_bucket {bucket b h : Int} :
    InFile (entries.filter fun e => decide (e.bucket = bucket)) b h ↔ b = bucket ∧ InFile entries b h := by
  constructor
  · rintro ⟨e, he, rfl, hh⟩
    obtain ⟨hin, hb⟩ := mem_filter.mp he
    exact ⟨by simpa using hb, e, hin, rfl, hh⟩
  · rintro ⟨rfl, e, he, rfl, hh⟩
    exact ⟨e, mem_filter.mpr ⟨he, by simp⟩, rfl, hh⟩

structure Restored (c : List IndexEntry) (bucket : Int) (idx : PartitionIndex) : Prop where
  maint : idx.MaintOk
  mapped : ∀ h b, idx.Mapped h b ↔ b = bucket ∧ InFile c b h
  loaded : ∀ b, (idx.bucketMaintainers.lookup b).isSome ↔ b = bucket

variable {bucket : Int}

theorem restoreBucket_spec (hf : FilesOk a.entries) (hr : a.restoreBucket bucket = .ok idx) :
    Restored a.entries bucket idx := by
  obtain ⟨idx₀, h₀, hr⟩ := bind_ok hr
  obtain rfl := Except.ok.inj hr
  obtain ⟨hl, -⟩ := loadHashIndexes_spec (hf.sublist filter_sublist) h₀
  have hlook : ∀ b, (idx₀.bucketMaintainers.insert bucket
      ((idx₀.bucketMaintainers.lookup bucket).getD (.new []))).lookup b
      = if b = bucket then some ((idx₀.bucketMaintainers.lookup bucket).getD (.new []))
        else idx₀.bucketMaintainers.lookup b := by
    intro b
    by_cases hb : b = bucket
    · rw [hb, AList.lookup_insert, if_pos rfl]
    · rw [AList.lookup_insert_ne hb, if_neg hb]
  have hmap : ∀ h b, idx₀.Mapped h b ↔ b = bucket ∧ InFile a.entries b h :=
    fun h b => (hl.mapped h b).trans inFile_bucket
  refine ⟨⟨fun b m hb => ?_, fun h b hm => ?_⟩, hmap, fun b => ?_⟩
  · rw [hlook] at hb
    split at hb
    · next he =>
      obtain rfl := he
      obtain rfl := Option.some.inj hb
      exact hl.maint.getD b
    · exact hl.maint.hashes b m hb
  · rw [hlook, if_pos ((hmap h b).mp hm).1]
    rfl
  · rw [hlook]
    constructor
    · intro hs
      by_contra hb
      rw [if_neg hb, hl.buckets] at hs
      obtain ⟨e, he, rfl⟩ := mem_map.mp hs
      exact hb (by simpa using (mem_filter.mp he).2)
    · intro hb
      rw [if_pos hb]
      rfl

theorem Live.restore {files c : List IndexEntry} {current restored idx : PartitionIndex}
    (h : Live files current) (hr : Restored c bucket restored)
    (hnone : current.bucketMaintainers.lookup bucket = none)
    (hc : ∀ x, InFile c bucket x ↔ InFile files bucket x) (hf : FilesOk files)
    (hm : Merged current restored idx) : Live files idx := by
  have hrestored : ∀ x b, restored.Mapped x b ↔ b = bucket ∧ InFile files b x := by
    intro x b
    rw [hr.mapped]
    exact and_congr_right fun hb => hb ▸ hc x
  have hmaint : idx.MaintOk := by
    refine hm.maint h.maint hr.maint fun x b hb hx => ?_
    have hs := h.maint.owned x b hx
    rw [(hr.loaded b).mp hb, hnone] at hs
    exact absurd hs Bool.false_ne_true
  refine ⟨hm.count h.count, hmaint, fun b m hb hfm x hx => ?_, fun b hb x hx => ?_, fun x b b' hx hin => ?_⟩
  · rcases (hm.mapped x b).mp hx with hx | hx
    · have hne : b ≠ bucket := by
        rintro rfl
        have hs := h.maint.owned x b hx
        rw [hnone] at hs
        exact absurd hs Bool.false_ne_true
      have hrn : restored.bucketMaintainers.lookup b = none :=
        Option.not_isSome_iff_eq_none.mp fun hs => hne ((hr.loaded b).mp hs)
      rw [hm.maintainers, hrn, Option.none_or] at hb
      exact h.synced b m hb hfm x hx
    · exact ((hrestored x b).mp hx).2
  · rw [hm.mapped]
    rw [hm.maintainers, Option.isSome_or, Bool.or_eq_true] at hb
    rcases hb with hb | hb
    · exact .inr ((hrestored x b).mpr ⟨(hr.loaded b).mp hb, hx⟩)
    · exact .inl (h.complete b hb x hx)
  · rcases (hm.mapped x b).mp hx with hx | hx
    · exact h.agrees x b b' hx hin
    · exact hf.disjoint x b b' ((hrestored x b).mp hx).2 hin

variable {s s' : System}

theorem live_of_none (h : s.assigner.partitionIndex = none) : s.assigner.live = s.assigner.current := by
  unfold Assigner.live
  rw [h]
  rfl

theorem Inv.cached_loaded (hi : Inv s) : FilesOk (s.assigner.ensureIndexEntriesLoaded s.files).entries ∧
      (∀ b h, InFile (s.assigner.ensureIndexEntriesLoaded s.files).entries b h → InFile s.files b h) ∧
      (s.assigner.partitionIndex = none → ∀ b h,
        s.assigner.current.bucketMaintainers.lookup b = none → InFile s.files b h →
        InFile (s.assigner.ensureIndexEntriesLoaded s.files).entries b h) := by
  unfold ensureIndexEntriesLoaded Assigner.entries
  cases hc : s.assigner.cachedIndexEntries with
  | none => exact ⟨hi.files, fun _ _ => id, fun _ _ _ _ => id⟩
  | some c => exact hi.cached c hc

theorem partialWith_spec (hi : Inv s) (hn : s.assigner.partitionIndex = none)
    (hp : s.assigner.partialWith s.files bucket = .ok (a, idx)) :
    Inv ⟨s.files, { a with precomputedIndex := some idx }⟩ ∧ a.partitionIndex = none ∧
      (idx.bucketMaintainers.lookup bucket).isSome ∧
      (∀ h b, s.assigner.current.Mapped h b → idx.Mapped h b) := by
  have hlive := hi.live
  rw [live_of_none hn] at hlive
  have htarget := hi.target
  rw [live_of_none hn] at htarget
  obtain ⟨hcf, hcs, hcn⟩ := hi.cached_loaded
  unfold partialWith at hp
  dsimp only at hp
  split at hp
  · next hloaded =>
    obtain ⟨rfl, rfl⟩ := Prod.mk.inj (Except.ok.inj hp)
    have hcur : ({ s.assigner with precomputedIndex := some s.assigner.current } : Assigner).live
        = s.assigner.current := by
      unfold Assigner.live
      rw [hn]
      rfl
    refine ⟨⟨hi.files, hcur ▸ hlive, hi.cached, fun idx h => ?_, ?_⟩, hn, hloaded, fun _ _ => id⟩
    · exact absurd (hn.symm.trans h) (Option.some_ne_none _).symm
    · exact (congrArg _ hcur).trans htarget
  · next hloaded =>
    have hnone : s.assigner.current.bucketMaintainers.lookup bucket = none :=
      Option.not_isSome_iff_eq_none.mp hloaded
    obtain ⟨restored, hr, hp⟩ := bind_ok hp
    obtain ⟨idx₁, hm, hp⟩ := bind_ok hp
    obtain ⟨rfl, rfl⟩ := Prod.mk.inj (Except.ok.inj hp)
    have hres := restoreBucket_spec hcf hr
    have hagree : Agrees s.assigner.current restored := by
      intro h b b' hb hb'
      exact (hlive.agrees h b' b hb' (hcs b h ((hres.mapped h b).mp hb).2)).symm
    obtain ⟨idx₂, hm₂, hmerged⟩ := merge_spec hagree
    obtain rfl := Except.ok.inj (hm.symm.trans hm₂)
    have hlive' : Live s.files idx₁ := hlive.restore hres hnone
      (fun x => ⟨hcs bucket x, hcn hn bucket x hnone⟩) hi.files hmerged
    refine ⟨⟨hi.files, ?_, fun c hc => ?_, fun idx h => ?_, ?_⟩, hn, ?_, fun h b hb => ?_⟩
    · unfold Assigner.live
      dsimp only [ensureIndexEntriesLoaded]
      rw [hn]
      exact hlive'
    · obtain rfl := Option.some.inj hc
      refine ⟨hcf, hcs, fun _ b h hb hin => ?_⟩
      refine hcn hn b h ?_ hin
      have hb' : idx₁.bucketMaintainers.lookup b = none := hb
      rw [hmerged.maintainers, Option.or_eq_none_iff] at hb'
      exact hb'.2
    · exact absurd (hn.symm.trans h) (Option.some_ne_none _).symm
    · unfold Assigner.live
      dsimp only [ensureIndexEntriesLoaded]
      rw [hn]
      exact hmerged.target.trans htarget
    · rw [hmerged.maintainers, Option.isSome_or, (hres.loaded bucket).mpr rfl, Bool.true_or]
    · exact (hmerged.mapped h b).mpr (.inl hb)

/-! ### One operation -/

structure Stepped (s s' : System) : Prop where
  inv : Inv s'
  files : ∀ b h, InFile s.files b h → InFile s'.files b h
  live : ∀ h b, s.assigner.live.Mapped h b → s'.assigner.live.Mapped h b

theorem Inv.grow_full (hi : Inv s)
    (hp : s.assigner.partitionIndex = some idx) (hg : Grows idx idx') :
    Stepped s ⟨s.files, { s.assigner with partitionIndex := some idx' }⟩ := by
  have hcur : s.assigner.live = idx := by
    unfold Assigner.live
    rw [hp]
    rfl
  have hlive := hi.live
  have htarget := hi.target
  rw [hcur] at hlive htarget
  have hfull := hi.full idx hp
  have hfull' : ∀ b h, InFile s.files b h → idx'.Mapped h b :=
    fun b h hin => hg.mono h b (hfull b h hin)
  refine ⟨⟨hi.files, ?_, fun c hc => ?_, fun i h => ?_, hg.target.trans htarget⟩, fun _ _ => id, ?_⟩
  · exact hlive.grows hg (fun b _ _ x hx => hfull' b x hx) fun x b b' hm hin => hm.unique (hfull' b' x hin)
  · obtain ⟨h₁, h₂, -⟩ := hi.cached c hc
    exact ⟨h₁, h₂, fun h => absurd h (Option.some_ne_none _)⟩
  · obtain rfl := Option.some.inj h
    exact hfull'
  · intro h b hm
    rw [hcur] at hm
    exact hg.mono h b hm

theorem notify_stepped (hi : Inv s) {hashes : List Int}
    (hresp : s.assigner.partitionIndex = none → ∀ h ∈ hashes, ∀ b, InFile s.files b h → b = bucket)
    (hn : s.assigner.notifyPrecomputedBatch s.files bucket hashes = .ok a) :
    Stepped s ⟨s.files, a⟩ := by
  unfold notifyPrecomputedBatch at hn
  split at hn
  · next idx hp =>
    obtain ⟨idx', h', hn⟩ := bind_ok hn
    obtain rfl := Except.ok.inj hn
    exact hi.grow_full hp (notifyPrecomputed_spec h').1
  · next hp =>
    obtain ⟨⟨a₁, idx⟩, h₁, hn⟩ := bind_ok hn
    obtain ⟨idx', h', hn⟩ := bind_ok hn
    obtain rfl := Except.ok.inj hn
    obtain ⟨hi₁, hp₁, hloaded, hsub⟩ := partialWith_spec hi hp h₁
    obtain ⟨hg, hmap⟩ := notifyPrecomputed_spec h'
    have hlive₁ : ({ a₁ with precomputedIndex := some idx } : Assigner).live = idx := by
      unfold Assigner.live
      rw [hp₁]
      rfl
    have hlive' : ({ a₁ with precomputedIndex := some idx' } : Assigner).live = idx' := by
      unfold Assigner.live
      rw [hp₁]
      rfl
    have hl := hi₁.live
    have ht := hi₁.target
    dsimp only at hl ht
    rw [hlive₁] at hl ht
    refine ⟨⟨hi.files, ?_, fun c hc => ?_, fun i h => ?_, ?_⟩, fun _ _ => id, fun h b hm => ?_⟩
    · dsimp only
      rw [hlive']
      refine hl.grows hg (fun b hb hs => ?_) (fun x b b' hm hin => ?_)
      · -- no bucket but the notified one appears, and that one was loaded
        have hbb : b ≠ bucket := by
          rintro rfl
          rw [hb] at hloaded
          exact absurd hloaded Bool.false_ne_true
        rw [notifyPrecomputed_other h' hbb, hb] at hs
        exact absurd hs Bool.false_ne_true
      · rcases (hmap x b).mp hm with hm | ⟨hx, rfl⟩
        · exact hl.agrees x b b' hm hin
        · exact (hresp hp x hx b' hin).symm
    · obtain ⟨h₁, h₂, h₃⟩ := hi₁.cached c hc
      refine ⟨h₁, h₂, fun _ b h hb hin => h₃ hp₁ b h ?_ hin⟩
      have hb' : idx'.bucketMaintainers.lookup b = none := hb
      refine Option.not_isSome_iff_eq_none.mp fun hs => ?_
      have := hg.loaded b hs
      rw [hb'] at this
      exact absurd this Bool.false_ne_true
    · exact absurd (hp₁.symm.trans h) (Option.some_ne_none _).symm
    · dsimp only
      rw [hlive']
      exact hg.target.trans ht
    · rw [live_of_none hp] at hm
      dsimp only
      rw [hlive']
      exact hg.mono h b (hsub h b hm)

theorem Inv.upgrade (hi : Inv s) (hn : s.assigner.partitionIndex = none) {index idx : PartitionIndex}
    (hl : Loaded (s.assigner.ensureIndexEntriesLoaded s.files).entries index)
    (hm : Merged index s.assigner.current idx) :
    Live s.files idx ∧ ∀ b h, InFile s.files b h → idx.Mapped h b := by
  obtain ⟨-, hcs, hcn⟩ := hi.cached_loaded
  have hlive := hi.live
  rw [live_of_none hn] at hlive
  have hindex : ∀ h b, index.Mapped h b → InFile s.files b h :=
    fun h b hh => hcs b h ((hl.mapped h b).mp hh)
  have hmaint : idx.MaintOk := hm.maint hl.maint hlive.maint
    fun h b hb hh => hlive.complete b hb h (hindex h b hh)
  have hfull : ∀ b h, InFile s.files b h → idx.Mapped h b := by
    intro b h hin
    rw [hm.mapped]
    cases hb : s.assigner.current.bucketMaintainers.lookup b with
    | none => exact .inl ((hl.mapped h b).mpr (hcn hn b h hb hin))
    | some m => exact .inr (hlive.complete b (by rw [hb]; rfl) h hin)
  refine ⟨⟨hm.count hl.count, hmaint, fun b m hb hf h hh => ?_, fun b _ => hfull b,
    fun h b b' hh hin => hh.unique (hfull b' h hin)⟩, hfull⟩
  rcases (hm.mapped h b).mp hh with hh | hh
  · exact hindex h b hh
  · obtain ⟨m', hm'⟩ := Option.isSome_iff_exists.mp (hlive.maint.owned h b hh)
    rw [hm.maintainers, hm'] at hb
    obtain rfl := Option.some.inj hb
    exact hlive.synced b m' hm' hf h hh

theorem ensureFull_spec (hi : Inv s) : Stepped s ⟨s.files, (s.assigner.ensureFull s.files).1⟩ ∧
      (∀ idx, (s.assigner.ensureFull s.files).2 = .ok idx →
        (s.assigner.ensureFull s.files).1.partitionIndex = some idx) ∧
      (s.assigner.ensureFull s.files).1.maxBuckets = s.assigner.maxBuckets := by
  unfold ensureFull
  split
  · next idx hp =>
    exact ⟨⟨hi, fun _ _ => id, fun _ _ => id⟩, fun i h => by rw [hp, Except.ok.inj h], rfl⟩
  · next hp =>
    dsimp only
    obtain ⟨hcf, hcs, hcn⟩ := hi.cached_loaded
    have hcached : Stepped s ⟨s.files, s.assigner.ensureIndexEntriesLoaded s.files⟩ := by
      refine ⟨⟨hi.files, hi.live, fun c hc => ?_, hi.full, hi.target⟩, fun _ _ => id, fun _ _ => id⟩
      obtain rfl := Option.some.inj hc
      exact ⟨hcf, hcs, hcn⟩
    split
    · exact ⟨hcached, fun i h => (nomatch h), rfl⟩
    · next index hload =>
      obtain ⟨_, -, hload⟩ := bind_ok hload
      obtain ⟨hl, ht⟩ := loadHashIndexes_spec hcf hload
      have hstepped : ∀ idx, Merged index s.assigner.current idx → ∀ a : Assigner,
          a.partitionIndex = some idx →
          a.cachedIndexEntries = (s.assigner.ensureIndexEntriesLoaded s.files).cachedIndexEntries →
          a.targetBucketRowNumber = s.assigner.targetBucketRowNumber → Stepped s ⟨s.files, a⟩ := by
        intro idx hm a ha hac hat
        obtain ⟨hlive, hfull⟩ := hi.upgrade hp hl hm
        have hcur : a.live = idx := by
          unfold Assigner.live
          rw [ha]
          rfl
        refine ⟨⟨hi.files, hcur ▸ hlive, fun c hc => ?_, fun i h => ?_, ?_⟩, fun _ _ => id, fun h b hh => ?_⟩
        · obtain rfl := Option.some.inj (hac.symm.trans hc)
          exact ⟨hcf, hcs, fun h => absurd (ha.symm.trans h) (Option.some_ne_none _)⟩
        · obtain rfl := Option.some.inj (ha.symm.trans h)
          exact hfull
        · dsimp only
          rw [hcur, hm.target, ht, hat]
          rfl
        · rw [live_of_none hp] at hh
          dsimp only
          rw [hcur]
          exact (hm.mapped h b).mpr (.inr hh)
      split
      · next hpre =>
        have hcur : s.assigner.current = PartitionIndex.empty s.assigner.targetBucketRowNumber := by
          unfold Assigner.current
          have hpre' : s.assigner.precomputedIndex = none := hpre
          rw [hpre']
          rfl
        have hm : Merged index s.assigner.current index := by
          rw [hcur]
          exact ⟨id, fun h b => ⟨.inl, fun hh => hh.elim id fun hh => (nomatch hh)⟩, fun b => rfl, rfl⟩
        exact ⟨hstepped index hm _ rfl rfl rfl, fun i h => by rw [Except.ok.inj h], rfl⟩
      · next notified hpre =>
        have hcur : s.assigner.current = notified := by
          unfold Assigner.current
          have hpre' : s.assigner.precomputedIndex = some notified := hpre
          rw [hpre']
          rfl
        have hlive := hi.live
        rw [live_of_none hp, hcur] at hlive
        have hagree : Agrees index notified := fun h b b' hb hb' =>
          hlive.agrees h b b' hb (hcs b' h ((hl.mapped h b').mp hb'))
        obtain ⟨idx, hmerge, hm⟩ := merge_spec hagree
        rw [hmerge]
        exact ⟨hstepped idx (hcur ▸ hm) _ rfl rfl rfl, fun i h => by rw [Except.ok.inj h], rfl⟩

theorem assignRows_spec (maxBuckets : Int) : ∀ (rows : List (Int × Oracle)) (idx : PartitionIndex),
    Grows idx (assignRows maxBuckets idx rows).1 ∧
      ∀ buckets, (assignRows maxBuckets idx rows).2 = .ok buckets →
        List.Forall₂ (fun row b => (assignRows maxBuckets idx rows).1.Mapped row.1 b) rows buckets := by
  intro rows
  induction rows with
  | nil =>
    intro idx
    refine ⟨.refl idx, fun buckets h => ?_⟩
    obtain rfl := Except.ok.inj h
    exact .nil
  | cons row rows ih =>
    intro idx
    obtain ⟨hash, o⟩ := row
    have hc : Assigned idx hash maxBuckets (idx.assign o hash maxBuckets).1
      (idx.assign o hash maxBuckets).2 := assign_cases o maxBuckets
    rw [assignRows]
    cases hr : idx.assign o hash maxBuckets with
    | mk idx₁ r =>
      rw [hr] at hc
      cases r with
      | error e => exact ⟨hc.grows, fun buckets h => (nomatch h)⟩
      | ok b =>
        obtain ⟨hg, hall⟩ := ih idx₁
        refine ⟨hc.grows.trans hg, fun buckets h => ?_⟩
        dsimp only at h ⊢
        cases hrest : (assignRows maxBuckets idx₁ rows).2 with
        | error e => rw [hrest] at h; exact nomatch h
        | ok rest =>
          rw [hrest] at h
          obtain rfl := Except.ok.inj h
          exact .cons (hg.mono hash b hc.mapped) (hall rest hrest)

theorem assignBatch_stepped (hi : Inv s) (rows : List (Int × Oracle)) :
    Stepped s ⟨s.files, (s.assigner.assignBatch s.files rows).1⟩ ∧
      ∀ buckets, (s.assigner.assignBatch s.files rows).2 = .ok buckets →
        List.Forall₂ (fun row b => (s.assigner.assignBatch s.files rows).1.live.Mapped row.1 b)
          rows buckets := by
  unfold assignBatch
  split
  · next hrows =>
    refine ⟨⟨hi, fun _ _ => id, fun _ _ => id⟩, fun buckets h => ?_⟩
    obtain rfl := Except.ok.inj h
    rw [hrows]
    exact .nil
  · obtain ⟨hs, hp, hmax⟩ := ensureFull_spec hi
    cases he : s.assigner.ensureFull s.files with
    | mk a r =>
      rw [he] at hs hp hmax
      cases r with
      | error e => exact ⟨hs, fun buckets h => (nomatch h)⟩
      | ok idx =>
        obtain ⟨hg, hall⟩ := assignRows_spec a.maxBuckets rows idx
        have hgrown := hs.inv.grow_full (hp idx rfl) hg
        exact ⟨⟨hgrown.inv, hs.files, fun h b hm => hgrown.live h b (hs.live h b hm)⟩, hall⟩

/-! ### Commits -/

section Commit

variable {files : List IndexEntry} {idx : PartitionIndex}

theorem mem_prepareCommit {e : IndexEntry} :
    e ∈ idx.prepareCommit.1 ↔ ∃ m, idx.bucketMaintainers.lookup e.bucket = some m ∧
      m.modified = true ∧ e.rowCount = m.hashes.length ∧ e.hashes = m.hashes := by
  unfold prepareCommit
  simp only [mem_map, mem_filter]
  constructor
  · rintro ⟨x, ⟨hx, hmod⟩, rfl⟩
    exact ⟨x.2, AList.mem_lookup_iff.mpr hx, hmod, rfl, rfl⟩
  · rintro ⟨m, hm, hmod, hc, hh⟩
    refine ⟨⟨e.bucket, m⟩, ⟨AList.mem_lookup_iff.mp hm, hmod⟩, ?_⟩
    obtain ⟨b, n, hs⟩ := e
    dsimp only at hc hh ⊢
    rw [hc, hh]

theorem nodup_prepareCommit : (idx.prepareCommit.1.map IndexEntry.bucket).Nodup := by
  unfold prepareCommit
  rw [map_map]
  exact (idx.bucketMaintainers.nodupKeys.sublist filter_sublist).imp id

theorem lookup_prepareCommit (b : Int) : idx.prepareCommit.2.bucketMaintainers.lookup b
    = (idx.bucketMaintainers.lookup b).map fun m => { m with modified := false } := by
  have h := AList.lookup_collect (fun m : Maintainer => { m with modified := false })
    idx.bucketMaintainers.nodupKeys ∅ b
  rw [AList.lookup_empty, Option.or_none] at h
  exact h

theorem inFile_commitFiles (hl : Live files idx) (b h : Int) :
    InFile (commitFiles files idx.prepareCommit.1) b h ↔ InFile files b h ∨ idx.Mapped h b := by
  have hnew : ∀ b h, InFile idx.prepareCommit.1 b h ↔
      ∃ m, idx.bucketMaintainers.lookup b = some m ∧ m.modified = true ∧ h ∈ m.hashes := by
    intro b h
    constructor
    · rintro ⟨e, he, rfl, hh⟩
      obtain ⟨m, hm, hmod, -, hhash⟩ := mem_prepareCommit.mp he
      exact ⟨m, hm, hmod, hhash ▸ hh⟩
    · rintro ⟨m, hm, hmod, hh⟩
      exact ⟨⟨b, m.hashes.length, m.hashes⟩, mem_prepareCommit.mpr ⟨m, hm, hmod, rfl, rfl⟩, rfl, hh⟩
  have hbuckets : b ∈ idx.prepareCommit.1.map IndexEntry.bucket ↔
      ∃ m, idx.bucketMaintainers.lookup b = some m ∧ m.modified = true := by
    constructor
    · intro hb
      obtain ⟨e, he, rfl⟩ := mem_map.mp hb
      obtain ⟨m, hm, hmod, -⟩ := mem_prepareCommit.mp he
      exact ⟨m, hm, hmod⟩
    · rintro ⟨m, hm, hmod⟩
      exact mem_map.mpr ⟨⟨b, m.hashes.length, m.hashes⟩, mem_prepareCommit.mpr ⟨m, hm, hmod, rfl, rfl⟩, rfl⟩
  have hold : InFile (files.filter fun e => decide (e.bucket ∉ idx.prepareCommit.1.map
      IndexEntry.bucket)) b h ↔ InFile files b h ∧ b ∉ idx.prepareCommit.1.map IndexEntry.bucket := by
    constructor
    · rintro ⟨e, he, rfl, hh⟩
      obtain ⟨hin, hb⟩ := mem_filter.mp he
      exact ⟨⟨e, hin, rfl, hh⟩, of_decide_eq_true hb⟩
    · rintro ⟨⟨e, he, rfl, hh⟩, hb⟩
      exact ⟨e, mem_filter.mpr ⟨he, decide_eq_true hb⟩, rfl, hh⟩
  unfold commitFiles
  rw [inFile_append, hold, hnew]
  constructor
  · rintro (⟨hin, -⟩ | ⟨m, hm, -, hh⟩)
    · exact .inl hin
    · exact .inr (((hl.maint.hashes b m hm).2 h).mp hh)
  · intro hh
    by_cases hb : ∃ m, idx.bucketMaintainers.lookup b = some m ∧ m.modified = true
    · obtain ⟨m, hm, hmod⟩ := hb
      have hmap : idx.Mapped h b := hh.elim (hl.complete b (by rw [hm]; rfl) h) id
      exact .inr ⟨m, hm, hmod, ((hl.maint.hashes b m hm).2 h).mpr hmap⟩
    · refine .inl ⟨hh.elim id fun hmap => ?_, fun hin => hb (hbuckets.mp hin)⟩
      obtain ⟨m, hm⟩ := Option.isSome_iff_exists.mp (hl.maint.owned h b hmap)
      exact hl.synced b m hm (Bool.eq_false_iff.mpr fun hmod => hb ⟨m, hm, hmod⟩) h hmap

theorem filesOk_commitFiles (hf : FilesOk files) (hl : Live files idx) :
    FilesOk (commitFiles files idx.prepareCommit.1) := by
  refine ⟨?_, fun e he => ?_, fun h b b' hb hb' => ?_⟩
  · unfold commitFiles
    rw [map_append, nodup_append]
    refine ⟨hf.buckets.sublist (filter_sublist.map _), nodup_prepareCommit, ?_⟩
    intro x hx y hy hxy
    obtain ⟨e, he, rfl⟩ := mem_map.mp hx
    exact of_decide_eq_true (mem_filter.mp he).2 (hxy ▸ hy)
  · rcases mem_append.mp he with he | he
    · exact hf.sets e (mem_filter.mp he).1
    · obtain ⟨m, hm, -, hc, hh⟩ := mem_prepareCommit.mp he
      exact ⟨hh ▸ (hl.maint.hashes e.bucket m hm).1, by rw [hc, hh]⟩
  · rw [inFile_commitFiles hl] at hb hb'
    rcases hb with hb | hb <;> rcases hb' with hb' | hb'
    · exact hf.disjoint h b b' hb hb'
    · exact (hl.agrees h b' b hb' hb).symm
    · exact hl.agrees h b b' hb hb'
    · exact hb.unique hb'

theorem live_prepareCommit (hl : Live files idx) :
    Live (commitFiles files idx.prepareCommit.1) idx.prepareCommit.2 := by
  have hmaint : idx.prepareCommit.2.MaintOk := by
    refine ⟨fun b m hb => ?_, fun h b hm => ?_⟩
    · rw [lookup_prepareCommit] at hb
      obtain ⟨m', hm', rfl⟩ := Option.map_eq_some_iff.mp hb
      exact hl.maint.hashes b m' hm'
    · rw [lookup_prepareCommit, Option.isSome_map]
      exact hl.maint.owned h b hm
  have hcount : idx.prepareCommit.2.CountOk :=
    ⟨hl.count.counted, hl.count.full, hl.count.known, hl.count.below, hl.count.ids⟩
  refine ⟨hcount, hmaint, fun b m _ _ h hm => ?_, fun b hb h hin => ?_, fun h b b' hm hin => ?_⟩
  · exact (inFile_commitFiles hl b h).mpr (.inr hm)
  · rw [lookup_prepareCommit, Option.isSome_map] at hb
    exact ((inFile_commitFiles hl b h).mp hin).elim (hl.complete b hb h) id
  · rcases (inFile_commitFiles hl b' h).mp hin with hin | hin
    · exact hl.agrees h b b' hm hin
    · exact Mapped.unique hm hin

end Commit

theorem commit_stepped (hi : Inv s) :
    Stepped s ⟨commitFiles s.files s.assigner.prepareCommitIndex.1, s.assigner.prepareCommitIndex.2⟩ ∧
      ∀ b h, s.assigner.prepareCommitIndex.2.live.Mapped h b →
        InFile (commitFiles s.files s.assigner.prepareCommitIndex.1) b h := by
  have hlive := hi.live
  have htarget := hi.target
  unfold prepareCommitIndex
  split
  · next idx hp =>
    have hcur : s.assigner.live = idx := by
      unfold Assigner.live
      rw [hp]
      rfl
    rw [hcur] at hlive htarget
    have hfull := hi.full idx hp
    have hfull' : ∀ b h, InFile (commitFiles s.files idx.prepareCommit.1) b h → idx.Mapped h b :=
      fun b h hin => ((inFile_commitFiles hlive b h).mp hin).elim (hfull b h) id
    refine ⟨⟨⟨filesOk_commitFiles hi.files hlive, live_prepareCommit hlive, fun c hc => ?_,
      fun i h => ?_, htarget⟩, fun b h hin => (inFile_commitFiles hlive b h).mpr (.inl hin),
      fun h b hm => ?_⟩, fun b h hm => (inFile_commitFiles hlive b h).mpr (.inr hm)⟩
    · obtain ⟨h₁, h₂, -⟩ := hi.cached c hc
      exact ⟨h₁, fun b h hin => (inFile_commitFiles hlive b h).mpr (.inl (h₂ b h hin)),
        fun h => absurd h (Option.some_ne_none _)⟩
    · obtain rfl := Option.some.inj h
      exact hfull'
    · rw [hcur] at hm
      exact hm
  · next hp =>
    rw [live_of_none hp] at hlive htarget
    split
    · next idx hpre =>
      have hcur : s.assigner.current = idx := by
        unfold Assigner.current
        rw [hpre]
        rfl
      rw [hcur] at hlive htarget
      have hcur' : ({ s.assigner with precomputedIndex := some idx.prepareCommit.2 } : Assigner).live
          = idx.prepareCommit.2 := by
        unfold Assigner.live
        rw [hp]
        rfl
      refine ⟨⟨⟨filesOk_commitFiles hi.files hlive, ?_, fun c hc => ?_, fun i h => ?_, ?_⟩, fun b h hin => (inFile_commitFiles hlive b h).mpr (.inl hin),
        fun h b hm => ?_⟩, fun b h hm => ?_⟩
      · dsimp only
        rw [hcur']
        exact live_prepareCommit hlive
      · obtain ⟨h₁, h₂, h₃⟩ := hi.cached c hc
        refine ⟨h₁, fun b h hin => (inFile_commitFiles hlive b h).mpr (.inl (h₂ b h hin)),
          fun _ b h hb hin => ?_⟩
        have hb' : idx.prepareCommit.2.bucketMaintainers.lookup b = none := hb
        rw [lookup_prepareCommit, Option.map_eq_none_iff] at hb'
        refine h₃ hp b h (hcur ▸ hb') (((inFile_commitFiles hlive b h).mp hin).resolve_right ?_)
        -- a bucket without maintainer has nothing in memory
        intro hm
        have hs := hlive.maint.owned h b hm
        rw [hb'] at hs
        exact absurd hs Bool.false_ne_true
      · exact absurd (hp.symm.trans h) (Option.some_ne_none _).symm
      · dsimp only
        rw [hcur']
        exact htarget
      · rw [live_of_none hp, hcur] at hm
        dsimp only
        rw [hcur']
        exact hm
      · dsimp only at hm
        rw [hcur'] at hm
        exact (inFile_commitFiles hlive b h).mpr (.inr hm)
    · next hpre =>
      have hcommit : commitFiles s.files [] = s.files := by
        simp [commitFiles]
      have hnone : ∀ h b, ¬ s.assigner.live.Mapped h b := by
        intro h b hm
        rw [live_of_none hp] at hm
        unfold Assigner.current at hm
        rw [hpre] at hm
        exact nomatch hm
      dsimp only
      rw [hcommit]
      exact ⟨⟨hi, fun _ _ => id, fun _ _ => id⟩, fun b h hm => absurd hm (hnone h b)⟩

/-! ### Runs -/

/-- while no full index is loaded, only the notified bucket's file is compared -/
def Respects (s : System) : Op → Prop
  | .notifyPrecomputedBatch bucket hashes =>
    s.assigner.partitionIndex = none → ∀ h ∈ hashes, ∀ b, InFile s.files b h → b = bucket
  | _ => True

def Op.IsRestart : Op → Prop
  | .restart _ => True
  | _ => False

theorem inv_fresh (hf : FilesOk files) (target maxBuckets : Int)
    (dataBuckets : List Int) : Inv ⟨files, .fresh target maxBuckets dataBuckets⟩ :=
  ⟨hf, live_empty files target, fun _ hc => (nomatch hc), fun _ h => (nomatch h), rfl⟩

theorem step_inv (hi : Inv s) {op : Op} (hr : Respects s op) (h : step s op = some s') :
    Inv s' ∧ (∀ b h, InFile s.files b h → InFile s'.files b h) ∧
      (¬ op.IsRestart → ∀ h b, s.MapsTo h b → s'.MapsTo h b) := by
  have hall : ∀ {s'}, Stepped s s' → Inv s' ∧ (∀ b h, InFile s.files b h → InFile s'.files b h) ∧
      (¬ op.IsRestart → ∀ h b, s.MapsTo h b → s'.MapsTo h b) := by
    intro s' hs
    exact ⟨hs.inv, hs.files, fun _ h b hm => hm.imp (hs.live h b) (hs.files b h)⟩
  cases op with
  | assignBatch rows =>
    obtain rfl := Option.some.inj h
    exact hall (assignBatch_stepped hi rows).1
  | notifyPrecomputedBatch bucket hashes =>
    cases hn : s.assigner.notifyPrecomputedBatch s.files bucket hashes with
    | error e =>
      simp only [step, hn] at h
      exact absurd h (Option.some_ne_none _).symm
    | ok a =>
      simp only [step, hn] at h
      obtain rfl := Option.some.inj h
      exact hall (notify_stepped hi hr hn)
  | prepareCommitIndex =>
    obtain rfl := Option.some.inj h
    exact hall (commit_stepped hi).1
  | restart dataBuckets =>
    obtain rfl := Option.some.inj h
    exact ⟨inv_fresh hi.files _ _ _, fun _ _ => id, fun hn => absurd trivial hn⟩

def Respectful : System → List Op → Prop
  | _, [] => True
  | s, op :: ops => Respects s op ∧ ∀ s', step s op = some s' → Respectful s' ops

theorem run_inv {ops : List Op} : ∀ {s s' : System}, Inv s → Respectful s ops →
    run s ops = some s' → Inv s' ∧ (∀ b h, InFile s.files b h → InFile s'.files b h) ∧
      ((∀ op ∈ ops, ¬ op.IsRestart) → ∀ h b, s.MapsTo h b → s'.MapsTo h b) := by
  induction ops with
  | nil =>
    intro s s' hi _ h
    obtain rfl := Option.some.inj h
    exact ⟨hi, fun _ _ => id, fun _ _ _ => id⟩
  | cons op ops ih =>
    intro s s' hi hr h
    obtain ⟨s₁, h₁, h⟩ := Option.bind_eq_some_iff.mp h
    obtain ⟨hi₁, hf₁, hm₁⟩ := step_inv hi hr.1 h₁
    obtain ⟨hi', hf', hm'⟩ := ih hi₁ (hr.2 s₁ h₁) h
    refine ⟨hi', fun b h hin => hf' b h (hf₁ b h hin), fun hn h b hm => ?_⟩
    obtain ⟨hn₁, hn'⟩ := forall_mem_cons.mp hn
    exact hm' hn' h b (hm₁ hn₁ h b hm)

theorem Inv.unique (hi : Inv s) {h b b' : Int} (hb : s.MapsTo h b) (hb' : s.MapsTo h b') : b = b' := by
  rcases hb with hb | hb <;> rcases hb' with hb' | hb'
  · exact hb.unique hb'
  · exact hi.live.agrees h b b' hb hb'
  · exact (hi.live.agrees h b' b hb' hb).symm
  · exact hi.files.disjoint h b b' hb hb'

/-- Dynamic buckets never split a key.  From index files that are disjoint sets, along every run of
assignments, notifications, commits and restarts in which no notification to a partial index names a
hash that the file of another bucket holds: a hash has one bucket, and keeps it, what is committed
over restarts and everything between restarts; an assignment answers that bucket; after a commit the
files hold the mapping; a counter is the number of hashes of its bucket; and a full bucket gets a new
hash only when ids and room have run out. -/
theorem buckets_never_split {files : List IndexEntry} {target maxBuckets : Int}
    {dataBuckets : List Int} {ops : List Op} (hf : FilesOk files)
    (hr : Respectful ⟨files, .fresh target maxBuckets dataBuckets⟩ ops)
    (hrun : run ⟨files, .fresh target maxBuckets dataBuckets⟩ ops = some s) :
    (∀ h b b', s.MapsTo h b → s.MapsTo h b' → b = b') ∧
    (∀ ops' s', Respectful s ops' → run s ops' = some s' → ∀ h b, s.MapsTo h b →
      InFile s.files b h ∨ (∀ op ∈ ops', ¬ op.IsRestart) →
      s'.MapsTo h b ∧ ∀ b', s'.MapsTo h b' → b' = b) ∧
    (∀ rows buckets s', (s.assigner.assignBatch s.files rows).2 = .ok buckets →
      step s (.assignBatch rows) = some s' →
      List.Forall₂ (fun row b => s'.MapsTo row.1 b) rows buckets) ∧
    (∀ s', step s .prepareCommitIndex = some s' → (s'.files.map IndexEntry.bucket).Nodup ∧
      ∀ b h, InFile s'.files b h ↔ s'.MapsTo h b) ∧
    (∀ b n, s.assigner.live.nonFullBuckets.lookup b = some n → n = s.assigner.live.held b) ∧
    ∀ a idx o h b idx', s.assigner.ensureFull s.files = (a, .ok idx) →
      idx.hashToBucket.lookup h = none → idx.assign o h a.maxBuckets = (idx', .ok b) →
      1 ≤ idx.targetBucketRowNumber → idx.targetBucketRowNumber ≤ idx.held b →
      (∀ i, 0 ≤ i → i < limitOf a.maxBuckets → i ∈ idx.allBuckets) ∧
        ∀ b' ∈ idx.allBuckets, idx.targetBucketRowNumber ≤ idx.held b' := by
  obtain ⟨hi, -, -⟩ := run_inv (inv_fresh hf target maxBuckets dataBuckets) hr hrun
  refine ⟨fun h b b' => hi.unique, fun ops' s' hr' hrun' h b hm hkeep => ?_,
    fun rows buckets s' hok hstep => ?_, fun s' hstep => ?_,
    fun b n hb => (hi.live.count.counted b n hb).1, fun a idx o h b idx' he hnew ha ht hge => ?_⟩
  · obtain ⟨hi', hfiles, hmaps⟩ := run_inv hi hr' hrun'
    have hm' : s'.MapsTo h b := hkeep.elim (fun hin => .inr (hfiles b h hin)) fun hn => hmaps hn h b hm
    exact ⟨hm', fun b' hb' => hi'.unique hb' hm'⟩
  · obtain rfl := Option.some.inj hstep
    exact ((assignBatch_stepped hi rows).2 buckets hok).imp fun row b hm => .inl hm
  · obtain rfl := Option.some.inj hstep
    obtain ⟨hs, hfiles⟩ := commit_stepped hi
    exact ⟨hs.inv.files.buckets, fun b h => ⟨.inr, fun hm => hm.elim (hfiles b h) id⟩⟩
  · obtain ⟨hs, hp, -⟩ := ensureFull_spec hi
    rw [he] at hs hp
    have hlive := hs.inv.live
    have hcur : a.live = idx := by
      unfold Assigner.live
      rw [hp idx rfl]
      rfl
    dsimp only at hlive
    rw [hcur] at hlive
    have hc : Assigned idx h a.maxBuckets (idx.assign o h a.maxBuckets).1
      (idx.assign o h a.maxBuckets).2 := assign_cases o a.maxBuckets
    rw [ha] at hc
    cases hc with
    | known hk => exact absurd (hnew.symm.trans hk) (Option.some_ne_none _).symm
    | entered _ _ _ _ _ hex => exact hex hlive.count ht hge

def committed : List IndexEntry := [⟨0, 1, [7]⟩]

theorem committed_ok : FilesOk committed := by
  refine ⟨by decide, by decide, fun h b b' hb hb' => ?_⟩
  obtain ⟨rfl, -⟩ := inFile_singleton.mp hb
  obtain ⟨rfl, -⟩ := inFile_singleton.mp hb'
  rfl

/-- the hash map walked in entry order, the first bucket drawn -/
def firstOracle : Oracle := ⟨id, List.Perm.refl, 0⟩

/-- a direct write to bucket 0, an assignment that upgrades the partial index, a commit, a restart -/
def writtenTwice : List Op :=
  [.notifyPrecomputedBatch 0 [7, 9], .assignBatch [(8, firstOracle), (9, firstOracle)],
    .prepareCommitIndex, .restart [0, 1]]

theorem buckets_never_split_restart : ∃ s, run ⟨committed, .fresh 2 (-1) [0]⟩ writtenTwice = some s ∧
      InFile s.files 0 9 ∧ InFile s.files 1 8 ∧ ∀ b, s.MapsTo 9 b → b = 0 := by
  have hfiles : (run ⟨committed, .fresh 2 (-1) [0]⟩ writtenTwice).map System.files
      = some [⟨1, 1, [8]⟩, ⟨0, 2, [9, 7]⟩] := by decide +kernel
  obtain ⟨s, hs, hsf⟩ := Option.map_eq_some_iff.mp hfiles
  have hresp : Respectful ⟨committed, .fresh 2 (-1) [0]⟩ writtenTwice := by
    refine ⟨fun _ h _ b hin => (inFile_singleton.mp hin).1.symm, fun _ _ => ⟨trivial, fun _ _ =>
      ⟨trivial, fun _ _ => ⟨trivial, fun _ _ => trivial⟩⟩⟩⟩
  have h9 : InFile s.files 0 9 := by rw [hsf]; exact ⟨⟨0, 2, [9, 7]⟩, by simp, rfl, by simp⟩
  have h8 : InFile s.files 1 8 := by rw [hsf]; exact ⟨⟨1, 1, [8]⟩, by simp, rfl, by simp⟩
  exact ⟨s, hs, h9, h8, fun b hb => (buckets_never_split committed_ok hresp hs).1 9 b 0 hb (.inr h9)⟩

/-- A partial index only restores the bucket it is notified of: hash 7, committed in bucket 0, is
accepted for bucket 1 and committed there too.  The next assigner cannot load the partition. -/
theorem partial_notification_splits : ∃ s, run ⟨committed, .fresh 2 (-1) [0]⟩
        [.notifyPrecomputedBatch 1 [7], .prepareCommitIndex, .restart [0, 1]] = some s ∧
      InFile s.files 0 7 ∧ InFile s.files 1 7 ∧
      (s.assigner.assignBatch s.files [(7, firstOracle)]).2
        = .error (.dataInvalid "HASH index assigns hash 7 to both buckets 0 and 1") := by
  have hrun : (run ⟨committed, .fresh 2 (-1) [0]⟩
      [.notifyPrecomputedBatch 1 [7], .prepareCommitIndex, .restart [0, 1]]).map
        (fun s => (s.files, (s.assigner.assignBatch s.files [(7, firstOracle)]).2))
      = some ([⟨0, 1, [7]⟩, ⟨1, 1, [7]⟩],
        .error (.dataInvalid "HASH index assigns hash 7 to both buckets 0 and 1")) := by
    decide +kernel
  obtain ⟨s, hs, hsf⟩ := Option.map_eq_some_iff.mp hrun
  obtain ⟨hfiles, hres⟩ := Prod.mk.inj hsf
  refine ⟨s, hs, ?_, ?_, hres⟩
  · rw [hfiles]
    exact ⟨⟨0, 1, [7]⟩, by simp, rfl, by simp⟩
  · rw [hfiles]
    exact ⟨⟨1, 1, [7]⟩, by simp, rfl, by simp⟩

end Paimon.Dynamic
