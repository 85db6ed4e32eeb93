import Paimon.Bucket.Dynamic

/-!
# What each operation does to a partition index

* `CountOk`: counters, known buckets and the id pointer agree with the map;
* `MaintOk`: the maintainers hold the hashes of their buckets;
* `Grows`: what `assign` and `notify_precomputed` have in common: both invariants are kept, no mapping is
  lost, a maintainer that changes becomes modified;
* `assign_cases`: what `assign` can do, with the reason a full bucket is used again;
* `merge_spec`, `load_spec`: the map of two indexes, and of the files.
-/

namespace Paimon.Dynamic

open List

variable {hashes : List Int}

namespace PartitionIndex

def Mapped (idx : PartitionIndex) (h b : Int) : Prop := idx.hashToBucket.lookup h = some b

def held (idx : PartitionIndex) (b : Int) : Nat :=
  idx.hashToBucket.census fun b' => decide (b' = b)

theorem Mapped.unique {idx : PartitionIndex} {h b b' : Int} (hb : idx.Mapped h b)
    (hb' : idx.Mapped h b') : b = b' := Option.some.inj (hb.symm.trans hb')

structure CountOk (idx : PartitionIndex) : Prop where
  counted : ∀ b n, idx.nonFullBuckets.lookup b = some n → n = idx.held b ∧ b ∈ idx.allBuckets
  full : ∀ b ∈ idx.allBuckets, idx.nonFullBuckets.lookup b = none →
    idx.targetBucketRowNumber ≤ idx.held b
  known : ∀ h b, idx.Mapped h b → b ∈ idx.allBuckets
  below : ∀ i, 0 ≤ i → i < idx.nextBucketId → i ∈ idx.allBuckets
  ids : ∀ b ∈ idx.bucketIds, b ∈ idx.allBuckets

structure MaintOk (idx : PartitionIndex) : Prop where
  hashes : ∀ b m, idx.bucketMaintainers.lookup b = some m →
    m.hashes.Nodup ∧ ∀ h, h ∈ m.hashes ↔ idx.Mapped h b
  owned : ∀ h b, idx.Mapped h b → (idx.bucketMaintainers.lookup b).isSome

structure Grows (idx idx' : PartitionIndex) : Prop where
  count : idx.CountOk → idx'.CountOk
  maint : idx.MaintOk → idx'.MaintOk
  mono : ∀ h b, idx.Mapped h b → idx'.Mapped h b
  clean : ∀ b m, idx'.bucketMaintainers.lookup b = some m → m.modified = false →
    idx.bucketMaintainers.lookup b = some m
  loaded : ∀ b, (idx.bucketMaintainers.lookup b).isSome → (idx'.bucketMaintainers.lookup b).isSome
  target : idx'.targetBucketRowNumber = idx.targetBucketRowNumber

theorem Grows.refl (idx : PartitionIndex) : Grows idx idx :=
  ⟨id, id, fun _ _ => id, fun _ _ h _ => h, fun _ => id, rfl⟩

theorem Grows.trans {a b c : PartitionIndex} (h : Grows a b) (h' : Grows b c) : Grows a c :=
  ⟨h'.count ∘ h.count, h'.maint ∘ h.maint, fun x y => h'.mono x y ∘ h.mono x y,
    fun x m hm hf => h.clean x m (h'.clean x m hm hf) hf, fun x => h'.loaded x ∘ h.loaded x,
    h'.target.trans h.target⟩

variable {idx idx' : PartitionIndex} {h b : Int} {m : AList fun _ : Int => Int}

theorem mapped_insert (hnew : m.lookup h = none) (h' b' : Int) :
    (m.insert h b).lookup h' = some b' ↔ m.lookup h' = some b' ∨ h' = h ∧ b' = b := by
  by_cases hh : h' = h
  · subst hh
    rw [AList.lookup_insert, hnew]
    simp [eq_comm]
  · rw [AList.lookup_insert_ne hh]
    simp [hh]

theorem held_insert (hnew : m.lookup h = none) (b' : Int) :
    ((m.insert h b).census fun x => decide (x = b')) =
      (m.census fun x => decide (x = b')) + if b' = b then 1 else 0 := by
  rw [AList.census_insert_new hnew]
  by_cases hb : b' = b
  · simp [hb]
  · simp [hb, Ne.symm hb]

theorem held_unknown (hc : idx.CountOk) (hb : b ∉ idx.allBuckets) : idx.held b = 0 := by
  refine AList.census_eq_zero fun k v hk => ?_
  have hv := hc.known k v hk
  exact decide_eq_false fun he => hb (he ▸ hv)

theorem CountOk.enter (hc : idx.CountOk) (hnew : idx.hashToBucket.lookup h = none)
    (hmap : idx'.hashToBucket = idx.hashToBucket.insert h b)
    (hall : ∀ x, x ∈ idx'.allBuckets ↔ x ∈ idx.allBuckets ∨ x = b)
    (hother : ∀ x, x ≠ b → idx'.nonFullBuckets.lookup x = idx.nonFullBuckets.lookup x)
    (hown : ∀ n, idx'.nonFullBuckets.lookup b = some n → n = idx.held b + 1)
    (hfull : idx'.nonFullBuckets.lookup b = none → idx.targetBucketRowNumber ≤ idx.held b + 1)
    (hnext : ∀ i, 0 ≤ i → i < idx'.nextBucketId → i ∈ idx'.allBuckets)
    (hids : ∀ x ∈ idx'.bucketIds, x ∈ idx.bucketIds ∨ x = b)
    (htarget : idx'.targetBucketRowNumber = idx.targetBucketRowNumber) : idx'.CountOk := by
  have hheld : ∀ x, idx'.held x = idx.held x + if x = b then 1 else 0 := by
    intro x
    unfold held
    rw [hmap, held_insert hnew]
  refine ⟨fun x n hx => ?_, fun x hx hn => ?_, fun h' b' hm => ?_, hnext, fun x hx => ?_⟩
  · by_cases hxb : x = b
    · subst hxb
      refine ⟨?_, (hall x).mpr (.inr rfl)⟩
      rw [hown n hx, hheld, if_pos rfl]
      push_cast
      rfl
    · rw [hother x hxb] at hx
      obtain ⟨hn, hk⟩ := hc.counted x n hx
      exact ⟨by rw [hheld, if_neg hxb, hn, Nat.add_zero], (hall x).mpr (.inl hk)⟩
  · rw [htarget, hheld]
    by_cases hxb : x = b
    · subst hxb
      rw [if_pos rfl]
      push_cast
      exact hfull hn
    · rw [hother x hxb] at hn
      rw [if_neg hxb, Nat.add_zero]
      exact hc.full x (((hall x).mp hx).resolve_right hxb) hn
  · unfold Mapped at hm
    rw [hmap, mapped_insert hnew] at hm
    rw [hall]
    rcases hm with hm | ⟨-, rfl⟩
    · exact .inl (hc.known h' b' hm)
    · exact .inr rfl
  · rw [hall]
    exact (hids x hx).imp (hc.ids x) id

/-! ### Maintainers -/

theorem lookup_notifyMaintainer (idx : PartitionIndex) (b h x : Int) :
    (idx.notifyMaintainer b h).bucketMaintainers.lookup x = if x = b then
          some (((idx.bucketMaintainers.lookup b).getD (.new [])).notifyNewRecord h)
        else idx.bucketMaintainers.lookup x := by
  unfold notifyMaintainer
  by_cases hx : x = b
  · subst hx
    simp [AList.lookup_insert]
  · simp [AList.lookup_insert_ne hx, hx]

theorem mem_notifyNewRecord (m : Maintainer) (h h' : Int) :
    h' ∈ (m.notifyNewRecord h).hashes ↔ h' ∈ m.hashes ∨ h' = h := by
  unfold Maintainer.notifyNewRecord
  split
  · next hm =>
    refine ⟨.inl, ?_⟩
    rintro (h₁ | rfl)
    · exact h₁
    · exact hm
  · simp [or_comm]

variable {m : Maintainer}

theorem nodup_notifyNewRecord (hm : m.hashes.Nodup) (h : Int) :
    (m.notifyNewRecord h).hashes.Nodup := by
  unfold Maintainer.notifyNewRecord
  split
  · exact hm
  · next hh => exact nodup_cons.mpr ⟨hh, hm⟩

theorem MaintOk.getD (hm : idx.MaintOk) (b : Int) :
    ((idx.bucketMaintainers.lookup b).getD (.new [])).hashes.Nodup ∧
      ∀ h, h ∈ ((idx.bucketMaintainers.lookup b).getD (.new [])).hashes ↔ idx.Mapped h b := by
  cases hb : idx.bucketMaintainers.lookup b with
  | some m => exact hm.hashes b m hb
  | none =>
    refine ⟨nodup_nil, fun h => ⟨fun hh => absurd hh (not_mem_nil), fun hh => ?_⟩⟩
    have hs := hm.owned h b hh
    rw [hb] at hs
    exact absurd hs Bool.false_ne_true

theorem MaintOk.notify (hm : idx.MaintOk)
    (hmap : ∀ h' b', idx'.Mapped h' b' ↔ idx.Mapped h' b' ∨ h' = h ∧ b' = b)
    (hmaint : idx'.bucketMaintainers = (idx.notifyMaintainer b h).bucketMaintainers) :
    idx'.MaintOk := by
  refine ⟨fun x m hx => ?_, fun h' b' hm' => ?_⟩
  · rw [hmaint, lookup_notifyMaintainer] at hx
    by_cases hxb : x = b
    · subst hxb
      rw [if_pos rfl] at hx
      obtain rfl := Option.some.inj hx
      obtain ⟨hnd, hmem⟩ := hm.getD x
      refine ⟨nodup_notifyNewRecord hnd h, fun h' => ?_⟩
      rw [mem_notifyNewRecord, hmem, hmap]
      simp
    · rw [if_neg hxb] at hx
      obtain ⟨hnd, hmem⟩ := hm.hashes x m hx
      refine ⟨hnd, fun h' => ?_⟩
      rw [hmem, hmap]
      simp [hxb]
  · rw [hmaint, lookup_notifyMaintainer]
    by_cases hb : b' = b
    · rw [if_pos hb]
      rfl
    · rw [if_neg hb]
      exact hm.owned h' b' (((hmap h' b').mp hm').resolve_right fun hh => hb hh.2)

variable {x : Int}

theorem notifyMaintainer_clean
    (hx : (idx.notifyMaintainer b h).bucketMaintainers.lookup x = some m)
    (hf : m.modified = false) : idx.bucketMaintainers.lookup x = some m := by
  rw [lookup_notifyMaintainer] at hx
  by_cases hxb : x = b
  · subst hxb
    rw [if_pos rfl] at hx
    have hm := Option.some.inj hx
    unfold Maintainer.notifyNewRecord at hm
    split at hm
    · next hin =>
      cases hl : idx.bucketMaintainers.lookup x with
      | none => rw [hl] at hin; exact absurd hin not_mem_nil
      | some m' => rw [hl] at hm; exact congrArg some hm
    · rw [← hm] at hf
      exact absurd hf (by simp)
  · rwa [if_neg hxb] at hx

theorem notifyMaintainer_loaded (hx : (idx.bucketMaintainers.lookup x).isSome) :
    ((idx.notifyMaintainer b h).bucketMaintainers.lookup x).isSome := by
  rw [lookup_notifyMaintainer]
  split
  · rfl
  · exact hx

theorem Grows.of_notify (hcount : idx.CountOk → idx'.CountOk)
    (hmap : ∀ h' b', idx'.Mapped h' b' ↔ idx.Mapped h' b' ∨ h' = h ∧ b' = b)
    (hmaint : idx'.bucketMaintainers = (idx.notifyMaintainer b h).bucketMaintainers)
    (htarget : idx'.targetBucketRowNumber = idx.targetBucketRowNumber) : Grows idx idx' :=
  ⟨hcount, fun hm => hm.notify hmap hmaint, fun h' b' hh => (hmap h' b').mpr (.inl hh),
    fun _ _ hx hf => notifyMaintainer_clean (hmaint ▸ hx) hf,
    fun _ hx => hmaint ▸ notifyMaintainer_loaded hx, htarget⟩

/-! ### `record_mapping` -/

theorem lookup_addBucket (idx : PartitionIndex) (b x : Int) : (idx.addBucket b).nonFullBuckets.lookup x
      = if x = b ∧ b ∉ idx.allBuckets then some 0 else idx.nonFullBuckets.lookup x := by
  unfold addBucket
  split
  · next hb => simp [hb]
  · next hb =>
    by_cases hx : x = b
    · subst hx
      simp [AList.lookup_insert, hb]
    · simp [AList.lookup_insert_ne hx, hx]

theorem mem_addBucket (idx : PartitionIndex) (b x : Int) :
    x ∈ (idx.addBucket b).allBuckets ↔ x ∈ idx.allBuckets ∨ x = b := by
  unfold addBucket
  split
  · next hb =>
    refine ⟨.inl, ?_⟩
    rintro (hx | rfl)
    · exact hx
    · exact hb
  · simp [or_comm]

theorem mem_bucketIds_addBucket (idx : PartitionIndex) {b x : Int} (hx : x ∈ (idx.addBucket b).bucketIds) :
    x ∈ idx.bucketIds ∨ x = b := by
  unfold addBucket at hx
  split at hx
  · exact .inl hx
  · simpa using hx

@[simp] theorem addBucket_hashToBucket (idx : PartitionIndex) (b : Int) :
    (idx.addBucket b).hashToBucket = idx.hashToBucket := by
  unfold addBucket; split <;> rfl

@[simp] theorem addBucket_next (idx : PartitionIndex) (b : Int) :
    (idx.addBucket b).nextBucketId = idx.nextBucketId := by
  unfold addBucket; split <;> rfl

@[simp] theorem addBucket_target (idx : PartitionIndex) (b : Int) :
    (idx.addBucket b).targetBucketRowNumber = idx.targetBucketRowNumber := by
  unfold addBucket; split <;> rfl

@[simp] theorem addBucket_maintainers (idx : PartitionIndex) (b : Int) :
    (idx.addBucket b).bucketMaintainers = idx.bucketMaintainers := by
  unfold addBucket; split <;> rfl

theorem bump_eq (idx : PartitionIndex) (b : Int) : ∃ m, idx.bump b = { idx with nonFullBuckets := m } ∧
      (∀ x, x ≠ b → m.lookup x = idx.nonFullBuckets.lookup x) ∧
      (∀ n, m.lookup b = some n → idx.nonFullBuckets.lookup b = some (n - 1)) ∧
      (m.lookup b = none → ∀ n, idx.nonFullBuckets.lookup b = some n →
        idx.targetBucketRowNumber ≤ n + 1) := by
  unfold bump
  split
  · next hb => exact ⟨idx.nonFullBuckets, rfl, fun _ _ => rfl, by simp [hb], by simp [hb]⟩
  · next count hb =>
    split
    · next hge =>
      exact ⟨_, rfl, fun x hx => AList.lookup_erase_ne hx, by simp, fun _ n hn => by
        obtain rfl := Option.some.inj (hb.symm.trans hn)
        exact hge⟩
    · next hlt =>
      exact ⟨_, rfl, fun x hx => AList.lookup_insert_ne hx, fun n hn => by
        rw [AList.lookup_insert] at hn
        rw [hb, ← Option.some.inj hn]
        simp, by simp [AList.lookup_insert]⟩

theorem recordMapping_cases (hr : idx.recordMapping h b = .ok idx') : idx.Mapped h b ∧ idx' = idx ∨
      idx.hashToBucket.lookup h = none ∧
        idx' = ({ idx with hashToBucket := idx.hashToBucket.insert h b }.addBucket b).bump b := by
  unfold recordMapping at hr
  split at hr
  · next previous hp =>
    split at hr
    · exact nomatch hr
    · next hb =>
      obtain rfl := Except.ok.inj hr
      exact .inl ⟨by rw [Mapped, hp]; simpa using hb, rfl⟩
  · next hn => exact .inr ⟨hn, (Except.ok.inj hr).symm⟩

structure Recorded (idx : PartitionIndex) (h b : Int) (idx' : PartitionIndex) : Prop where
  count : idx.CountOk → idx'.CountOk
  mapped : ∀ h' b', idx'.Mapped h' b' ↔ idx.Mapped h' b' ∨ h' = h ∧ b' = b
  maintainers : idx'.bucketMaintainers = idx.bucketMaintainers
  target : idx'.targetBucketRowNumber = idx.targetBucketRowNumber

theorem recordMapping_spec (hr : idx.recordMapping h b = .ok idx') : Recorded idx h b idx' := by
  rcases recordMapping_cases hr with ⟨hm, rfl⟩ | ⟨hnew, rfl⟩
  · refine ⟨id, fun h' b' => ⟨.inl, ?_⟩, rfl, rfl⟩
    rintro (hh | ⟨rfl, rfl⟩)
    · exact hh
    · exact hm
  · obtain ⟨m, hm, hother, hsome, hnone⟩ :=
      bump_eq ({ idx with hashToBucket := idx.hashToBucket.insert h b }.addBucket b) b
    rw [hm]
    have hown : ({ idx with hashToBucket := idx.hashToBucket.insert h b }.addBucket b).nonFullBuckets.lookup b
          = if b ∉ idx.allBuckets then some 0 else idx.nonFullBuckets.lookup b := by
      rw [lookup_addBucket]
      simp
    rw [hown] at hsome hnone
    refine ⟨fun hc => ?_, fun h' b' => ?_, by simp, by simp⟩
    · refine hc.enter (h := h) (b := b) hnew (by simp) (fun x => mem_addBucket _ b x)
        (fun x hx => ?_) (fun n hn => ?_) (fun hn => ?_) (fun i h₀ hi => ?_)
        (fun x hx => ?_) (by simp)
      · show m.lookup x = _
        rw [hother x hx, lookup_addBucket, if_neg fun hh => hx hh.1]
      · have hs := hsome n hn
        split at hs
        · next hb =>
          have := Option.some.inj hs
          rw [held_unknown hc hb]
          push_cast
          omega
        · have := (hc.counted b _ hs).1
          omega
      · have hs := hnone hn
        by_cases hb : b ∈ idx.allBuckets
        · rw [if_neg (not_not.mpr hb)] at hs
          cases hl : idx.nonFullBuckets.lookup b with
          | none =>
            have := hc.full b hb hl
            omega
          | some n =>
            have h₁ := hs n hl
            have h₂ := (hc.counted b n hl).1
            simp only [addBucket_target] at h₁
            omega
        · rw [if_pos hb] at hs
          have h₁ := hs 0 rfl
          simp only [addBucket_target] at h₁
          rw [held_unknown hc hb]
          push_cast
          omega
      · have hi' : i < idx.nextBucketId := by simpa using hi
        exact (mem_addBucket _ b i).mpr (.inl (hc.below i h₀ hi'))
      · have hids := mem_bucketIds_addBucket { idx with hashToBucket := idx.hashToBucket.insert h b } hx
        exact hids
    · unfold Mapped
      simp only [addBucket_hashToBucket]
      exact mapped_insert hnew h' b'

/-! ### `notify_precomputed` -/

theorem notifyOne_spec (hn : notifyOne b idx h = .ok idx') :
    Grows idx idx' ∧ ∀ h' b', idx'.Mapped h' b' ↔ idx.Mapped h' b' ∨ h' = h ∧ b' = b := by
  obtain ⟨idx₁, h₁, hn⟩ := bind_ok hn
  obtain rfl := Except.ok.inj hn
  have hr := recordMapping_spec h₁
  refine ⟨.of_notify (h := h) (b := b) (fun hc => ?_) hr.mapped ?_ hr.target, hr.mapped⟩
  · have hc₁ := hr.count hc
    exact ⟨hc₁.counted, hc₁.full, hc₁.known, hc₁.below, hc₁.ids⟩
  · show (idx₁.notifyMaintainer b h).bucketMaintainers = _
    unfold notifyMaintainer
    rw [hr.maintainers]

theorem notifyAll_spec : ∀ {idx idx' : PartitionIndex}, hashes.foldlM (notifyOne b) idx = .ok idx' →
      Grows idx idx' ∧ ∀ h' b', idx'.Mapped h' b' ↔ idx.Mapped h' b' ∨ h' ∈ hashes ∧ b' = b := by
  induction hashes with
  | nil =>
    intro idx idx' hn
    obtain rfl := Except.ok.inj hn
    exact ⟨.refl idx, by simp⟩
  | cons h hashes ih =>
    intro idx idx' hn
    obtain ⟨idx₁, h₁, hn⟩ := bind_ok hn
    obtain ⟨hg, hm⟩ := notifyOne_spec h₁
    obtain ⟨hg', hm'⟩ := ih hn
    refine ⟨hg.trans hg', fun h' b' => ?_⟩
    rw [hm', hm, mem_cons, or_assoc, ← or_and_right]

theorem notifyAll_other : ∀ {idx idx' : PartitionIndex},
    hashes.foldlM (notifyOne b) idx = .ok idx' → ∀ x, x ≠ b →
      idx'.bucketMaintainers.lookup x = idx.bucketMaintainers.lookup x := by
  induction hashes with
  | nil =>
    intro idx idx' hn x hx
    obtain rfl := Except.ok.inj hn
    rfl
  | cons h hashes ih =>
    intro idx idx' hn x hx
    obtain ⟨idx₁, h₁, hn⟩ := bind_ok hn
    obtain ⟨idx₂, h₂, h₁⟩ := bind_ok h₁
    obtain rfl := Except.ok.inj h₁
    rw [ih hn x hx, lookup_notifyMaintainer, if_neg hx, (recordMapping_spec h₂).maintainers]

theorem notifyPrecomputed_other (hn : idx.notifyPrecomputed b hashes = .ok idx')
    (hx : x ≠ b) : idx'.bucketMaintainers.lookup x = idx.bucketMaintainers.lookup x := by
  obtain ⟨_, -, hn⟩ := bind_ok hn
  exact notifyAll_other hn x hx

theorem notifyPrecomputed_spec (hn : idx.notifyPrecomputed b hashes = .ok idx') :
    Grows idx idx' ∧ ∀ h' b', idx'.Mapped h' b' ↔ idx.Mapped h' b' ∨ h' ∈ hashes ∧ b' = b := by
  obtain ⟨_, -, hn⟩ := bind_ok hn
  simpa using notifyAll_spec hn

/-! ### `merge` -/

/-- no hash of `other` is mapped elsewhere -/
def Agrees (idx other : PartitionIndex) : Prop :=
  ∀ h b b', other.Mapped h b → idx.Mapped h b' → b = b'

theorem recordMapping_ok (hb : ∀ b', idx.Mapped h b' → b = b') :
    ∃ idx', idx.recordMapping h b = .ok idx' := by
  unfold recordMapping
  split
  · next previous hp =>
    have hprev := hb previous hp
    rw [if_neg (not_not.mpr hprev.symm)]
    exact ⟨_, rfl⟩
  · exact ⟨_, rfl⟩

theorem recordAll_spec {l : List (Sigma fun _ : Int => Int)} : ∀ (idx : PartitionIndex),
    l.NodupKeys → (∀ e ∈ l, ∀ b', idx.Mapped e.1 b' → e.2 = b') →
      ∃ idx', l.foldlM (fun idx e => idx.recordMapping e.1 e.2) idx = .ok idx' ∧
        (idx.CountOk → idx'.CountOk) ∧
        (∀ h b, idx'.Mapped h b ↔ idx.Mapped h b ∨ (⟨h, b⟩ : Sigma fun _ : Int => Int) ∈ l) ∧
        idx'.bucketMaintainers = idx.bucketMaintainers ∧
        idx'.targetBucketRowNumber = idx.targetBucketRowNumber := by
  induction l with
  | nil => exact fun idx _ _ => ⟨idx, rfl, id, by simp, rfl, rfl⟩
  | cons e l ih =>
    intro idx hnd hok
    obtain ⟨he, hnd⟩ := nodupKeys_cons.mp hnd
    obtain ⟨hhead, htail⟩ := forall_mem_cons.mp hok
    obtain ⟨idx₁, h₁⟩ := recordMapping_ok hhead
    have hr := recordMapping_spec h₁
    -- the keys are distinct, so the hash just recorded does not come again
    have htail₁ : ∀ x ∈ l, ∀ b', idx₁.Mapped x.1 b' → x.2 = b' := by
      intro x hx b' hm
      rcases (hr.mapped x.1 b').mp hm with hm | ⟨hxe, -⟩
      · exact htail x hx b' hm
      · exact absurd (hxe ▸ mem_keys_of_mem hx) he
    obtain ⟨idx', h', hc, hm, hmt, ht⟩ := ih idx₁ hnd htail₁
    refine ⟨idx', ?_, hc ∘ hr.count, fun h b => ?_, hmt.trans hr.maintainers, ht.trans hr.target⟩
    · rw [foldlM_cons, h₁]
      exact h'
    · rw [hm, hr.mapped, mem_cons, or_assoc, Sigma.ext_iff]
      simp

structure Merged (idx other idx' : PartitionIndex) : Prop where
  count : idx.CountOk → idx'.CountOk
  mapped : ∀ h b, idx'.Mapped h b ↔ idx.Mapped h b ∨ other.Mapped h b
  maintainers : ∀ b, idx'.bucketMaintainers.lookup b
    = (other.bucketMaintainers.lookup b).or (idx.bucketMaintainers.lookup b)
  target : idx'.targetBucketRowNumber = idx.targetBucketRowNumber

variable {other : PartitionIndex}

theorem merge_spec (ha : Agrees idx other) :
    ∃ idx', idx.merge other = .ok idx' ∧ Merged idx other idx' := by
  obtain ⟨idx₁, h₁, hc, hm, hmt, ht⟩ := recordAll_spec idx other.hashToBucket.nodupKeys
    (fun e he b' hb' => ha e.1 e.2 b' (AList.mem_lookup_iff.mpr he) hb')
  have hmerge : idx.merge other = .ok { idx₁ with
      bucketMaintainers := other.bucketMaintainers.entries.foldl (fun ms e => ms.insert e.1 e.2)
        idx₁.bucketMaintainers } := by
    rw [merge, h₁]
    rfl
  refine ⟨_, hmerge, fun hc₀ => ?_, fun h b => ?_, fun b => ?_, ht⟩
  · have hc₁ := hc hc₀
    exact ⟨hc₁.counted, hc₁.full, hc₁.known, hc₁.below, hc₁.ids⟩
  · show idx₁.Mapped h b ↔ _
    rw [hm]
    exact or_congr Iff.rfl AList.mem_lookup_iff.symm
  · show (other.bucketMaintainers.entries.foldl (fun ms e => ms.insert e.1 e.2)
      idx₁.bucketMaintainers).lookup b = _
    have hcol := AList.lookup_collect id other.bucketMaintainers.nodupKeys idx₁.bucketMaintainers b
    rw [Option.map_id, hmt] at hcol
    rw [hmt]
    exact hcol

theorem Merged.maint (h : Merged idx other idx') (hi : idx.MaintOk)
    (ho : other.MaintOk) (hsub : ∀ h b, (other.bucketMaintainers.lookup b).isSome →
      idx.Mapped h b → other.Mapped h b) : idx'.MaintOk := by
  refine ⟨fun b m hb => ?_, fun h' b hm => ?_⟩
  · rw [h.maintainers] at hb
    cases hl : other.bucketMaintainers.lookup b with
    | some m' =>
      rw [hl] at hb
      obtain rfl := Option.some.inj hb
      obtain ⟨hnd, hmem⟩ := ho.hashes b m' hl
      refine ⟨hnd, fun h' => ?_⟩
      rw [hmem, h.mapped]
      exact ⟨.inr, fun hh => hh.elim (hsub h' b (by rw [hl]; rfl)) id⟩
    | none =>
      rw [hl, Option.none_or] at hb
      obtain ⟨hnd, hmem⟩ := hi.hashes b m hb
      refine ⟨hnd, fun h' => ?_⟩
      rw [hmem, h.mapped]
      refine ⟨.inl, fun hh => hh.elim id fun hh => ?_⟩
      have hs := ho.owned h' b hh
      rw [hl] at hs
      exact absurd hs Bool.false_ne_true
  · rw [h.maintainers, Option.isSome_or, Bool.or_eq_true]
    exact ((h.mapped h' b).mp hm).elim (fun hm => .inr (hi.owned h' b hm)) fun hm => .inl (ho.owned h' b hm)

/-! ### `assign` -/

theorem findRoom_spec (counts : AList fun _ : Int => Int) (target : Int) (l : List Int) :
    (∀ x ∈ (findRoom counts target l).1, x ∈ l ∧ target ≤ (counts.lookup x).getD 0) ∧
      (∀ b, (findRoom counts target l).2 = some b → b ∈ l ∧ (counts.lookup b).getD 0 < target) ∧
      ((findRoom counts target l).2 = none → ∀ x ∈ l, x ∈ (findRoom counts target l).1) := by
  induction l with
  | nil => simp [findRoom]
  | cons a l ih =>
    obtain ⟨ihf, ihs, ihn⟩ := ih
    rw [findRoom]
    split
    · next hlt => simp [hlt]
    · next hge =>
      refine ⟨fun x hx => ?_, fun b hb => ?_, fun hn x hx => ?_⟩
      · rcases mem_cons.mp hx with rfl | hx
        · exact ⟨mem_cons_self, not_lt.mp hge⟩
        · exact ⟨mem_cons_of_mem _ (ihf x hx).1, (ihf x hx).2⟩
      · exact ⟨mem_cons_of_mem _ (ihs b hb).1, (ihs b hb).2⟩
      · rcases mem_cons.mp hx with rfl | hx
        · exact mem_cons_self
        · exact mem_cons_of_mem _ (ihn hn x hx)

theorem skipUsed_spec (all : List Int) (limit : Int) : ∀ (fuel : Nat) (next : Int), limit - next ≤ fuel →
      (∀ i, next ≤ i → i < skipUsed all limit fuel next → i ∈ all) ∧
      (skipUsed all limit fuel next < limit → skipUsed all limit fuel next ∉ all) ∧
      next ≤ skipUsed all limit fuel next := by
  intro fuel
  induction fuel with
  | zero =>
    intro next hf
    rw [skipUsed]
    exact ⟨fun i h₁ h₂ => by omega, fun hlt => by omega, le_rfl⟩
  | succ fuel ih =>
    intro next hf
    rw [skipUsed]
    split
    · next hused =>
      obtain ⟨ih₁, ih₂, ih₃⟩ := ih (next + 1) (by omega)
      refine ⟨fun i h₁ h₂ => ?_, ih₂, by omega⟩
      rcases eq_or_lt_of_le h₁ with rfl | hlt
      · exact hused.2
      · exact ih₁ i hlt h₂
    · next hfree =>
      exact ⟨fun i h₁ h₂ => by omega, fun hlt hin => hfree ⟨hlt, hin⟩, le_rfl⟩

variable {full : List Int}

theorem CountOk.dropFull (hc : idx.CountOk)
    (hf : ∀ x ∈ full, ∃ n, idx.nonFullBuckets.lookup x = some n ∧ idx.targetBucketRowNumber ≤ n) :
    (idx.dropFull full).CountOk := by
  have hl : ∀ x, (idx.dropFull full).nonFullBuckets.lookup x
      = if x ∈ full then none else idx.nonFullBuckets.lookup x :=
    fun x => AList.lookup_eraseAll full _ x
  refine ⟨fun b n hb => ?_, fun b hb hn => ?_, hc.known, hc.below, hc.ids⟩
  · rw [hl] at hb
    split at hb
    · exact nomatch hb
    · exact hc.counted b n hb
  · rw [hl] at hn
    split at hn
    · next hin =>
      obtain ⟨n, hlook, hge⟩ := hf b hin
      exact (hc.counted b n hlook).1 ▸ hge
    · exact hc.full b hb hn

/-- why `assign` uses a full bucket again -/
def Exhausted (idx : PartitionIndex) (maxBuckets : Int) : Prop :=
  (∀ i, 0 ≤ i → i < limitOf maxBuckets → i ∈ idx.allBuckets) ∧
    ∀ b ∈ idx.allBuckets, idx.targetBucketRowNumber ≤ idx.held b

/-- what `assign` does to the index: a result that is an error, or the old bucket, changes no
mapping; a new hash enters one bucket -/
inductive Assigned (idx : PartitionIndex) (h maxBuckets : Int) :
    PartitionIndex → Result Int → Prop
  | known {b : Int} : idx.Mapped h b → Assigned idx h maxBuckets idx (.ok b)
  | failed {idx' : PartitionIndex} {e : Error} : (idx.CountOk → idx'.CountOk) →
      idx'.hashToBucket = idx.hashToBucket → idx'.bucketMaintainers = idx.bucketMaintainers →
      idx'.targetBucketRowNumber = idx.targetBucketRowNumber →
      Assigned idx h maxBuckets idx' (.error e)
  | entered {idx' : PartitionIndex} {b : Int} : idx.hashToBucket.lookup h = none →
      (idx.CountOk → idx'.CountOk) → idx'.hashToBucket = idx.hashToBucket.insert h b →
      idx'.bucketMaintainers = (idx.notifyMaintainer b h).bucketMaintainers →
      idx'.targetBucketRowNumber = idx.targetBucketRowNumber →
      (idx.CountOk → 1 ≤ idx.targetBucketRowNumber → idx.targetBucketRowNumber ≤ idx.held b →
        Exhausted idx maxBuckets) →
      Assigned idx h maxBuckets idx' (.ok b)

variable {maxBuckets : Int} {r : Result Int}

theorem Assigned.of_dropFull
    (hf : ∀ x ∈ full, ∃ n, idx.nonFullBuckets.lookup x = some n ∧ idx.targetBucketRowNumber ≤ n)
    (hnew : idx.hashToBucket.lookup h = none)
    (ha : Assigned (idx.dropFull full) h maxBuckets idx' r) : Assigned idx h maxBuckets idx' r := by
  cases ha with
  | known hk => exact absurd (hnew.symm.trans hk) (Option.some_ne_none _).symm
  | failed hc hm hmt ht => exact .failed (fun hc₀ => hc (hc₀.dropFull hf)) hm hmt ht
  | entered hn hc hm hmt ht hs =>
    exact .entered hn (fun hc₀ => hc (hc₀.dropFull hf)) hm hmt ht fun hc₀ h₁ h₂ => hs (hc₀.dropFull hf) h₁ h₂

theorem assignBeyond_cases (o : Oracle) (maxBuckets : Int) (hnew : idx.hashToBucket.lookup h = none)
    (hempty : ∀ x, idx.nonFullBuckets.lookup x = none) :
    Assigned idx h maxBuckets (idx.assignBeyond o h maxBuckets).1 (idx.assignBeyond o h maxBuckets).2 := by
  obtain ⟨hused, hfree, hle⟩ := skipUsed_spec idx.allBuckets (limitOf maxBuckets)
    (limitOf maxBuckets - idx.nextBucketId).toNat idx.nextBucketId (Int.self_le_toNat _)
  unfold assignBeyond
  dsimp only
  generalize skipUsed idx.allBuckets (limitOf maxBuckets)
    (limitOf maxBuckets - idx.nextBucketId).toNat idx.nextBucketId = next at hused hfree hle ⊢
  have hbelow : idx.CountOk → ∀ i, 0 ≤ i → i < next → i ∈ idx.allBuckets := by
    intro hc i h₀ hi
    by_cases hlt : i < idx.nextBucketId
    · exact hc.below i h₀ hlt
    · exact hused i (not_lt.mp hlt) hi
  have hpoint : idx.CountOk → { idx with nextBucketId := next }.CountOk :=
    fun hc => ⟨hc.counted, hc.full, hc.known, hbelow hc, hc.ids⟩
  by_cases hlt : next < limitOf maxBuckets
  · rw [if_pos hlt]
    have hun := hfree hlt
    refine .entered hnew (fun hc => ?_) rfl rfl rfl (fun hc h₁ h₂ => ?_)
    · refine hc.enter (h := h) (b := next) hnew rfl (fun x => ?_) (fun x hx => ?_) (fun n hn => ?_)
        (fun hn => ?_) (fun i h₀ hi => ?_) (fun x hx => ?_) rfl
      · exact mem_cons.trans or_comm
      · exact AList.lookup_insert_ne hx
      · have h₁ := Option.some.inj ((AList.lookup_insert _).symm.trans hn)
        rw [held_unknown hc hun, ← h₁]
        rfl
      · exact absurd ((AList.lookup_insert _).symm.trans hn) (Option.some_ne_none _)
      · have hi' : i < next + 1 := hi
        rcases eq_or_lt_of_le (Int.lt_add_one_iff.mp hi') with rfl | hlt'
        · exact mem_cons_self
        · exact mem_cons_of_mem _ (hbelow hc i h₀ hlt')
      · exact (mem_append.mp hx).imp id mem_singleton.mp
    · rw [held_unknown hc hun] at h₂
      exact absurd h₂ (by push_cast; omega)
  · rw [if_neg hlt]
    by_cases hmax : maxBuckets = -1
    · rw [if_pos hmax]
      exact .failed hpoint rfl rfl rfl
    · rw [if_neg hmax]
      cases hd : idx.bucketIds[o.draw % idx.bucketIds.length]? with
      | none => exact .failed hpoint rfl rfl rfl
      | some b =>
        have hb : b ∈ idx.bucketIds := mem_of_getElem? hd
        refine .entered hnew (fun hc => ?_) rfl rfl rfl (fun hc _ _ => ⟨fun i h₀ hi => ?_, ?_⟩)
        · refine (hpoint hc).enter (h := h) (b := b) hnew rfl (fun x => ⟨.inl, ?_⟩)
            (fun x _ => rfl) (fun n hn => ?_) (fun _ => ?_) (hbelow hc) (fun x hx => .inl hx) rfl
          · rintro (hx | rfl)
            · exact hx
            · exact hc.ids x hb
          · exact absurd ((hempty b).symm.trans hn) (Option.some_ne_none _).symm
          · exact Int.le_add_one (hc.full b (hc.ids b hb) (hempty b))
        · exact hbelow hc i h₀ (lt_of_lt_of_le hi (not_lt.mp hlt))
        · exact fun b' hb' => hc.full b' hb' (hempty b')

theorem assign_cases (o : Oracle) (maxBuckets : Int) :
    Assigned idx h maxBuckets (idx.assign o h maxBuckets).1 (idx.assign o h maxBuckets).2 := by
  unfold assign
  cases hl : idx.hashToBucket.lookup h with
  | some b => exact .known hl
  | none =>
    have hkeys : ∀ x, x ∈ o.order idx.nonFullBuckets.keys ↔ ∃ n, idx.nonFullBuckets.lookup x = some n := by
      intro x
      rw [(o.perm _).mem_iff, ← AList.mem_keys, ← AList.lookup_isSome, Option.isSome_iff_exists]
    obtain ⟨hfull, hfound, hnone⟩ := findRoom_spec idx.nonFullBuckets idx.targetBucketRowNumber
      (o.order idx.nonFullBuckets.keys)
    dsimp only
    generalize findRoom idx.nonFullBuckets idx.targetBucketRowNumber
      (o.order idx.nonFullBuckets.keys) = walk at hfull hfound hnone ⊢
    obtain ⟨full, found⟩ := walk
    dsimp only at hfull hfound hnone ⊢
    have hreached : ∀ x ∈ full,
        ∃ n, idx.nonFullBuckets.lookup x = some n ∧ idx.targetBucketRowNumber ≤ n := by
      intro x hx
      obtain ⟨hin, hge⟩ := hfull x hx
      obtain ⟨n, hn⟩ := (hkeys x).mp hin
      exact ⟨n, hn, by simpa [hn] using hge⟩
    cases found with
    | none =>
      refine .of_dropFull hreached hl (assignBeyond_cases o maxBuckets hl fun x => ?_)
      show (full.foldl (fun m b => m.erase b) idx.nonFullBuckets).lookup x = none
      rw [AList.lookup_eraseAll]
      by_cases hx : x ∈ full
      · rw [if_pos hx]
      · rw [if_neg hx, Option.eq_none_iff_forall_ne_some]
        exact fun n hn => hx (hnone rfl x ((hkeys x).mpr ⟨n, hn⟩))
    | some b =>
      obtain ⟨hin, hlt⟩ := hfound b rfl
      obtain ⟨n, hn⟩ := (hkeys b).mp hin
      rw [hn, Option.getD_some] at hlt
      have hb : b ∉ full := by
        intro hb
        obtain ⟨n', hn', hge⟩ := hreached b hb
        obtain rfl := Option.some.inj (hn.symm.trans hn')
        omega
      have hlook : ∀ x, (full.foldl (fun m b => m.erase b) (idx.nonFullBuckets.insert b
          ((idx.nonFullBuckets.lookup b).getD 0 + 1))).lookup x
          = if x = b then some (n + 1) else (idx.dropFull full).nonFullBuckets.lookup x := by
        intro x
        show _ = if x = b then _ else (full.foldl (fun m b => m.erase b) idx.nonFullBuckets).lookup x
        rw [AList.lookup_eraseAll, AList.lookup_eraseAll, hn, Option.getD_some]
        by_cases hx : x = b
        · rw [if_pos hx, hx, if_neg hb, AList.lookup_insert]
        · rw [if_neg hx, AList.lookup_insert_ne hx]
      refine .entered hl (fun hc => ?_) rfl rfl rfl (fun hc _ hge => ?_)
      · refine (hc.dropFull hreached).enter (h := h) (b := b) hl rfl (fun x => ⟨.inl, ?_⟩)
          (fun x hx => ?_) (fun n' hn' => ?_) (fun hn' => ?_) hc.below (fun x hx => .inl hx) rfl
        · rintro (hx | rfl)
          · exact hx
          · exact (hc.counted x n hn).2
        · exact (hlook x).trans (if_neg hx)
        · have h₁ := (hlook b).symm.trans hn'
          rw [if_pos rfl] at h₁
          rw [← Option.some.inj h₁]
          exact congrArg (· + 1) (hc.counted b n hn).1
        · have h₁ := (hlook b).symm.trans hn'
          rw [if_pos rfl] at h₁
          exact absurd h₁ (Option.some_ne_none _)
      · rw [← (hc.counted b n hn).1] at hge
        omega

theorem Assigned.grows (ha : Assigned idx h maxBuckets idx' r) : Grows idx idx' := by
  cases ha with
  | known => exact .refl idx
  | failed hc hm hmt ht =>
    have hmap : ∀ h b, idx'.Mapped h b ↔ idx.Mapped h b := by
      intro h b
      unfold Mapped
      rw [hm]
    refine ⟨hc, fun hmo => ⟨fun b m hb => ?_, fun h b hh => ?_⟩, fun h b => (hmap h b).mpr,
      fun b m hb _ => hmt ▸ hb, fun b hb => hmt ▸ hb, ht⟩
    · obtain ⟨hnd, hmem⟩ := hmo.hashes b m (hmt ▸ hb)
      exact ⟨hnd, fun h => (hmem h).trans (hmap h b).symm⟩
    · exact hmt ▸ hmo.owned h b ((hmap h b).mp hh)
  | @entered _ b hn hc hm hmt ht =>
    refine .of_notify hc (fun h' b' => ?_) hmt ht
    unfold Mapped
    rw [hm]
    exact mapped_insert hn h' b'

theorem Assigned.mapped (ha : Assigned idx h maxBuckets idx' (.ok b)) : idx'.Mapped h b := by
  cases ha with
  | known hk => exact hk
  | entered hn hc hm =>
    unfold Mapped
    rw [hm, AList.lookup_insert]

end PartitionIndex

/-! ### `load` -/

def InFile (files : List IndexEntry) (b h : Int) : Prop :=
  ∃ e ∈ files, e.bucket = b ∧ h ∈ e.hashes

/-- one file per bucket, a set in each, no hash in two -/
structure FilesOk (files : List IndexEntry) : Prop where
  buckets : (files.map IndexEntry.bucket).Nodup
  sets : ∀ e ∈ files, e.hashes.Nodup ∧ e.rowCount = e.hashes.length
  disjoint : ∀ h b b', InFile files b h → InFile files b' h → b = b'

variable {b h : Int}

theorem inFile_append {files new : List IndexEntry} :
    InFile (files ++ new) b h ↔ InFile files b h ∨ InFile new b h := by
  simp only [InFile, mem_append, or_and_right, exists_or]

variable {e : IndexEntry}

theorem inFile_singleton : InFile [e] b h ↔ e.bucket = b ∧ h ∈ e.hashes := by
  simp [InFile]

theorem FilesOk.sublist {files files' : List IndexEntry} (hf : FilesOk files)
    (hs : files'.Sublist files) : FilesOk files' := by
  have hin : ∀ b h, InFile files' b h → InFile files b h :=
    fun b h ⟨e, he, hb⟩ => ⟨e, hs.subset he, hb⟩
  exact ⟨hf.buckets.sublist (hs.map _), fun e he => hf.sets e (hs.subset he),
    fun h b b' h₁ h₂ => hf.disjoint h b b' (hin b h h₁) (hin b' h h₂)⟩

namespace PartitionIndex

variable {idx idx' : PartitionIndex} {h b : Int}

theorem loadHashes_spec (b : Int) : ∀ (m : AList fun _ : Int => Int),
    hashes.Nodup → (∀ h ∈ hashes, m.lookup h = none) → ∃ m', hashes.foldlM (loadHash b) m = .ok m' ∧
        (∀ h' b', m'.lookup h' = some b' ↔ m.lookup h' = some b' ∨ h' ∈ hashes ∧ b' = b) ∧
        ∀ b', (m'.census fun x => decide (x = b'))
          = (m.census fun x => decide (x = b')) + if b' = b then hashes.length else 0 := by
  induction hashes with
  | nil => exact fun m _ _ => ⟨m, rfl, by simp, by simp⟩
  | cons h hashes ih =>
    intro m hnd hnew
    obtain ⟨hh, hnd⟩ := nodup_cons.mp hnd
    obtain ⟨hnone, hnew⟩ := forall_mem_cons.mp hnew
    have h₁ : loadHash b m h = .ok (m.insert h b) := by
      unfold loadHash
      rw [hnone]
    have hnew' : ∀ x ∈ hashes, (m.insert h b).lookup x = none := by
      intro x hx
      have hne : x ≠ h := fun he => hh (he ▸ hx)
      rw [AList.lookup_insert_ne hne]
      exact hnew x hx
    obtain ⟨m', h', hm, hc⟩ := ih (m.insert h b) hnd hnew'
    refine ⟨m', ?_, fun x y => ?_, fun y => ?_⟩
    · rw [foldlM_cons, h₁]
      exact h'
    · rw [hm, mapped_insert hnone, mem_cons, or_assoc, ← or_and_right]
    · rw [hc, held_insert hnone, length_cons]
      split <;> omega

structure LoadOk (done : List IndexEntry) (st : LoadState) : Prop where
  mapped : ∀ h b, st.hashToBucket.lookup h = some b ↔ InFile done b h
  files : ∀ b hs, st.bucketHashes.lookup b = some hs ↔ ∃ e ∈ done, e.bucket = b ∧ e.hashes = hs
  census : ∀ b, (st.hashToBucket.census fun x => decide (x = b))
    = ((st.bucketHashes.lookup b).map List.length).getD 0

theorem LoadOk.loadEntry {done : List IndexEntry} {st st' : LoadState}
    (h : LoadOk done st) (hf : FilesOk (done ++ [e])) (hl : loadEntry st e = .ok st') :
    LoadOk (done ++ [e]) st' := by
  unfold PartitionIndex.loadEntry at hl
  split at hl
  · exact nomatch hl
  split at hl
  · exact nomatch hl
  next hfree =>
  split at hl
  · exact nomatch hl
  have hfree : st.bucketHashes.lookup e.bucket = none := Option.not_isSome_iff_eq_none.mp hfree
  have hin : e ∈ done ++ [e] := by simp
  -- a hash of this file in an earlier one would be in two buckets
  have hbucket : ∀ x, InFile done e.bucket x → False := by
    rintro x ⟨e', he', hb, -⟩
    have hsome := (h.files e.bucket e'.hashes).mpr ⟨e', he', hb, rfl⟩
    exact Option.some_ne_none _ (hsome.symm.trans hfree)
  have hnew : ∀ x ∈ e.hashes, st.hashToBucket.lookup x = none := by
    intro x hx
    rw [Option.eq_none_iff_forall_ne_some]
    intro b hb
    have hold := (h.mapped x b).mp hb
    have heq := hf.disjoint x b e.bucket (inFile_append.mpr (.inl hold))
      (inFile_append.mpr (.inr (inFile_singleton.mpr ⟨rfl, hx⟩)))
    exact hbucket x (heq ▸ hold)
  obtain ⟨m', hm', hmap, hcen⟩ := loadHashes_spec e.bucket st.hashToBucket (hf.sets e hin).1 hnew
  rw [hm'] at hl
  obtain rfl := Except.ok.inj hl
  refine ⟨fun x b => ?_, fun b hs => ?_, fun b => ?_⟩
  · rw [hmap, h.mapped, inFile_append, inFile_singleton, and_comm, eq_comm]
  · show (st.bucketHashes.insert e.bucket e.hashes).lookup b = some hs ↔ _
    by_cases hb : b = e.bucket
    · subst hb
      rw [AList.lookup_insert, Option.some_inj]
      constructor
      · exact fun hh => ⟨e, hin, rfl, hh⟩
      · rintro ⟨e', he', hb, hh⟩
        rcases mem_append.mp he' with he' | he'
        · have hsome := (h.files e.bucket e'.hashes).mpr ⟨e', he', hb, rfl⟩
          exact absurd (hsome.symm.trans hfree) (Option.some_ne_none _)
        · exact mem_singleton.mp he' ▸ hh
    · rw [AList.lookup_insert_ne hb, h.files]
      constructor
      · rintro ⟨e', he', hh⟩
        exact ⟨e', mem_append_left _ he', hh⟩
      · rintro ⟨e', he', hb', hh⟩
        rcases mem_append.mp he' with he' | he'
        · exact ⟨e', he', hb', hh⟩
        · exact absurd (mem_singleton.mp he' ▸ hb').symm hb
  · show (m'.census _) = (((st.bucketHashes.insert e.bucket e.hashes).lookup b).map _).getD 0
    rw [hcen, h.census]
    by_cases hb : b = e.bucket
    · subst hb
      rw [AList.lookup_insert, hfree, if_pos rfl]
      simp
    · rw [AList.lookup_insert_ne hb, if_neg hb, Nat.add_zero]

variable {entries : List IndexEntry}

theorem loadEntries_ok : ∀ {done : List IndexEntry} {st st' : LoadState},
    LoadOk done st → FilesOk (done ++ entries) → entries.foldlM loadEntry st = .ok st' →
      LoadOk (done ++ entries) st' := by
  induction entries with
  | nil =>
    intro done st st' h hf hl
    obtain rfl := Except.ok.inj hl
    simpa using h
  | cons e entries ih =>
    intro done st st' h hf hl
    obtain ⟨st₁, h₁, hl⟩ := bind_ok hl
    rw [append_cons] at hf ⊢
    exact ih (h.loadEntry (hf.sublist (sublist_append_left _ _)) h₁) hf hl

structure Loaded (entries : List IndexEntry) (idx : PartitionIndex) : Prop where
  count : idx.CountOk
  maint : idx.MaintOk
  mapped : ∀ h b, idx.Mapped h b ↔ InFile entries b h
  buckets : ∀ b, (idx.bucketMaintainers.lookup b).isSome ↔ b ∈ entries.map IndexEntry.bucket

theorem load_spec {target : Int} (hf : FilesOk entries)
    (hl : load entries target = .ok idx) :
    Loaded entries idx ∧ idx.targetBucketRowNumber = target := by
  obtain ⟨st, hst, hl⟩ := bind_ok hl
  obtain rfl := Except.ok.inj hl
  have hempty : LoadOk [] ⟨∅, ∅⟩ := ⟨by simp [InFile], by simp, by simp⟩
  have hok : LoadOk entries st := loadEntries_ok hempty hf hst
  have hcount : ∀ b, (countersBelow st.bucketHashes target).lookup b
      = ((st.bucketHashes.lookup b).filter fun hs => decide ((hs.length : Int) < target)).map
        fun hs => (hs.length : Int) := by
    intro b
    unfold countersBelow
    rw [AList.lookup_collect (fun hs : List Int => (hs.length : Int))
        (st.bucketHashes.nodupKeys.sublist filter_sublist),
      AList.dlookup_filter st.bucketHashes.nodupKeys (fun hs => decide ((hs.length : Int) < target))]
    simp [AList.lookup]
  have hmaint : ∀ b, (st.bucketHashes.entries.foldl
      (fun (ms : AList fun _ : Int => Maintainer) e => ms.insert e.1 (.new e.2)) ∅).lookup b
      = (st.bucketHashes.lookup b).map Maintainer.new := by
    intro b
    rw [AList.lookup_collect Maintainer.new st.bucketHashes.nodupKeys]
    simp [AList.lookup]
  have hheld : ∀ b hs, st.bucketHashes.lookup b = some hs →
      (st.hashToBucket.census fun x => decide (x = b)) = hs.length := by
    intro b hs hb
    rw [hok.census, hb]
    rfl
  have hkeys : ∀ b, b ∈ st.bucketHashes.keys ↔ ∃ hs, st.bucketHashes.lookup b = some hs := by
    intro b
    rw [← AList.mem_keys, ← AList.lookup_isSome, Option.isSome_iff_exists]
  have hmapped : ∀ h b, st.hashToBucket.lookup h = some b →
      ∃ hs, st.bucketHashes.lookup b = some hs ∧ h ∈ hs := by
    intro h b hh
    obtain ⟨e, he, hb, hmem⟩ := (hok.mapped h b).mp hh
    exact ⟨e.hashes, (hok.files b e.hashes).mpr ⟨e, he, hb, rfl⟩, hmem⟩
  refine ⟨⟨⟨fun b n hb => ?_, fun b hb hn => ?_, fun h b hh => ?_, fun i h₀ hi => ?_, fun b => id⟩,
    ⟨fun b m hb => ?_, fun h b hh => ?_⟩, hok.mapped, fun b => ?_⟩, rfl⟩
  · rw [hcount] at hb
    obtain ⟨hs, hfil, rfl⟩ := Option.map_eq_some_iff.mp hb
    have hlook := (Option.filter_eq_some_iff.mp hfil).1
    exact ⟨congrArg Nat.cast (hheld b hs hlook).symm, (hkeys b).mpr ⟨hs, hlook⟩⟩
  · obtain ⟨hs, hlook⟩ := (hkeys b).mp hb
    rw [hcount, hlook] at hn
    have hge : ¬ (hs.length : Int) < target := by
      intro hlt
      simp [Option.filter, hlt] at hn
    show target ≤ ((st.hashToBucket.census _ : Nat) : Int)
    rw [hheld b hs hlook]
    omega
  · obtain ⟨hs, hlook, -⟩ := hmapped h b hh
    exact (hkeys b).mpr ⟨hs, hlook⟩
  · exact absurd hi (by show ¬ i < 0; omega)
  · rw [hmaint] at hb
    obtain ⟨hs, hlook, rfl⟩ := Option.map_eq_some_iff.mp hb
    refine ⟨nodup_dedup hs, fun h => mem_dedup.trans ⟨fun hh => ?_, fun hh => ?_⟩⟩
    · obtain ⟨e, he, heb, rfl⟩ := (hok.files b hs).mp hlook
      exact (hok.mapped h b).mpr ⟨e, he, heb, hh⟩
    · obtain ⟨hs', hlook', hmem⟩ := hmapped h b hh
      obtain rfl := Option.some.inj (hlook.symm.trans hlook')
      exact hmem
  · obtain ⟨hs, hlook, -⟩ := hmapped h b hh
    rw [hmaint, hlook]
    rfl
  · rw [hmaint, Option.isSome_map, Option.isSome_iff_exists]
    constructor
    · rintro ⟨hs, hlook⟩
      obtain ⟨e, he, hb, -⟩ := (hok.files b hs).mp hlook
      exact mem_map.mpr ⟨e, he, hb⟩
    · intro hb
      obtain ⟨e, he, hb⟩ := mem_map.mp hb
      exact ⟨e.hashes, (hok.files b e.hashes).mpr ⟨e, he, hb, rfl⟩⟩

end PartitionIndex

end Paimon.Dynamic
