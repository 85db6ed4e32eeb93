import Paimon.Spec.Manifest

/-!
# Time travel by watermark

`later_or_equal_watermark` of `table/snapshot_manager.rs`: a binary search over the ids in the snapshot
directory, where any snapshot may lack a watermark.  A probe without one walks back to the nearest snapshot
in the interval that has one.

* `Snapshots m snaps`: the directory of `m` holds the snapshots `snaps`, and the watermarks there are do not
  decrease;
* `walkBack_spec`: where a probe ends;
* `LaterInv`, `laterLoop_lands`: what the search knows, and where it stops;
* `watermark_travel_first`: the result is the first snapshot that reaches the watermark.
-/

namespace Paimon.Watermark

open List

def i64Min : Int := -9223372036854775808

structure Snapshot where
  id : Int
  watermark : Option Int
deriving DecidableEq, Repr

/-- `i64::MIN` stands for no watermark -/
def Snapshot.effectiveWatermark (s : Snapshot) : Option Int := s.watermark.filter fun w => w ≠ i64Min

/-- the manager, by the results of the two requests the search makes -/
structure SnapshotManager where
  listAllIds : Result (List Int)
  getSnapshot : Int → Result Snapshot

/-- a loop is still running after the turns it was given -/
def running {α : Type} : Result α := .error (.unexpectedError "still running")

namespace SnapshotManager

/-- `get_snapshot(ids[i])` -/
def snapshotAt (m : SnapshotManager) (ids : List Int) (i : Nat) : Result Snapshot :=
  match ids[i]? with
  | some id => m.getSnapshot id
  | none => .error (.unexpectedError "index out of bounds")

/-- the first position from `lo` on that has a watermark -/
def firstLoop (m : SnapshotManager) (ids : List Int) : Nat → Nat → Result (Option (Nat × Snapshot × Int))
  | 0, _ => running
  | fuel + 1, lo =>
    if ids.length ≤ lo then .ok none
    else
      m.snapshotAt ids lo >>= fun snapshot =>
        match snapshot.effectiveWatermark with
        | some w => .ok (some (lo, snapshot, w))
        | none => firstLoop m ids fuel (lo + 1)

/-- back from `pos` over snapshots without a watermark, not beyond `lo` -/
def walkBack (m : SnapshotManager) (ids : List Int) (lo : Nat) : Nat → Result (Nat × Snapshot)
  | 0 => m.snapshotAt ids 0 >>= fun snapshot => .ok (0, snapshot)
  | pos + 1 =>
    m.snapshotAt ids (pos + 1) >>= fun snapshot =>
      if snapshot.effectiveWatermark.isNone ∧ lo < pos + 1 then walkBack m ids lo pos
      else .ok (pos + 1, snapshot)

/-- `while lo <= hi` -/
def laterLoop (m : SnapshotManager) (ids : List Int) (watermark : Int) :
    Nat → Nat → Nat → Option Snapshot → Result (Option Snapshot)
  | 0, _, _, _ => running
  | fuel + 1, lo, hi, result =>
    if lo ≤ hi then
      let mid := lo + (hi - lo) / 2
      m.walkBack ids lo mid >>= fun (pos, snapshot) =>
        match snapshot.effectiveWatermark with
        | none => laterLoop m ids watermark fuel (mid + 1) hi result
        | some w =>
          if watermark ≤ w then
            if pos = 0 then .ok (some snapshot)
            else laterLoop m ids watermark fuel lo (pos - 1) (some snapshot)
          else laterLoop m ids watermark fuel (mid + 1) hi result
    else .ok result

def laterOrEqualWatermark (m : SnapshotManager) (watermark : Int) : Result (Option Snapshot) :=
  m.listAllIds >>= fun ids =>
    if ids.isEmpty then .ok none
    else
      m.firstLoop ids (ids.length + 1) 0 >>= fun
        | none => .ok none
        | some (lo, first, firstWatermark) =>
          if watermark ≤ firstWatermark then .ok (some first)
          else m.laterLoop ids watermark (ids.length + 1) lo (ids.length - 1) none

end SnapshotManager

/-! ## what the directory holds -/

/-- the directory holds `snaps` in ascending order of the ids; any of them may have a watermark, and the
watermarks there are do not decrease -/
structure Snapshots (m : SnapshotManager) (snaps : List Snapshot) : Prop where
  ids : m.listAllIds = .ok (snaps.map (·.id))
  get : ∀ s ∈ snaps, m.getSnapshot s.id = .ok s
  ascending : snaps.Pairwise fun s s' => s.id < s'.id
  ordered : snaps.Pairwise fun s s' =>
    ∀ w w', s.effectiveWatermark = some w → s'.effectiveWatermark = some w' → w ≤ w'

def Snapshot.Reaches (s : Snapshot) (w : Int) : Prop := ∃ v, s.effectiveWatermark = some v ∧ w ≤ v

section Search

variable {m : SnapshotManager} {snaps : List Snapshot} {w : Int}

theorem Snapshots.at (hm : Snapshots m snaps) {i : Nat} (hi : i < snaps.length) :
    m.snapshotAt (snaps.map (·.id)) i = .ok snaps[i] := by
  unfold SnapshotManager.snapshotAt
  rw [getElem?_map, getElem?_eq_getElem hi]
  exact hm.get _ (getElem_mem hi)

theorem Snapshots.not_reaches (hm : Snapshots m snaps) {i j : Nat} (hj : j < snaps.length) (hij : i ≤ j) {v : Int}
    (hv : snaps[j].effectiveWatermark = some v) (hlt : v < w) : ¬ snaps[i].Reaches w := by
  rintro ⟨u, hu, hle⟩
  obtain rfl | hij := hij.eq_or_lt
  · rw [hv] at hu
    cases hu
    omega
  · have := pairwise_iff_getElem.mp hm.ordered i j (hij.trans hj) hj hij u v hu hv
    omega

theorem not_reaches_of_none {s : Snapshot} (h : s.effectiveWatermark = none) : ¬ s.Reaches w := by
  rintro ⟨v, hv, -⟩
  rw [h] at hv
  cases hv

theorem firstLoop_spec (hm : Snapshots m snaps) {fuel lo : Nat} (hfuel : snaps.length < lo + fuel)
    (hlo : lo ≤ snaps.length)
    (hbefore : ∀ i (h : i < snaps.length), i < lo → snaps[i].effectiveWatermark = none) :
    (m.firstLoop (snaps.map (·.id)) fuel lo = .ok none ∧
      ∀ i (h : i < snaps.length), snaps[i].effectiveWatermark = none) ∨
    ∃ p, ∃ hp : p < snaps.length, ∃ v, m.firstLoop (snaps.map (·.id)) fuel lo = .ok (some (p, snaps[p], v)) ∧
      snaps[p].effectiveWatermark = some v ∧
      ∀ i (h : i < snaps.length), i < p → snaps[i].effectiveWatermark = none := by
  induction fuel generalizing lo with
  | zero => omega
  | succ fuel ih =>
    rw [SnapshotManager.firstLoop, length_map]
    split
    · next hge => exact .inl ⟨rfl, fun i h => hbefore i h (by omega)⟩
    · next hlt =>
      have hlt : lo < snaps.length := not_le.mp hlt
      simp only [hm.at hlt, bind, Except.bind]
      cases hmark : snaps[lo].effectiveWatermark with
      | some v => exact .inr ⟨lo, hlt, v, rfl, hmark, hbefore⟩
      | none =>
        refine ih (by omega) hlt fun i h hi => ?_
        obtain rfl | hi := (Nat.lt_succ_iff.mp hi).eq_or_lt
        · exact hmark
        · exact hbefore i h hi

theorem walkBack_spec (hm : Snapshots m snaps) {lo pos : Nat} (hle : lo ≤ pos) (hpos : pos < snaps.length) :
    ∃ p, ∃ hp : p < snaps.length, m.walkBack (snaps.map (·.id)) lo pos = .ok (p, snaps[p]) ∧ lo ≤ p ∧ p ≤ pos ∧
      (∀ i (h : i < snaps.length), p < i → i ≤ pos → snaps[i].effectiveWatermark = none) ∧
      (snaps[p].effectiveWatermark = none → p = lo) := by
  induction pos with
  | zero =>
    refine ⟨0, hpos, ?_, hle, le_refl 0, fun i _ h h' => by omega, fun _ => by omega⟩
    rw [SnapshotManager.walkBack, hm.at hpos]
    rfl
  | succ pos ih =>
    rw [SnapshotManager.walkBack]
    simp only [hm.at hpos, bind, Except.bind]
    split
    · next hback =>
      obtain ⟨hnone, hlt⟩ := hback
      obtain ⟨p, hp, hrun, hlop, hppos, hholes, hend⟩ := ih (by omega) (by omega)
      refine ⟨p, hp, hrun, hlop, by omega, fun i h hpi hi => ?_, hend⟩
      obtain rfl | hi := hi.eq_or_lt
      · exact Option.isNone_iff_eq_none.mp hnone
      · exact hholes i h hpi (by omega)
    · next hstay =>
      refine ⟨pos + 1, hpos, rfl, hle, le_refl _, fun i _ h h' => by omega, fun hnone => ?_⟩
      by_contra hne
      exact hstay ⟨Option.isNone_iff_eq_none.mpr hnone, by omega⟩

/-- What the search knows: nothing before `lo` reaches the watermark; there is no result and `hi` is the last
position, or the result is the snapshot behind `hi` and reaches it. -/
structure LaterInv (snaps : List Snapshot) (w : Int) (lo hi : Nat) (result : Option Snapshot) : Prop where
  le : lo ≤ hi + 1
  bound : hi < snaps.length
  before : ∀ i (h : i < snaps.length), i < lo → ¬ snaps[i].Reaches w
  behind : (hi + 1 = snaps.length ∧ result = none) ∨
    ∃ h : hi + 1 < snaps.length, result = some snaps[hi + 1] ∧ snaps[hi + 1].Reaches w

/-- the result is the first position that reaches the watermark, and there is none without a result -/
def LandsAt (snaps : List Snapshot) (w : Int) (result : Option Snapshot) : Prop :=
  (result = none ∧ ∀ i (h : i < snaps.length), ¬ snaps[i].Reaches w) ∨
  ∃ p, ∃ hp : p < snaps.length, result = some snaps[p] ∧ snaps[p].Reaches w ∧
    ∀ i (h : i < snaps.length), i < p → ¬ snaps[i].Reaches w

theorem LaterInv.lands {lo hi : Nat} {result : Option Snapshot} (h : LaterInv snaps w lo hi result)
    (hempty : hi < lo) : LandsAt snaps w result := by
  have hle := h.le
  obtain ⟨hend, rfl⟩ | ⟨hlt, rfl, hreach⟩ := h.behind
  · exact .inl ⟨rfl, fun i hi' => h.before i hi' (by omega)⟩
  · exact .inr ⟨hi + 1, hlt, rfl, hreach, fun i hi' hip => h.before i hi' (by omega)⟩

theorem laterLoop_lands (hm : Snapshots m snaps) {fuel lo hi : Nat} {result : Option Snapshot}
    (hfuel : hi + 1 - lo < fuel) (h : LaterInv snaps w lo hi result) :
    ∃ r, m.laterLoop (snaps.map (·.id)) w fuel lo hi result = .ok r ∧ LandsAt snaps w r := by
  induction fuel generalizing lo hi result with
  | zero => omega
  | succ fuel ih =>
    rw [SnapshotManager.laterLoop]
    split
    · next hle =>
      have hbound := h.bound
      set mid := lo + (hi - lo) / 2 with hmid
      have hlomid : lo ≤ mid := by omega
      have hmidlt : mid < snaps.length := by omega
      obtain ⟨p, hp, hrun, hlop, hpmid, hholes, hend⟩ := walkBack_spec hm hlomid hmidlt
      simp only [hrun, bind, Except.bind]
      -- the interval behind `mid`, when nothing up to `mid` reaches the watermark
      have hright (hnot : ¬ snaps[p].Reaches w) (hprev : ∀ i (h : i < snaps.length), i < p → ¬ snaps[i].Reaches w) :
          LaterInv snaps w (mid + 1) hi result := by
        refine ⟨by omega, hbound, fun i hi' hip => ?_, h.behind⟩
        obtain hlt | rfl | hgt := lt_trichotomy i p
        · exact hprev i hi' hlt
        · exact hnot
        · exact not_reaches_of_none (hholes i hi' hgt (by omega))
      cases hmark : snaps[p].effectiveWatermark with
      | none =>
        -- no watermark from `lo` to `mid`
        obtain rfl := hend hmark
        exact ih (by omega) (hright (not_reaches_of_none hmark) h.before)
      | some v =>
        simp only
        split
        · next hreach =>
          split
          · next hzero =>
            exact ⟨_, rfl, .inr ⟨p, hp, rfl, ⟨v, hmark, hreach⟩, fun i _ hip => by omega⟩⟩
          · next hpos =>
            have hback : p - 1 + 1 = p := by omega
            refine ih (by omega) ⟨by omega, by omega, h.before, .inr ⟨by omega, ?_⟩⟩
            simp only [hback]
            exact ⟨trivial, v, hmark, hreach⟩
        · next hbelow =>
          have hlt : v < w := not_le.mp hbelow
          refine ih (by omega) (hright (hm.not_reaches hp (le_refl p) hmark hlt) fun i hi' hip => ?_)
          exact hm.not_reaches hp hip.le hmark hlt
    · next hgt => exact ⟨result, rfl, h.lands (not_le.mp hgt)⟩

/-- **The search lands at the first snapshot that reaches the watermark.** -/
theorem laterOrEqualWatermark_lands (hm : Snapshots m snaps) (w : Int) :
    ∃ r, m.laterOrEqualWatermark w = .ok r ∧ LandsAt snaps w r := by
  unfold SnapshotManager.laterOrEqualWatermark
  simp only [hm.ids, bind, Except.bind]
  obtain hnil | hpos := Nat.eq_zero_or_pos snaps.length
  · obtain rfl := length_eq_zero_iff.mp hnil
    exact ⟨none, rfl, .inl ⟨rfl, fun i h => absurd h (Nat.not_lt_zero i)⟩⟩
  · have hne : (snaps.map (·.id)).isEmpty = false := by
      rw [isEmpty_eq_false_iff, ne_eq, map_eq_nil_iff]
      rintro rfl
      exact absurd hpos (lt_irrefl 0)
    simp only [hne, length_map, Bool.false_eq_true, if_false]
    have hfuel : snaps.length < 0 + (snaps.length + 1) := by omega
    obtain ⟨hrun, hnone⟩ | ⟨p, hp, v, hrun, hmark, hholes⟩ :=
      firstLoop_spec hm hfuel (Nat.zero_le _) fun i _ h => absurd h (Nat.not_lt_zero i)
    · simp only [hrun]
      exact ⟨none, rfl, .inl ⟨rfl, fun i h => not_reaches_of_none (hnone i h)⟩⟩
    · simp only [hrun]
      have hbefore : ∀ i (h : i < snaps.length), i < p → ¬ snaps[i].Reaches w := fun i h hip =>
        not_reaches_of_none (hholes i h hip)
      split
      · next hreach => exact ⟨_, rfl, .inr ⟨p, hp, rfl, ⟨v, hmark, hreach⟩, hbefore⟩⟩
      · exact laterLoop_lands hm (by omega) ⟨by omega, by omega, hbefore, .inl ⟨by omega, rfl⟩⟩

end Search

/-- **Time travel by watermark returns the first snapshot that reaches it**, whichever snapshots have a
watermark: the search ends, its result is the snapshot with the smallest id among those whose own watermark is
`w` or later, and there is no result exactly if there is no such snapshot. -/
theorem watermark_travel_first {m : SnapshotManager} {snaps : List Snapshot} (hm : Snapshots m snaps) (w : Int) :
    ∃ r, m.laterOrEqualWatermark w = .ok r ∧
      (∀ s, r = some s ↔ s ∈ snaps ∧ s.Reaches w ∧ ∀ s' ∈ snaps, s'.Reaches w → s.id ≤ s'.id) ∧
      (r = none ↔ ∀ s ∈ snaps, ¬ s.Reaches w) := by
  have hid : ∀ {i j : Nat} (hj : j < snaps.length) (hij : i < j), snaps[i].id < snaps[j].id := fun hj hij =>
    pairwise_iff_getElem.mp hm.ascending _ _ (hij.trans hj) hj hij
  obtain ⟨r, hrun, ⟨rfl, hnone⟩ | ⟨p, hp, rfl, hreach, hbefore⟩⟩ := laterOrEqualWatermark_lands hm w
  · have hall : ∀ s ∈ snaps, ¬ s.Reaches w := by
      intro s hs
      obtain ⟨i, hi, rfl⟩ := mem_iff_getElem.mp hs
      exact hnone i hi
    exact ⟨none, hrun, fun s => ⟨fun h => (Option.some_ne_none s h.symm).elim, fun ⟨hs, h, _⟩ => (hall s hs h).elim⟩,
      fun _ => hall, fun _ => rfl⟩
  · have hmem := getElem_mem hp
    have hsmallest : ∀ s' ∈ snaps, s'.Reaches w → snaps[p].id ≤ s'.id := by
      intro s' hs' h'
      obtain ⟨j, hj, rfl⟩ := mem_iff_getElem.mp hs'
      obtain hlt | rfl | hgt := lt_trichotomy j p
      · exact absurd h' (hbefore j hj hlt)
      · exact le_refl _
      · exact (hid hj hgt).le
    refine ⟨some snaps[p], hrun, fun s => ⟨?_, ?_⟩, fun h => (Option.some_ne_none _ h).elim, fun h =>
      (h _ hmem hreach).elim⟩
    · rintro ⟨⟩
      exact ⟨hmem, hreach, hsmallest⟩
    · rintro ⟨hs, h, hle⟩
      obtain ⟨j, hj, rfl⟩ := mem_iff_getElem.mp hs
      obtain hlt | rfl | hgt := lt_trichotomy j p
      · exact absurd h (hbefore j hj hlt)
      · rfl
      · have := hle _ hmem hreach
        have := hid hj hgt
        omega

/-- the manager of a directory that holds exactly `snaps` -/
def ofSnapshots (snaps : List Snapshot) : SnapshotManager where
  listAllIds := .ok (snaps.map (·.id))
  getSnapshot id := match snaps.find? (·.id == id) with
    | some s => .ok s
    | none => .error (.ioUnexpected "not found")

/-- watermarks 5 and 9 among snapshots without one, ids with a gap -/
def sparse : List Snapshot :=
  [⟨1, none⟩, ⟨2, some 5⟩, ⟨3, some i64Min⟩, ⟨5, none⟩, ⟨6, some 9⟩, ⟨7, none⟩, ⟨8, some 9⟩]

theorem watermark_travel_sparse : ∃ r, (ofSnapshots sparse).laterOrEqualWatermark 6 = .ok r ∧
    (∀ s, r = some s ↔ s ∈ sparse ∧ s.Reaches 6 ∧ ∀ s' ∈ sparse, s'.Reaches 6 → s.id ≤ s'.id) ∧
    (r = none ↔ ∀ s ∈ sparse, ¬ s.Reaches 6) := by
  refine watermark_travel_first ⟨rfl, by decide, by decide, ?_⟩ 6
  simp [sparse, Snapshot.effectiveWatermark, i64Min]

end Paimon.Watermark
