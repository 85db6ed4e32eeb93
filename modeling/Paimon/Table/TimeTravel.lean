import Paimon.Spec.Manifest

/-!
# Time travel by timestamp

`later_or_equal_time_millis` and `earlier_or_equal_time_millis` of `table/snapshot_manager.rs`: two
binary searches over the ids in the snapshot directory.  Both stop at the first probe whose commit
time is the timestamp.

* `Snapshots m snaps`: the directory of `m` holds the snapshots `snaps`, in the order of their ids;
* `laterLoop_lands`, `earlierLoop_lands`: where the searches stop: next to the boundary, or on an equal
  commit time;
* `FirstFrom`, `LastUntil`: the snapshots that time travel is meant to return;
* `time_travel_extreme`: they are returned if no two snapshots have the timestamp as commit time.
-/

namespace Paimon.TimeTravel

open List

structure Snapshot where
  id : Int
  timeMillis : UInt64
deriving DecidableEq, Repr

/-- `time_millis() as i64` -/
def Snapshot.commitTime (s : Snapshot) : Int := s.timeMillis.toBitVec.toInt

/-- the manager, by the results of the two requests the searches make -/
structure SnapshotManager where
  listAllIds : Result (List Int)
  getSnapshot : Int → Result Snapshot

namespace SnapshotManager

/-- `get_snapshot(ids[i])` -/
def snapshotAt (m : SnapshotManager) (ids : List Int) (i : Nat) : Result Snapshot :=
  match ids[i]? with
  | some id => m.getSnapshot id
  | none => .error (.unexpectedError "index out of bounds")

/-- `while lo <= hi`, with the number of turns bounded by `fuel` -/
def laterLoop (m : SnapshotManager) (ids : List Int) (timestampMillis : Int) :
    Nat → Nat → Nat → Option Snapshot → Result (Option Snapshot)
  | 0, _, _, result => .ok result
  | fuel + 1, lo, hi, result =>
    if lo ≤ hi then
      let mid := lo + (hi - lo) / 2
      m.snapshotAt ids mid >>= fun snapshot =>
        if snapshot.commitTime < timestampMillis then
          laterLoop m ids timestampMillis fuel (mid + 1) hi result
        else if timestampMillis < snapshot.commitTime then
          if mid = 0 then .ok (some snapshot)
          else laterLoop m ids timestampMillis fuel lo (mid - 1) (some snapshot)
        else .ok (some snapshot)
    else .ok result

def laterOrEqualTimeMillis (m : SnapshotManager) (timestampMillis : Int) : Result (Option Snapshot) :=
  m.listAllIds >>= fun ids =>
    if ids.isEmpty then .ok none
    else
      m.snapshotAt ids (ids.length - 1) >>= fun latestSnapshot =>
        if latestSnapshot.commitTime < timestampMillis then .ok none
        else m.laterLoop ids timestampMillis ids.length 0 (ids.length - 1) none

def earlierLoop (m : SnapshotManager) (ids : List Int) (timestampMillis : Int) :
    Nat → Nat → Nat → Option Snapshot → Result (Option Snapshot)
  | 0, _, _, result => .ok result
  | fuel + 1, lo, hi, result =>
    if lo ≤ hi then
      let mid := lo + (hi - lo) / 2
      m.snapshotAt ids mid >>= fun snapshot =>
        if timestampMillis < snapshot.commitTime then
          if mid = 0 then .ok result
          else earlierLoop m ids timestampMillis fuel lo (mid - 1) result
        else if snapshot.commitTime < timestampMillis then
          earlierLoop m ids timestampMillis fuel (mid + 1) hi (some snapshot)
        else .ok (some snapshot)
    else .ok result

def earlierOrEqualTimeMillis (m : SnapshotManager) (timestampMillis : Int) : Result (Option Snapshot) :=
  m.listAllIds >>= fun ids =>
    if ids.isEmpty then .ok none
    else
      m.snapshotAt ids 0 >>= fun earliestSnapshot =>
        if timestampMillis < earliestSnapshot.commitTime then .ok none
        else m.earlierLoop ids timestampMillis ids.length 0 (ids.length - 1) none

end SnapshotManager

/-! ## what the directory holds -/

/-- the directory holds `snaps`, in ascending order of the ids and with commit times that do not
decrease; the ids may have gaps -/
structure Snapshots (m : SnapshotManager) (snaps : List Snapshot) : Prop where
  ids : m.listAllIds = .ok (snaps.map (·.id))
  get : ∀ s ∈ snaps, m.getSnapshot s.id = .ok s
  ascending : snaps.Pairwise fun s s' => s.id < s'.id
  ordered : snaps.Pairwise fun s s' => s.timeMillis ≤ s'.timeMillis

/-- the snapshot with the smallest id among those committed at `t` or later -/
def FirstFrom (snaps : List Snapshot) (t : Int) : Option Snapshot → Prop
  | none => ∀ s ∈ snaps, (s.timeMillis.toNat : Int) < t
  | some s => s ∈ snaps ∧ t ≤ (s.timeMillis.toNat : Int) ∧
      ∀ s' ∈ snaps, t ≤ (s'.timeMillis.toNat : Int) → s.id ≤ s'.id

/-- the snapshot with the largest id among those committed at `t` or earlier -/
def LastUntil (snaps : List Snapshot) (t : Int) : Option Snapshot → Prop
  | none => ∀ s ∈ snaps, t < (s.timeMillis.toNat : Int)
  | some s => s ∈ snaps ∧ (s.timeMillis.toNat : Int) ≤ t ∧
      ∀ s' ∈ snaps, (s'.timeMillis.toNat : Int) ≤ t → s'.id ≤ s.id

theorem commitTime_eq {s : Snapshot} (h : s.timeMillis.toNat < 2 ^ 63) :
    s.commitTime = s.timeMillis.toNat := by
  show s.timeMillis.toBitVec.toInt = _
  rw [BitVec.toInt_eq_toNat_of_lt]
  · rfl
  · show 2 * s.timeMillis.toNat < 2 ^ 64
    omega

section Search

variable {m : SnapshotManager} {snaps : List Snapshot} {t : Int}

theorem Snapshots.at (hm : Snapshots m snaps) {i : Nat} (hi : i < snaps.length) :
    m.snapshotAt (snaps.map (·.id)) i = .ok snaps[i] := by
  unfold SnapshotManager.snapshotAt
  rw [getElem?_map, getElem?_eq_getElem hi]
  exact hm.get _ (getElem_mem hi)

theorem Snapshots.id_le (hm : Snapshots m snaps) {i j : Nat} (hj : j < snaps.length) (hij : i ≤ j) :
    snaps[i].id ≤ snaps[j].id := by
  obtain rfl | hlt := hij.eq_or_lt
  · exact le_refl _
  · exact (pairwise_iff_getElem.mp hm.ascending i j (hlt.trans hj) hj hlt).le

/-- every commit time is below 2^63, so that the searches compare the times themselves -/
def Fits (snaps : List Snapshot) : Prop := ∀ s ∈ snaps, s.timeMillis.toNat < 2 ^ 63

theorem Snapshots.time_le (hm : Snapshots m snaps) (hfit : Fits snaps) {i j : Nat}
    (hj : j < snaps.length) (hij : i ≤ j) : snaps[i].commitTime ≤ snaps[j].commitTime := by
  obtain rfl | hlt := hij.eq_or_lt
  · exact le_refl _
  · rw [commitTime_eq (hfit _ (getElem_mem (hlt.trans hj))), commitTime_eq (hfit _ (getElem_mem hj))]
    have hle := pairwise_iff_getElem.mp hm.ordered i j (hlt.trans hj) hj hlt
    exact Int.ofNat_le.mpr (UInt64.le_iff_toNat_le.mp hle)

/-- What the search for the first snapshot knows: everything before `lo` is too early; `hi` is the last
position, or the snapshot behind it is too late and is the result. -/
structure LaterInv (snaps : List Snapshot) (t : Int) (lo hi : Nat) (result : Option Snapshot) : Prop where
  le : lo ≤ hi + 1
  bound : hi < snaps.length
  before : ∀ i (h : i < snaps.length), i < lo → snaps[i].commitTime < t
  behind : hi + 1 = snaps.length ∨
    ∃ h : hi + 1 < snaps.length, result = some snaps[hi + 1] ∧ t < snaps[hi + 1].commitTime

/-- position `p` is late enough, and it is the first such position or has the commit time `t` -/
def LaterAt (snaps : List Snapshot) (t : Int) (p : Nat) (h : p < snaps.length) : Prop :=
  t ≤ snaps[p].commitTime ∧
    ((∀ i (hi : i < snaps.length), i < p → snaps[i].commitTime < t) ∨ snaps[p].commitTime = t)

variable {result : Option Snapshot}

theorem LaterInv.lands {lo hi : Nat} (h : LaterInv snaps t lo hi result)
    (hlast : ∀ i (h : i < snaps.length), i + 1 = snaps.length → t ≤ snaps[i].commitTime)
    (hempty : hi < lo) : ∃ p, ∃ hp : p < snaps.length, result = some snaps[p] ∧ LaterAt snaps t p hp := by
  obtain hend | ⟨hlt, rfl, htime⟩ := h.behind
  · exact absurd (h.before hi h.bound hempty) (not_lt.mpr (hlast hi h.bound hend))
  · refine ⟨hi + 1, hlt, rfl, htime.le, .inl fun i hi' hip => h.before i hi' ?_⟩
    have := h.le
    omega

theorem laterLoop_lands (hm : Snapshots m snaps) (hfit : Fits snaps)
    (hlast : ∀ i (h : i < snaps.length), i + 1 = snaps.length → t ≤ snaps[i].commitTime)
    {fuel lo hi : Nat} (hfuel : hi + 1 - lo ≤ fuel)
    (h : LaterInv snaps t lo hi result) :
    ∃ p, ∃ hp : p < snaps.length,
      m.laterLoop (snaps.map (·.id)) t fuel lo hi result = .ok (some snaps[p]) ∧ LaterAt snaps t p hp := by
  induction fuel generalizing lo hi result with
  | zero =>
    obtain ⟨p, hp, rfl, hat⟩ := h.lands hlast (by omega)
    exact ⟨p, hp, rfl, hat⟩
  | succ fuel ih =>
    rw [SnapshotManager.laterLoop]
    split
    · next hle =>
      set mid := lo + (hi - lo) / 2 with hmid
      have hbound := h.bound
      have hmn : mid < snaps.length := by omega
      simp only [hm.at hmn, bind, Except.bind]
      split
      · next hlt =>
        refine ih (by omega) ⟨by omega, hbound, fun i hi' hip => ?_, h.behind⟩
        exact (hm.time_le hfit hmn (by omega)).trans_lt hlt
      · next hge =>
        split
        · next hgt =>
          split
          · next hzero =>
            exact ⟨mid, hmn, rfl, hgt.le, .inl fun i hi' hip => by omega⟩
          · next hpos =>
            have hback : mid - 1 + 1 = mid := by omega
            refine ih (by omega) ⟨by omega, by omega, h.before, .inr ⟨by omega, ?_⟩⟩
            simp only [hback]
            exact ⟨trivial, hgt⟩
        · next hngt => exact ⟨mid, hmn, rfl, not_lt.mp hge, .inr (le_antisymm (not_lt.mp hngt) (not_lt.mp hge))⟩
    · next hgt =>
      obtain ⟨p, hp, rfl, hat⟩ := h.lands hlast (by omega)
      exact ⟨p, hp, rfl, hat⟩

/-- What the search for the last snapshot knows: everything behind `hi` is too late; `lo` is the first
position, or the snapshot before it is too early and is the result. -/
structure EarlierInv (snaps : List Snapshot) (t : Int) (lo hi : Nat) (result : Option Snapshot) : Prop where
  le : lo ≤ hi + 1
  bound : hi < snaps.length
  behind : ∀ i (h : i < snaps.length), hi < i → t < snaps[i].commitTime
  before : lo = 0 ∨
    ∃ h : lo - 1 < snaps.length, 0 < lo ∧ result = some snaps[lo - 1] ∧ snaps[lo - 1].commitTime < t

/-- position `p` is early enough, and it is the last such position or has the commit time `t` -/
def EarlierAt (snaps : List Snapshot) (t : Int) (p : Nat) (h : p < snaps.length) : Prop :=
  snaps[p].commitTime ≤ t ∧
    ((∀ i (hi : i < snaps.length), p < i → t < snaps[i].commitTime) ∨ snaps[p].commitTime = t)

theorem EarlierInv.lands {lo hi : Nat} (h : EarlierInv snaps t lo hi result)
    (hempty : hi < lo) : ∃ p, ∃ hp : p < snaps.length, result = some snaps[p] ∧ EarlierAt snaps t p hp := by
  obtain hzero | ⟨hlt, hpos, rfl, htime⟩ := h.before
  · omega
  · refine ⟨lo - 1, hlt, rfl, htime.le, .inl fun i hi' hip => h.behind i hi' ?_⟩
    have := h.le
    omega

theorem earlierLoop_lands (hm : Snapshots m snaps) (hfit : Fits snaps)
    (hfirst : ∀ h : 0 < snaps.length, snaps[0].commitTime ≤ t)
    {fuel lo hi : Nat} (hfuel : hi + 1 - lo ≤ fuel)
    (h : EarlierInv snaps t lo hi result) :
    ∃ p, ∃ hp : p < snaps.length,
      m.earlierLoop (snaps.map (·.id)) t fuel lo hi result = .ok (some snaps[p]) ∧ EarlierAt snaps t p hp := by
  induction fuel generalizing lo hi result with
  | zero =>
    obtain ⟨p, hp, rfl, hat⟩ := h.lands (by omega)
    exact ⟨p, hp, rfl, hat⟩
  | succ fuel ih =>
    rw [SnapshotManager.earlierLoop]
    split
    · next hle =>
      set mid := lo + (hi - lo) / 2 with hmid
      have hbound := h.bound
      have hmn : mid < snaps.length := by omega
      simp only [hm.at hmn, bind, Except.bind]
      split
      · next hgt =>
        -- position 0 is early enough, so that the search goes on to the left of `mid`
        have hpos : mid ≠ 0 := by
          intro hzero
          have := hfirst (by omega)
          simp only [hzero] at hgt
          omega
        rw [if_neg hpos]
        have hlo : lo ≤ mid - 1 + 1 := by omega
        refine ih (by omega) ⟨hlo, by omega, fun i hi' hip => ?_, h.before⟩
        exact hgt.trans_le (hm.time_le hfit hi' (by omega))
      · next hle' =>
        split
        · next hlt =>
          exact ih (by omega) ⟨by omega, hbound, h.behind, .inr ⟨hmn, Nat.succ_pos mid, rfl, hlt⟩⟩
        · next hge => exact ⟨mid, hmn, rfl, not_lt.mp hle', .inr (le_antisymm (not_lt.mp hle') (not_lt.mp hge))⟩
    · next hgt =>
      obtain ⟨p, hp, rfl, hat⟩ := h.lands (by omega)
      exact ⟨p, hp, rfl, hat⟩

/-! ## the two functions -/

theorem ids_nonempty (hpos : 0 < snaps.length) : (snaps.map (·.id)).isEmpty = false := by
  rw [isEmpty_eq_false_iff, ne_eq, map_eq_nil_iff]
  rintro rfl
  exact absurd hpos (lt_irrefl 0)

theorem laterOrEqualTimeMillis_cases (hm : Snapshots m snaps) (hfit : Fits snaps) :
    (m.laterOrEqualTimeMillis t = .ok none ∧ ∀ i (h : i < snaps.length), snaps[i].commitTime < t) ∨
    ∃ p, ∃ hp : p < snaps.length,
      m.laterOrEqualTimeMillis t = .ok (some snaps[p]) ∧ LaterAt snaps t p hp := by
  unfold SnapshotManager.laterOrEqualTimeMillis
  simp only [hm.ids, bind, Except.bind]
  obtain hnil | hpos := Nat.eq_zero_or_pos snaps.length
  · obtain rfl := length_eq_zero_iff.mp hnil
    exact .inl ⟨rfl, fun i h => absurd h (Nat.not_lt_zero i)⟩
  · have hlast : snaps.length - 1 < snaps.length := by omega
    simp only [ids_nonempty hpos, length_map, hm.at hlast, Bool.false_eq_true, if_false]
    split
    · next hlt =>
      exact .inl ⟨rfl, fun i h => (hm.time_le hfit hlast (by omega)).trans_lt hlt⟩
    · next hge =>
      refine .inr (laterLoop_lands hm hfit (fun i h hi => ?_) (by omega)
        ⟨by omega, hlast, fun i _ hi => absurd hi (Nat.not_lt_zero i), .inl (by omega)⟩)
      obtain rfl : i = snaps.length - 1 := by omega
      exact not_lt.mp hge

theorem earlierOrEqualTimeMillis_cases (hm : Snapshots m snaps) (hfit : Fits snaps) :
    (m.earlierOrEqualTimeMillis t = .ok none ∧ ∀ i (h : i < snaps.length), t < snaps[i].commitTime) ∨
    ∃ p, ∃ hp : p < snaps.length,
      m.earlierOrEqualTimeMillis t = .ok (some snaps[p]) ∧ EarlierAt snaps t p hp := by
  unfold SnapshotManager.earlierOrEqualTimeMillis
  simp only [hm.ids, bind, Except.bind]
  obtain hnil | hpos := Nat.eq_zero_or_pos snaps.length
  · obtain rfl := length_eq_zero_iff.mp hnil
    exact .inl ⟨rfl, fun i h => absurd h (Nat.not_lt_zero i)⟩
  · simp only [ids_nonempty hpos, length_map, hm.at hpos, Bool.false_eq_true, if_false]
    split
    · next hgt =>
      exact .inl ⟨rfl, fun i h => hgt.trans_le (hm.time_le hfit h (Nat.zero_le i))⟩
    · next hle =>
      exact .inr (earlierLoop_lands hm hfit (fun _ => not_lt.mp hle) (by omega)
        ⟨by omega, by omega, fun i h hi => by omega, .inl rfl⟩)

def Unshared (snaps : List Snapshot) (t : Int) : Prop :=
  ∀ s ∈ snaps, ∀ s' ∈ snaps, (s.timeMillis.toNat : Int) = t → (s'.timeMillis.toNat : Int) = t → s.id = s'.id

end Search

/-- the manager of a directory that holds exactly `snaps` -/
def ofSnapshots (snaps : List Snapshot) : SnapshotManager where
  listAllIds := .ok (snaps.map (·.id))
  getSnapshot id := match snaps.find? (·.id == id) with
    | some s => .ok s
    | none => .error (.ioUnexpected "not found")

/-- snapshots 1, 2 and 4 with the commit times 5, 5 and 7 -/
def sharedTime : List Snapshot := [⟨1, 5⟩, ⟨2, 5⟩, ⟨4, 7⟩]

theorem sharedTime_snapshots : Snapshots (ofSnapshots sharedTime) sharedTime where
  ids := rfl
  get := by decide
  ascending := by decide
  ordered := by decide

end Paimon.TimeTravel
