import Paimon.Stream.TableScan

/-!
# Runs of a stream scan

What the calls of `plan` deliver over a whole run, with commits, expirations and failures between
any two requests.

* `owed`: the plans of the selected snapshots with splits, for the ids of an interval;
* `Progress`: the checkpoint has moved from `start` and the plans owed for the ids passed have been
  delivered;
* `calls_progress`: every run from a checkpoint makes progress only;
* `calls_fresh`: a run without a checkpoint: nothing, or a first plan and progress after it;
* `calls_expired`: a run at an expired checkpoint.
-/

namespace Paimon.Stream

open Interact List

variable {Split : Type}

/-! ## what is owed -/

/-- the snapshots of the ids from `frm` to `upTo - 1` -/
def between (log : List Snapshot) (frm upTo : Int) : List Snapshot :=
  (log.take (upTo - 1).toNat).drop (frm - 1).toNat

theorem between_self (log : List Snapshot) (c : Int) : between log c c = [] := by
  apply drop_eq_nil_of_le
  exact length_take_le _ _

theorem between_append (log : List Snapshot) {frm mid upTo : Int} (h : frm ≤ mid) (h' : mid ≤ upTo) :
    between log frm mid ++ between log mid upTo = between log frm upTo := by
  unfold between
  have htake : log.take (mid - 1).toNat = (log.take (upTo - 1).toNat).take (mid - 1).toNat := by
    rw [take_take, min_eq_left (by omega)]
  rw [htake]
  generalize log.take (upTo - 1).toNat = l
  conv_rhs => rw [← take_append_drop (mid - 1).toNat l]
  rw [drop_append]
  congr 1
  -- a part that is shorter than asked for leaves nothing behind it
  by_cases hlen : (mid - 1).toNat ≤ l.length
  · rw [length_take, min_eq_left hlen, Nat.sub_eq_zero_of_le (by omega), drop_zero]
  · have hnil : l.drop (mid - 1).toNat = [] := drop_eq_nil_of_le (by omega)
    rw [hnil, drop_nil]

variable {id : Int}

theorem between_succ {log : List Snapshot} {s : Snapshot} (hid : 1 ≤ id)
    (h : log[(id - 1).toNat]? = some s) : between log id (id + 1) = [s] := by
  unfold between
  have hnat : (id + 1 - 1).toNat = (id - 1).toNat + 1 := by omega
  have hlt := (List.getElem?_eq_some_iff.mp h).1
  rw [hnat, take_add_one, h]
  apply drop_left'
  rw [length_take, min_eq_left hlt.le]

theorem between_of_le {d d' : Directory} (hle : d ≤ d') (frm : Int) {upTo : Int}
    (h : upTo ≤ d.log.length + 1) : between d'.log frm upTo = between d.log frm upTo := by
  obtain ⟨later, hlater⟩ := hle.1
  unfold between
  rw [← hlater, take_append_of_le_length (by omega)]

def carriesSplits : Result (Plan Split) → Bool
  | .ok plan => !plan.splits.isEmpty
  | .error _ => true

/-- A snapshot that cannot be planned is owed too, as an error: no list of delivered plans has it. -/
def owed (planOf : TableScan → SnapshotScanMode → Snapshot → Result (Plan Split)) (scan : TableScan)
    (mode : SnapshotScanMode) (snapshots : List Snapshot) : List (Result (Plan Split)) :=
  ((snapshots.filter (shouldScan mode)).map (planOf scan mode)).filter carriesSplits

theorem owed_append (planOf : TableScan → SnapshotScanMode → Snapshot → Result (Plan Split))
    (scan : TableScan) (mode : SnapshotScanMode) (a b : List Snapshot) :
    owed planOf scan mode (a ++ b) = owed planOf scan mode a ++ owed planOf scan mode b := by
  simp only [owed, filter_append, map_append]

def deliveredPlan : PlanResult Split → Option (Plan Split)
  | .ok plan => plan
  | .error _ => none

def delivered (results : List (PlanResult Split)) : List (Plan Split) :=
  results.filterMap deliveredPlan

theorem delivered_append (a b : List (PlanResult Split)) :
    delivered (a ++ b) = delivered a ++ delivered b := filterMap_append

theorem delivered_cons (r : PlanResult Split) (rs : List (PlanResult Split)) :
    delivered (r :: rs) = delivered [r] ++ delivered rs := delivered_append [r] rs

/-! ## progress -/

/-- the checkpoint is at or after `start`, after only published ids, with all that is owed before it
delivered -/
def Progress (planOf : TableScan → SnapshotScanMode → Snapshot → Result (Plan Split))
    (scan : TableScan) (mode : SnapshotScanMode) (start : Int) (d : Directory)
    (s : StreamTableScan) (plans : List (Plan Split)) : Prop :=
  ∃ next, s.nextSnapshotId = some next ∧ start ≤ next ∧
    (next = start ∨ next ≤ d.log.length + 1) ∧
    plans.map .ok = owed planOf scan mode (between d.log start next)

section
variable {planOf : TableScan → SnapshotScanMode → Snapshot → Result (Plan Split)}
  {scan : TableScan} {mode : SnapshotScanMode} {start : Int} {d d₁ d' : Directory}
  {s s₁ s' : StreamTableScan} {plans plans' : List (Plan Split)}

theorem Progress.none (h : s.nextSnapshotId = some start) : Progress planOf scan mode start d s [] := by
  refine ⟨start, h, le_refl start, .inl rfl, ?_⟩
  rw [between_self]
  rfl

theorem Progress.grow (hle : d ≤ d') (h : Progress planOf scan mode start d s plans) :
    Progress planOf scan mode start d' s plans := by
  obtain ⟨next, hnext, hstart, hnew, hplans⟩ := h
  have hlen := Directory.length_le hle
  refine ⟨next, hnext, hstart, by omega, ?_⟩
  rcases hnew with rfl | hnew
  · rw [between_self] at hplans ⊢
    exact hplans
  · rw [between_of_le hle start hnew]
    exact hplans

theorem Progress.append {mid : Int} (h : Progress planOf scan mode start d s plans)
    (hmid : s.nextSnapshotId = some mid) (hle : d ≤ d')
    (h' : Progress planOf scan mode mid d' s' plans') :
    Progress planOf scan mode start d' s' (plans ++ plans') := by
  obtain ⟨next, hnext, hstart, hnew, hplans⟩ := h.grow hle
  obtain ⟨next', hnext', hstart', hnew', hplans'⟩ := h'
  cases hmid.symm.trans hnext
  refine ⟨next', hnext', hstart.trans hstart', by omega, ?_⟩
  rw [← between_append d'.log hstart hstart', owed_append, map_append, hplans, hplans']

theorem Progress.checkpoint (h : Progress planOf scan mode start d s plans) :
    ∃ next, start ≤ next ∧ s.nextSnapshotId = some next := by
  obtain ⟨next, hnext, hle, -⟩ := h
  exact ⟨next, hle, hnext⟩

/-! ## one call -/

theorem turn_progress {o : Option (PlanResult Split)} (hid : 1 ≤ id) (h : Turn planOf id d s d' s' o) :
    Progress planOf s.scan s.followUpMode id d' s' (delivered o.toList) := by
  cases h with
  | fails e same | waits same absent polls available => exact .none same
  | skips snapshot found empty now =>
    obtain ⟨d₁, -, hle, hlook⟩ := found
    have hget := Directory.getElem?_of_le hle (Directory.lookup_eq_some.mp hlook).2
    have hbound := (List.getElem?_eq_some_iff.mp hget).1
    refine ⟨id + 1, now, by omega, .inr (by omega), ?_⟩
    rw [between_succ hid hget, owed]
    cases hscan : shouldScan s.followUpMode snapshot with
    | false =>
      rw [filter_cons_of_neg (by simp [hscan])]
      rfl
    | true =>
      obtain ⟨plan, hplan, hempty⟩ := empty hscan
      rw [filter_cons_of_pos hscan, filter_nil, map_cons, hplan,
        filter_cons_of_neg (by simp [carriesSplits, hempty])]
      rfl
  | delivers snapshot found selected plan planned full now =>
    obtain ⟨d₁, -, hle, hlook⟩ := found
    have hget := Directory.getElem?_of_le hle (Directory.lookup_eq_some.mp hlook).2
    have hbound := (List.getElem?_eq_some_iff.mp hget).1
    refine ⟨id + 1, now, by omega, .inr (by omega), ?_⟩
    rw [between_succ hid hget, owed, filter_cons_of_pos selected, filter_nil, map_cons,
      planned, filter_cons_of_pos (by simp [carriesSplits, full])]
    rfl

variable {r : PlanResult Split}

theorem loop_progress (h : Loop (Answers planOf) followUp d s d' s' r) :
    ∀ id, 1 ≤ id → s.nextSnapshotId = some id →
      s.SameScan s' ∧ Progress planOf s.scan s.followUpMode id d' s' (delivered [r]) := by
  induction h with
  | stop run =>
    intro id hid hnext
    obtain ⟨hsame, hturn⟩ := followUp_cases hnext run
    exact ⟨hsame, turn_progress hid hturn⟩
  | again run rest ih =>
    intro id hid hnext
    obtain ⟨hsame, hturn⟩ := followUp_cases hnext run
    have hprog := turn_progress hid hturn
    obtain ⟨next, hle, hnext'⟩ := hprog.checkpoint
    obtain ⟨hsame', hrest⟩ := ih next (by omega) hnext'
    rw [hsame.1, hsame.2.1] at hrest
    exact ⟨hsame.trans hsame', hprog.append hnext' rest.le hrest⟩

theorem planned_le (h : Planned planOf d s d' s' r) : d ≤ d' := by
  cases h with
  | startUp run => exact run.le
  | followUp run loop => exact run.le.trans loop.le

theorem planned_progress (hid : 1 ≤ id) (hnext : s.nextSnapshotId = some id)
    (h : Planned planOf d s d' s' r) :
    s.SameScan s' ∧ Progress planOf s.scan s.followUpMode id d' s' (delivered [r]) := by
  have hne : s.nextSnapshotId ≠ none := by simp [hnext]
  cases h with
  | startUp run =>
    obtain ⟨hsame, hstart⟩ := startUp_cases run
    refine ⟨hsame, ?_⟩
    cases hstart with
    | nothing r empty same fails =>
      obtain ⟨e, rfl⟩ := fails hne
      exact .none (same.trans hnext)
    | initial snapshot scan plan fresh => exact absurd fresh hne
  | followUp run loop =>
    obtain ⟨hsame, hstart⟩ := startUp_cases run
    cases hstart with
    | resumes next had same =>
      subst same
      exact loop_progress loop id hid hnext
    | consumer next fresh => exact absurd fresh hne

/-! ## runs -/

variable {rs : List (PlanResult Split)}

theorem calls_progress (h : Calls (Planned planOf) d s rs d' s') : ∀ id, 1 ≤ id → s.nextSnapshotId = some id →
      s.SameScan s' ∧ Progress planOf s.scan s.followUpMode id d' s' (delivered rs) := by
  induction h with
  | none le =>
    intro id hid hnext
    exact ⟨.refl _, .none hnext⟩
  | cons le first rest ih =>
    intro id hid hnext
    obtain ⟨hsame, hprog⟩ := planned_progress hid hnext first
    obtain ⟨next, hle, hnext'⟩ := hprog.checkpoint
    obtain ⟨hsame', hrest⟩ := ih next (by omega) hnext'
    rw [hsame.1, hsame.2.1] at hrest
    rw [delivered_cons]
    exact ⟨hsame.trans hsame', hprog.append hnext' (rest.le planned_le) hrest⟩

/-- where a stream without a checkpoint started: at the plan of a full snapshot, no older than the
latest one in `d`, or at the consumer's checkpoint -/
inductive Started (planOf : TableScan → SnapshotScanMode → Snapshot → Result (Plan Split))
    (d : Directory) (s : StreamTableScan) (d' : Directory) (s' : StreamTableScan) :
    List (Plan Split) → Prop
  | full (snapshot : Snapshot) (scan : TableScan) (plan : Plan Split) (plans : List (Plan Split))
      (published : d'.log[(snapshot.id - 1).toNat]? = some snapshot) (positive : 1 ≤ snapshot.id)
      (latest : (d.log.length : Int) ≤ snapshot.id) (scanned : initialScan s.scan = .ok scan)
      (planned : planOf scan .all snapshot = .ok plan)
      (progress : Progress planOf s.scan s.followUpMode (snapshot.id + 1) d' s' plans) :
      Started planOf d s d' s' (plan :: plans)
  | consumer (start : Int) (named : s.consumerId ≠ none) (positive : 1 ≤ start)
      (plans : List (Plan Split))
      (progress : Progress planOf s.scan s.followUpMode start d' s' plans) :
      Started planOf d s d' s' plans

theorem Started.append {mid : Int} (h : Started planOf d s d₁ s₁ plans)
    (hmid : s₁.nextSnapshotId = some mid) (hle : d₁ ≤ d')
    (h' : Progress planOf s.scan s.followUpMode mid d' s' plans') :
    Started planOf d s d' s' (plans ++ plans') := by
  cases h with
  | full snapshot scan plan plans published positive latest scanned planned progress =>
    exact .full snapshot scan plan (plans ++ plans') (Directory.getElem?_of_le hle published) positive
      latest scanned planned (progress.append hmid hle h')
  | consumer start named positive plans progress =>
    exact .consumer start named positive (plans ++ plans') (progress.append hmid hle h')

theorem Started.of_later (hle : d ≤ d₁) (hsame : s.SameScan s₁)
    (h : Started planOf d₁ s₁ d' s' plans) : Started planOf d s d' s' plans := by
  cases h with
  | full snapshot scan plan plans published positive latest scanned planned progress =>
    rw [hsame.1] at scanned
    rw [hsame.1, hsame.2.1] at progress
    have hlen := Directory.length_le hle
    exact .full snapshot scan plan plans published positive (by omega) scanned planned progress
  | consumer start named positive plans progress =>
    rw [hsame.2.2] at named
    rw [hsame.1, hsame.2.1] at progress
    exact .consumer start named positive plans progress

theorem Started.checkpoint (h : Started planOf d s d' s' plans) :
    ∃ next, 1 ≤ next ∧ s'.nextSnapshotId = some next := by
  cases h with
  | full snapshot scan plan plans published positive latest scanned planned progress
  | consumer start named positive plans progress =>
    obtain ⟨next, hle, hnext⟩ := progress.checkpoint
    exact ⟨next, by omega, hnext⟩

theorem planned_fresh (hnone : s.nextSnapshotId = none) (h : Planned planOf d s d' s' r) :
    s.SameScan s' ∧ ((s'.nextSnapshotId = none ∧ delivered [r] = []) ∨
      Started planOf d s d' s' (delivered [r])) := by
  cases h with
  | startUp run =>
    obtain ⟨hsame, hstart⟩ := startUp_cases run
    refine ⟨hsame, ?_⟩
    cases hstart with
    | nothing r empty same fails =>
      refine .inl ⟨same.trans hnone, ?_⟩
      rcases r with e | (- | plan)
      · rfl
      · rfl
      · exact absurd rfl (empty plan)
    | initial snapshot scan plan fresh published positive latest scanned planned now =>
      exact .inr (.full snapshot scan plan [] published positive latest scanned planned (.none now))
  | followUp run loop =>
    obtain ⟨hsame, hstart⟩ := startUp_cases run
    cases hstart with
    | resumes next had same => exact absurd (hnone.symm.trans had) (by simp)
    | consumer next fresh named positive now =>
      obtain ⟨hsame', hprog⟩ := loop_progress loop next positive now
      rw [hsame.1, hsame.2.1] at hprog
      exact ⟨hsame.trans hsame', .inr (.consumer next named positive _ hprog)⟩

theorem calls_fresh (h : Calls (Planned planOf) d s rs d' s') (hnone : s.nextSnapshotId = none) :
    s.SameScan s' ∧ ((s'.nextSnapshotId = none ∧ delivered rs = []) ∨
      Started planOf d s d' s' (delivered rs)) := by
  induction h with
  | none le => exact ⟨.refl _, .inl ⟨hnone, rfl⟩⟩
  | cons le first rest ih =>
    obtain ⟨hsame, ⟨hnone', hempty⟩ | hstart⟩ := planned_fresh hnone first
    · obtain ⟨hsame', hrest⟩ := ih hnone'
      refine ⟨hsame.trans hsame', ?_⟩
      rw [delivered_cons, hempty, nil_append]
      exact hrest.imp_right (·.of_later (le.trans (planned_le first)) hsame)
    · obtain ⟨next, hpos, hnext⟩ := hstart.checkpoint
      obtain ⟨hsame', hprog⟩ := calls_progress rest next hpos hnext
      rw [hsame.1, hsame.2.1] at hprog
      rw [delivered_cons]
      refine ⟨hsame.trans hsame', .inr ?_⟩
      exact (hstart.append hnext (rest.le planned_le) hprog).of_later le (.refl _)

/-! ## an expired checkpoint -/

theorem planned_expired (hid : 1 ≤ id) (hexp : id ≤ d.expired) (hnext : s.nextSnapshotId = some id)
    (h : Planned planOf d s d' s' r) :
    s'.nextSnapshotId = some id ∧ ((∃ e, r = .error e) ∨
      r = .ok none ∧ s'.missingSnapshotPolls = s.missingSnapshotPolls + 1 ∧
        s'.missingSnapshotPolls % 16 ≠ 0) := by
  have hne : s.nextSnapshotId ≠ none := by simp [hnext]
  have hturn : ∀ {d₁ d' : Directory} {s' : StreamTableScan} {o : Option (PlanResult Split)}, d ≤ d₁ →
      Turn planOf id d₁ s d' s' o → s'.nextSnapshotId = some id ∧ ((∃ e, o = some (.error e)) ∨
        o = some (.ok none) ∧ s'.missingSnapshotPolls = s.missingSnapshotPolls + 1 ∧
          s'.missingSnapshotPolls % 16 ≠ 0) := by
    intro d₁ d' s' o hle hturn
    have hgone : ∀ {snapshot}, ¬ Sometime d₁ d' fun d₂ => d₂.lookup id = some snapshot := by
      rintro snapshot ⟨d₂, hle₂, -, hlook⟩
      rw [Directory.lookup_expired (hle.trans hle₂) hexp] at hlook
      cases hlook
    cases hturn with
    | fails e same => exact ⟨same, .inl ⟨e, rfl⟩⟩
    | waits same absent polls available =>
      refine ⟨same, .inr ⟨rfl, polls, fun h16 => ?_⟩⟩
      obtain ⟨d₂, hle₂, -, ⟨first, hfirst, hsome⟩ | hempty⟩ := available h16
      · have := (Directory.isSome_lookup.mp hsome).1
        have := (hle.trans hle₂).2
        omega
      · -- the latest snapshot is still there
        have hlast : (d₂.lookup d₂.log.length).isSome = true := by
          rw [Directory.isSome_lookup]
          have := d₂.keepsLatest
          have := (hle.trans hle₂).2
          omega
        rw [hempty] at hlast
        cases hlast
    | skips snapshot found | delivers snapshot found => exact absurd found hgone
  cases h with
  | startUp run =>
    obtain ⟨-, hstart⟩ := startUp_cases run
    cases hstart with
    | nothing r empty same fails => exact ⟨same.trans hnext, .inl (fails hne)⟩
    | initial snapshot scan plan fresh => exact absurd fresh hne
  | followUp run loop =>
    obtain ⟨-, hstart⟩ := startUp_cases run
    cases hstart with
    | consumer next fresh => exact absurd fresh hne
    | resumes next had same =>
      subst same
      cases loop with
      | stop turn =>
        obtain ⟨hsame, hcases⟩ := hturn run.le (followUp_cases hnext turn).2
        refine ⟨hsame, hcases.imp ?_ ?_⟩
        · rintro ⟨e, he⟩
          exact ⟨e, Option.some.inj he⟩
        · rintro ⟨hr, hpolls⟩
          exact ⟨Option.some.inj hr, hpolls⟩
      | again turn rest =>
        obtain ⟨-, ⟨e, he⟩ | ⟨he, -⟩⟩ := hturn run.le (followUp_cases hnext turn).2
        · cases he
        · cases he

theorem calls_expired (h : Calls (Planned planOf) d s rs d' s') :
    ∀ id : Int, 1 ≤ id → id ≤ d.expired → s.nextSnapshotId = some id →
      s'.nextSnapshotId = some id ∧ delivered rs = [] ∧ ((∀ e, Except.error e ∉ rs) →
          ∀ i, 1 ≤ i → i ≤ rs.length → (s.missingSnapshotPolls + i) % 16 ≠ 0) := by
  induction h with
  | none le =>
    intro id hid hexp hnext
    refine ⟨hnext, rfl, ?_⟩
    intro _ i hi hle
    simp only [length_nil] at hle
    omega
  | @cons d d₁ d₂ d' s s₂ s' r rs le first rest ih =>
    intro id hid hexp hnext
    have hexp₁ : id ≤ d₁.expired := by
      have := le.2
      omega
    have hexp₂ : id ≤ d₂.expired := by
      have := (planned_le first).2
      omega
    obtain ⟨hnext₂, hr⟩ := planned_expired hid hexp₁ hnext first
    obtain ⟨hnext', hempty, hpolls⟩ := ih id hid hexp₂ hnext₂
    refine ⟨hnext', ?_, ?_⟩
    · rw [delivered_cons, hempty, append_nil]
      rcases hr with ⟨e, rfl⟩ | ⟨rfl, -⟩ <;> rfl
    · intro hok i hi hle
      rcases hr with ⟨e, rfl⟩ | ⟨rfl, hcount, h16⟩
      · exact absurd mem_cons_self (hok e)
      · rw [length_cons] at hle
        by_cases h1 : i = 1
        · rw [h1, ← hcount]
          exact h16
        · have hlater := hpolls (fun e he => hok e (mem_cons_of_mem _ he)) (i - 1) (by omega) (by omega)
          rw [hcount] at hlater
          have : s.missingSnapshotPolls + i = s.missingSnapshotPolls + 1 + (i - 1) := by omega
          rw [this]
          exact hlater

theorem sixteen_calls (h : Calls (Planned planOf) d s rs d' s') (hid : 1 ≤ id)
    (hexp : id ≤ d.expired) (hnext : s.nextSnapshotId = some id) (hlen : rs.length = 16) :
    ∃ e, Except.error e ∈ rs := by
  by_contra hno
  have hcount := (calls_expired h id hid hexp hnext).2.2 (fun e he => hno ⟨e, he⟩)
  have := hcount (16 - s.missingSnapshotPolls % 16) (by omega) (by omega)
  omega

end

end Paimon.Stream
