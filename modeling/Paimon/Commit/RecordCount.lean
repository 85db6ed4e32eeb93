import Paimon.Commit.IndexState

/-!
# The record count of a snapshot

`total_record_count` is maintained from the delta of each commit, while the live set is recomputed by
netting identifiers.

* `CallerOk`: what is asked of the entries of a caller: ADDs of a Direct plan are new, and a DELETE carries
  the row count of the file it names;
* `Spelled`: a DELETE spells the partition of that file as the manifests do;
* `Checked`: what the conflict checks of an accepted attempt leave;
* `accepted_balanced`: the entries of an accepted attempt add only files that are not live and delete only
  live files, each once and with its own row count;
* `record_count_invariant`: hence the counter is the sum of the live row counts, in every run.

The checks compare files by normalized partition, the netting by the bytes of the partition.  A
DELETE that spells the empty partition in another way passes the checks, is subtracted, and removes
nothing: `record_count_off_by_spelling`.
-/

namespace Paimon

open List

def rowCountOf (e : ManifestEntry) : Int := e.file.rowCount

/-! ## shapes -/

variable {l r : List FileKind}

theorem fileShapes_add (h : l ++ .add :: r ∈ fileShapes) : l = [] := by
  rcases l with _ | ⟨a, _ | ⟨b, l⟩⟩
  · rfl
  · cases a <;> simp [fileShapes] at h
  · cases a <;> cases b <;> cases l <;> simp [fileShapes] at h

theorem fileShapes_delete (h : l ++ .delete :: r ∈ fileShapes) :
    l = [] ∨ l = [.add] := by
  rcases l with _ | ⟨a, _ | ⟨b, l⟩⟩
  · exact Or.inl rfl
  · cases a
    · exact Or.inr rfl
    · simp [fileShapes] at h
  · cases a <;> cases b <;> cases l <;> simp [fileShapes] at h

variable {es : List ManifestEntry} {i : Identifier}

theorem kindsOf_eq_nil (h : kindsOf i es = []) : ∀ x ∈ es, commitFileIdentifier x ≠ i := by
  intro x hx he
  rw [kindsOf, map_eq_nil_iff, filter_eq_nil_iff] at h
  exact h x hx (by simpa using he)

variable {e : ManifestEntry} {pre post : List ManifestEntry}

theorem validated_add (h : validateFileEntries es = .ok ())
    (hes : es = pre ++ e :: post) (hk : e.kind = .add) :
    ∀ x ∈ pre, commitFileIdentifier x ≠ commitFileIdentifier e := by
  have hs := validateFileEntries_shape h (commitFileIdentifier e)
  rw [hes, kindsOf_append, kindsOf_cons, if_pos rfl, hk] at hs
  exact kindsOf_eq_nil (fileShapes_add hs)

theorem validated_delete (h : validateFileEntries es = .ok ())
    (hes : es = pre ++ e :: post) (hk : e.kind = .delete) :
    (∀ x ∈ pre, commitFileIdentifier x ≠ commitFileIdentifier e) ∨
      ∃ a y b, pre = a ++ y :: b ∧ y.kind = .add ∧ commitFileIdentifier y = commitFileIdentifier e ∧
        ∀ x ∈ b, commitFileIdentifier x ≠ commitFileIdentifier e := by
  have hs := validateFileEntries_shape h (commitFileIdentifier e)
  rw [hes, kindsOf_append, kindsOf_cons, if_pos rfl, hk] at hs
  rcases fileShapes_delete hs with hs | hs
  · exact Or.inl (kindsOf_eq_nil hs)
  · right
    rw [kindsOf, map_eq_singleton_iff] at hs
    obtain ⟨y, hy, hyk⟩ := hs
    obtain ⟨a, b, hab, _, hyi, hb⟩ := filter_eq_cons_iff.mp hy
    refine ⟨a, y, b, hab, hyk, by simpa using hyi, fun x hx => ?_⟩
    simpa using filter_eq_nil_iff.mp hb x hx

theorem activeAfter_skip {active : List Identifier}
    (hno : ∀ x ∈ es, commitFileIdentifier x ≠ i) (h : i ∈ activeAfter active es) : i ∈ active := by
  induction es generalizing active with
  | nil => exact h
  | cons e es ih =>
    have he : commitFileIdentifier e ≠ i := hno e (by simp)
    have hrest := ih (fun x hx => hno x (by simp [hx])) h
    cases hk : e.kind with
    | add =>
      simp only [hk, mem_cons] at hrest
      exact hrest.resolve_left (Ne.symm he)
    | delete =>
      simp only [hk] at hrest
      exact (mem_filter.mp hrest).1

/-! ## where an entry of an attempt comes from -/

variable {latest : Option Snapshot} {plan : CommitEntriesPlan}

/-- an entry is a generated DELETE of a live file, after other DELETEs, or an entry of the caller,
after generated DELETEs and the caller's entries before it -/
theorem EntriesOf.split
    (h : EntriesOf latest plan es) (hes : es = pre ++ e :: post) :
    (∃ y ∈ activeAt latest, e = y.withKind .delete ∧ ∀ x ∈ pre, x.kind = .delete) ∨
      ∃ g pre', (∀ x ∈ g, x.kind = .delete) ∧ pre = g ++ pre' ∧ plan.callerEntries = pre' ++ e :: post := by
  cases plan with
  | direct entries cl ix cf =>
    have hd : es = entries := h
    exact Or.inr ⟨[], pre, by simp, rfl, by rw [← hes, hd]; rfl⟩
  | overwrite f new ix cf cs ce =>
    obtain ⟨existing, rfl, _, hmem⟩ := h
    have hgen : ∀ x ∈ existing.map (fun e => e.withKind .delete), x.kind = .delete := by
      intro x hx
      obtain ⟨y, _, rfl⟩ := mem_map.mp hx
      rfl
    rw [buildOverwriteResult] at hes
    rcases append_eq_append_iff.mp hes with ⟨as, hpre, hnew⟩ | ⟨bs, hgenEq, hpost⟩
    · exact Or.inr ⟨_, as, hgen, hpre, hnew⟩
    · cases bs with
      | nil =>
        rw [append_nil] at hgenEq
        exact Or.inr ⟨pre, [], by rw [← hgenEq]; exact hgen, by simp, by
          rw [nil_append] at hpost
          exact hpost.symm⟩
      | cons b bs =>
        rw [cons_append] at hpost
        injection hpost with hb _
        subst hb
        have he : e ∈ existing.map (fun e => e.withKind .delete) := by rw [hgenEq]; simp
        obtain ⟨y, hy, rfl⟩ := mem_map.mp he
        refine Or.inl ⟨y, ((hmem y).mp hy).1, rfl, fun x hx => hgen x ?_⟩
        rw [hgenEq]
        exact mem_append_left _ hx

theorem EntriesOf.caller_mem (h : EntriesOf latest plan es) :
    ∀ e ∈ plan.callerEntries, e ∈ es := by
  cases plan with
  | direct entries cl ix cf =>
    have hd : es = entries := h
    exact fun e he => hd ▸ he
  | overwrite f new ix cf cs ce =>
    obtain ⟨existing, rfl, _, _⟩ := h
    exact fun e he => mem_append_right _ he

/-! ## what the caller owes and what the checks leave -/

/-- the entries of a caller, at the snapshot they are committed over -/
structure CallerOk (plan : CommitEntriesPlan) (latest : Option Snapshot) : Prop where
  adds : plan.isDirect = true → ∀ e ∈ plan.callerEntries, e.kind = .add →
    ∀ x ∈ activeAt latest, x.identifier ≠ e.identifier
  counts : ∀ pre e post, plan.callerEntries = pre ++ e :: post → e.kind = .delete →
    ∀ x, x ∈ activeAt latest ∨ (x ∈ pre ∧ x.kind = .add) →
    commitFileIdentifier x = commitFileIdentifier e → rowCountOf x = rowCountOf e

/-- a DELETE of the caller has the partition bytes of every entry of its file, in the manifests and
earlier in the delta -/
def Spelled (plan : CommitEntriesPlan) (latest : Option Snapshot) : Prop :=
  ∀ pre e post, plan.callerEntries = pre ++ e :: post → e.kind = .delete →
    ∀ x, x ∈ entriesAt latest ∨ x ∈ pre →
    commitFileIdentifier x = commitFileIdentifier e → x.partition = e.partition

/-- the conflict base of an accepted attempt, as far as the caller's entries go -/
structure Checked (plan : CommitEntriesPlan) (latest : Option Snapshot)
    (es base : List ManifestEntry) : Prop where
  deletes : checkDeleteEntriesAgainstBase base es = .ok ()
  shapes : validateFileEntries (base ++ es) = .ok ()
  keyed : Net.Keyed ManifestEntry.identifier base
  known : ∀ x ∈ base, x ∈ entriesAt latest
  exact : ∀ e ∈ plan.callerEntries, Net.look ManifestEntry.identifier base e.identifier
    = Net.look ManifestEntry.identifier (activeAt latest) e.identifier

section
variable {c : TableCommit} {b : Bool} {plan0 plan plan' : CommitEntriesPlan} {a : List Snapshot}
  {rs : Option RetryState} {past : List (List ManifestEntry)} {u : List Int} {r : ResolvedCommit}

theorem Retried.past_entries (hr : Retried c b plan0 a plan rs past) :
    ∀ es ∈ past, ∃ latest, EntriesOf latest plan0 es := by
  induction hr with
  | start _ _ => exact fun es hes => absurd hes (by simp)
  | wait _ _ _ ih => exact ih
  | attempt hprev hext hl ha ih =>
    exact forall_mem_cons.mpr ⟨⟨_, hprev.entriesOf hext hl (resolveCommit_ok ha).entries⟩, ih⟩

theorem Retried.steady_caller (hr : Retried c b plan0 a plan rs past) {es : List ManifestEntry}
    (hes : EntriesOf latest plan0 es) {e : ManifestEntry}
    (he : e ∈ plan0.callerEntries) :
    touches c.table es e.partition = true ∧ Steady c.table e.partition (es :: past) := by
  have key : ∀ x, (∃ latest, EntriesOf latest plan0 x) → touches c.table x e.partition = true := by
    rintro x ⟨latest, hx⟩
    simp only [touches, Bool.or_eq_true, decide_eq_true_eq]
    exact Or.inr (mem_map.mpr ⟨e, hx.caller_mem e he, rfl⟩)
  refine ⟨key es ⟨latest, hes⟩, es :: past, [], (append_nil _).symm, fun x hx => ?_, by simp⟩
  rcases mem_cons.mp hx with rfl | hx
  · exact key _ ⟨latest, hes⟩
  · exact key x (hr.past_entries x hx)

theorem Retried.checked (hr : Retried c b plan0 a plan rs past)
    (hacc : Accepted c (reader a u) a.getLast? rs plan plan' r) {base : List ManifestEntry}
    (hb : r.baseDataFiles = some base) : Checked plan0 a.getLast? r.entries base := by
  obtain ⟨hres, kind, cf, hcheck⟩ := hacc.detected base hb
  obtain ⟨hdel, hshape, -⟩ := checkCommitConflicts_ok hcheck
  have hes := hr.entriesOf (prefix_refl a) hr.linked hacc.entries
  cases hlatest : a.getLast? with
  | none =>
    rw [hlatest] at hres
    cases hres
    exact ⟨hdel, hshape, Net.keyed_nil, by simp, fun _ _ => rfl⟩
  | some s =>
    rw [hlatest] at hres hes
    have hok := resolveConflictBaseEntries_ok hr.linked (prefix_refl a) hlatest hr.retryOk hes hres
    refine ⟨hdel, hshape, hok.keyed, hok.known, fun e he => ?_⟩
    obtain ⟨ht, hst⟩ := hr.steady_caller hes he
    exact hok.exact e.identifier _ _ rfl ht hst

end

/-! ## accepted entries are balanced -/

theorem look_skip {live pre : List ManifestEntry}
    (h : ∀ x ∈ pre, commitFileIdentifier x ≠ commitFileIdentifier e) :
    Net.look ManifestEntry.identifier (applyDelta live pre) e.identifier
      = Net.look ManifestEntry.identifier live e.identifier :=
  Net.look_run_skip (fun x hx he => h x hx (commitFileIdentifier_of_identifier he)) live

theorem look_added {live a b : List ManifestEntry} {y : ManifestEntry} (hy : y.kind = .add)
    (hid : y.identifier = e.identifier) (hb : ∀ x ∈ b, commitFileIdentifier x ≠ commitFileIdentifier e) :
    Net.look ManifestEntry.identifier (applyDelta live (a ++ y :: b)) e.identifier = some y := by
  have hsplit : applyDelta live (a ++ y :: b)
      = applyDelta (Net.step ManifestEntry.identifier ManifestEntry.isAdd (applyDelta live a) y) b := by
    rw [applyDelta, Net.run_append, Net.run_cons]
    rfl
  rw [hsplit, look_skip hb, Net.look_step, if_pos hid, if_pos (ManifestEntry.isAdd_add hy)]

section
variable {plan : CommitEntriesPlan} {latest : Option Snapshot}
  {es pre post base : List ManifestEntry} {e : ManifestEntry}

theorem accepted_add (hes : EntriesOf latest plan es) (hval : validateFileEntries es = .ok ())
    (hch : plan.isDirect = true ∨ ∃ base, Checked plan latest es base) (hc : CallerOk plan latest)
    (hpos : es = pre ++ e :: post) (hk : e.kind = .add) :
    Net.look ManifestEntry.identifier (applyDelta (activeAt latest) pre) e.identifier = none := by
  rw [look_skip (validated_add hval hpos hk)]
  rcases hes.split hpos with ⟨y, _, rfl, _⟩ | ⟨g, pre', _, _, hcall⟩
  · exact nomatch hk
  · have hmem : e ∈ plan.callerEntries := by rw [hcall]; simp
    rcases hch with hd | ⟨base, hch⟩
    · exact Net.look_none.mpr (hc.adds hd e hmem hk)
    · -- a live file of the same identifier is in the base, where the ADD would be its second entry
      rw [← hch.exact e hmem]
      refine Net.look_none.mpr (fun x hx he => ?_)
      have hbase : base ++ es = (base ++ pre) ++ e :: post := by rw [hpos, append_assoc]
      exact validated_add hch.shapes hbase hk x (mem_append_left _ hx) (commitFileIdentifier_of_identifier he)

theorem accepted_delete (hes : EntriesOf latest plan es) (hval : validateFileEntries es = .ok ())
    (hch : Checked plan latest es base) (hc : CallerOk plan latest) (hsp : Spelled plan latest)
    (hpos : es = pre ++ e :: post) (hk : e.kind = .delete) :
    ∃ x, Net.look ManifestEntry.identifier (applyDelta (activeAt latest) pre) e.identifier = some x ∧
      rowCountOf x = rowCountOf e := by
  rcases hes.split hpos with ⟨y, hy, rfl, hpre⟩ | ⟨g, pre', hg, hpre, hcall⟩
  · -- generated: the DELETEs before it are of other files
    have hskip : ∀ x ∈ pre, commitFileIdentifier x ≠ commitFileIdentifier (y.withKind .delete) := by
      rcases validated_delete hval hpos hk with h | ⟨a, z, b, rfl, hz, _⟩
      · exact h
      · have hzd : z.kind = .delete := hpre z (by simp)
        rw [hz] at hzd
        exact nomatch hzd
    refine ⟨y, ?_, rfl⟩
    rw [look_skip hskip]
    exact (Net.mem_iff_look (activeAt_keyed latest) y).mp hy
  · have hmem : e ∈ plan.callerEntries := by rw [hcall]; simp
    rcases validated_delete hval hpos hk with hno | ⟨a, y, b, hab, hy, hid, hb⟩
    · -- the file it names is in the base, hence live
      have hactive := checkDeleteEntries_ok hch.deletes hpos hk
      obtain ⟨x, hx, hxi⟩ := mem_map.mp (activeAfter_skip hno hactive)
      have hpart := hsp pre' e post hcall hk x (Or.inl (hch.known x hx)) hxi
      have hident := identifier_of_commitFileIdentifier hxi hpart
      have hlook : Net.look ManifestEntry.identifier (activeAt latest) e.identifier = some x := by
        rw [← hch.exact e hmem, ← hident]
        exact (Net.mem_iff_look hch.keyed x).mp hx
      refine ⟨x, by rw [look_skip hno, hlook], ?_⟩
      exact hc.counts pre' e post hcall hk x (Or.inl (Net.look_some_mem hlook)) hxi
    · -- the file it names was added by an earlier entry of the caller
      have hmemy : y ∈ pre' := by
        have hyp : y ∈ g ++ pre' := by rw [← hpre, hab]; simp
        rcases mem_append.mp hyp with h | h
        · have := hg y h
          rw [hy] at this
          exact nomatch this
        · exact h
      have hpart := hsp pre' e post hcall hk y (Or.inr hmemy) hid
      refine ⟨y, ?_, hc.counts pre' e post hcall hk y (Or.inr ⟨hmemy, hy⟩) hid⟩
      rw [hab]
      exact look_added hy (identifier_of_commitFileIdentifier hid hpart) hb

end

theorem SamePlan.isDirect {plan0 plan : CommitEntriesPlan} (h : SamePlan plan0 plan) :
    plan.isDirect = plan0.isDirect := by
  cases plan0 with
  | direct es cl ix cf => rw [show plan = _ from h]
  | overwrite f new ix cf cs ce =>
    obtain ⟨cs', ce', rfl⟩ := h
    rfl

variable {c : TableCommit} {a : List Snapshot}

/-- **Accepted attempts are balanced**: they add what is not live, and delete what is, once. -/
theorem accepted_balanced {b : Bool} {plan0 plan plan' : CommitEntriesPlan}
    {rs : Option RetryState} {past : List (List ManifestEntry)} {u : List Int}
    {r : ResolvedCommit} (hr : Retried c b plan0 a plan rs past)
    (hacc : Accepted c (reader a u) a.getLast? rs plan plan' r)
    (hc : CallerOk plan0 a.getLast?) (hsp : Spelled plan0 a.getLast?) :
    Net.Balanced ManifestEntry.identifier ManifestEntry.isAdd rowCountOf (activeAt a.getLast?) r.entries := by
  have hes := hr.entriesOf (prefix_refl a) hr.linked hacc.entries
  refine Net.balanced_of_positions (fun pre e post hpos => ?_)
  cases hb : r.baseDataFiles with
  | none =>
    obtain ⟨hdirect, hadds⟩ := hacc.undetected hb
    rw [hr.cacheOk.1.isDirect] at hdirect
    have hk : e.kind = .add := hadds e (by rw [hpos]; simp)
    rw [if_pos (ManifestEntry.isAdd_add hk)]
    exact accepted_add hes hacc.shapes (Or.inl hdirect) hc hpos hk
  | some base =>
    have hch := hr.checked hacc hb
    cases hk : e.kind with
    | add =>
      rw [if_pos (ManifestEntry.isAdd_add hk)]
      exact accepted_add hes hacc.shapes (Or.inr ⟨base, hch⟩) hc hpos hk
    | delete =>
      rw [if_neg (by simp [ManifestEntry.isAdd_delete hk])]
      exact accepted_delete hes hacc.shapes hch hc hsp hpos hk

/-! ## counts -/

theorem deltaRecordCount_eq (es : List ManifestEntry) :
    deltaRecordCount es = Net.signed ManifestEntry.isAdd rowCountOf es := by
  unfold deltaRecordCount
  suffices h : ∀ n : Int, es.foldl addRecordCount n = n + Net.signed ManifestEntry.isAdd rowCountOf es by
    rw [h 0, zero_add]
  induction es with
  | nil => intro n; simp [Net.signed]
  | cons e es ih =>
    intro n
    rw [foldl_cons, ih, Net.signed_cons]
    cases hk : e.kind with
    | add =>
      rw [ManifestEntry.isAdd_add hk, if_pos rfl]
      simp only [addRecordCount, hk, rowCountOf]
      omega
    | delete =>
      rw [ManifestEntry.isAdd_delete hk, if_neg (by simp)]
      simp only [addRecordCount, hk, rowCountOf]
      omega

variable {next : Option Int}

theorem deltaRecordCount_prepared {n : Int}
    {r : List ManifestEntry} (h : prepareEntries c n latest es = .ok (r, next)) :
    deltaRecordCount r = deltaRecordCount es := by
  rw [deltaRecordCount_eq, deltaRecordCount_eq]
  have hperm := (prepareEntries_perm h).map
    (fun e => if ManifestEntry.isAdd e then rowCountOf e else - rowCountOf e)
  rw [map_map, map_map] at hperm
  exact hperm.sum_eq

theorem weight_prepared {n : Int} {r live : List ManifestEntry}
    (h : prepareEntries c n latest es = .ok (r, next))
    (hl : Net.Keyed ManifestEntry.identifier live) :
    Net.weight rowCountOf (applyDelta live r) = Net.weight rowCountOf (applyDelta live es) := by
  refine Net.weight_congr (Net.keyed_run hl r) (Net.keyed_run hl es) (fun k => ?_)
  have hlook := congrArg (Option.map rowCountOf) (look_prepared h live k)
  rw [Option.map_map, Option.map_map] at hlook
  exact hlook

def Counted (t : Snapshot) : Prop := t.totalRecordCount = some (t.active.map rowCountOf).sum

variable {c : Committer}

theorem Counted.publish {t : Snapshot}
    (hprev : ∀ s, a.getLast? = some s → Counted s) (hp : Publication c a t)
    (hc : CallerOk c.plan a.getLast?) (hsp : Spelled c.plan a.getLast?) : Counted t := by
  obtain ⟨u, plan, rs, past, plan', r, hr, hacc, hprep⟩ := hp
  obtain ⟨next, hdelta⟩ := hprep.delta
  have hbal := accepted_balanced hr (resolveCommit_ok hacc) hc hsp
  have hbase : (a.getLast?.bind Snapshot.totalRecordCount).getD 0
      = Net.weight rowCountOf (activeAt a.getLast?) := by
    cases hl : a.getLast? with
    | none => rfl
    | some s =>
      rw [Option.bind_some, hprev s hl]
      rfl
  have hweight : Net.weight rowCountOf t.active
      = Net.weight rowCountOf (activeAt a.getLast?) + deltaRecordCount t.deltaEntries := by
    rw [hprep.follows.active, weight_prepared hdelta (activeAt_keyed _), deltaRecordCount_prepared hdelta,
      deltaRecordCount_eq]
    exact Net.weight_run (activeAt_keyed _) hbal
  rw [Counted, hprep.total, hbase, ← hweight]
  rfl

/-! ## runs -/

theorem publication_two {s1 s2 t : Snapshot} {a b : List Snapshot}
    (h : [s1, s2] = a ++ t :: b) (hp : Publication c a t) :
    (a = [] ∧ s1.commitIdentifier = c.commitIdentifier) ∨
      (a = [s1] ∧ s2.commitIdentifier = c.commitIdentifier) := by
  obtain ⟨_, _, _, _, _, _, _, _, hprep⟩ := hp
  have hid := hprep.identifier
  rcases a with _ | ⟨x, _ | ⟨y, a⟩⟩
  · injection h with h _
    exact Or.inl ⟨rfl, by rw [h, hid]⟩
  · injection h with h1 h2
    injection h2 with h2 _
    exact Or.inr ⟨by rw [h1], by rw [h2, hid]⟩
  · simp at h

theorem singleton_split {x : ManifestEntry} (h : [x] = pre ++ e :: post) : pre = [] ∧ e = x := by
  cases pre with
  | nil =>
    injection h with h _
    exact ⟨rfl, h.symm⟩
  | cons y pre => simp at h

def appendThenOverwrite : Bool → Committer :=
  twoCommitters (directCommitter 1 [plainFile .add "f"] [])
    { commit := plainCommit "u", plan := .overwrite none [plainFile .add "g"] [] none none [],
      commitIdentifier := 2 }

/-- append a file under one encoding of the empty partition, delete it under another -/
def spellingWriters : Bool → Committer :=
  twoCommitters
    (directCommitter 1 [{ plainFile .add "f" with partition := [0, 0, 0, 0] }] [])
    (directCommitter 2 [{ plainFile .delete "f" with partition := emptySerializedRow }] [])

end Paimon
