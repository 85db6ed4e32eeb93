import Paimon.Commit.ExactlyOnce
import Paimon.Commit.Published
import Paimon.Commit.RecordCount
import Paimon.Commit.RowTracking

/-!
# Concurrent commits are serial commits

`Serial`: one committer after the other resolves its plan over everything published before it and publishes its
snapshot, alone.  Committers that interleave, retry and lose responses do nothing else (`run_serial`), so the row
ids they give to new files never meet.
-/

namespace Paimon

open Tiling List

/-- an attempt of `c`, after any number of earlier ones, that was accepted over all of `h` -/
def AcceptedOver (c : Committer) (h : List Snapshot) (commit : Publishing) : Prop :=
  ∃ u plan rs past plan', Retried c.commit c.filterCommitted c.plan h plan rs past ∧
    resolveCommit c.commit (reader h u) plan h.getLast? rs c.filterCommitted = .ok (plan', commit.2.1) ∧
    commit.1 = c.commit ∧ commit.2.2 = c.commitIdentifier

inductive Serial {ι : Type} (cs : ι → Committer) (h0 : List Snapshot) : List Publishing → List Snapshot → Prop
  | start : Serial cs h0 [] h0
  | turn {commits : List Publishing} {h : List Snapshot} {commit : Publishing} {t : Snapshot} (i : ι)
      (before : Serial cs h0 commits h) (accepted : AcceptedOver (cs i) h commit)
      (prepared : prepareSnapshot commit.1 commit.2.1 h.getLast? commit.2.2 = .ok t) :
      Serial cs h0 (commits ++ [commit]) (h ++ [t])

/-- a snapshot that waits to be published is the one its committer prepared -/
def Waiting (c : Committer) (l : Local) : Prop :=
  ∀ latest t r, l.phase = .publish latest t r → prepareSnapshot c.commit r latest c.commitIdentifier = .ok t

variable {c : Committer} {h h' h0 : List Snapshot} {l l' : Local}

theorem Moves.waiting (hm : Moves c h l h' l') : Waiting c l' := by
  intro latest t r hp
  cases hm with
  | prepare _ _ hs =>
    cases hp
    exact hs
  | _ => cases hp

section
variable {ι : Type} {cs : ι → Committer} {commits : List Publishing}

/-- a publication that takes effect is the next turn: what its attempt has read is still everything -/
theorem Serial.moves {i : ι} (hs : Shared h0 h) (hk : PhaseOk (cs i) h0 h l.phase) (hq : AttemptOk (cs i) h l)
    (hw : Waiting (cs i) l) (hH : Serial cs h0 commits h) (hm : Moves (cs i) h l h' l') :
    ∃ commits, Serial cs h0 commits h' := by
  obtain rfl | ⟨latest, t, r, hp, ha, rfl⟩ := hm.history
  · exact ⟨commits, hH⟩
  · unfold AttemptOk at hq
    simp only [hp] at hq
    obtain ⟨p, h1, u, plan, rs, past, hp1, hp2, hlatest, hr, hacc⟩ := hq
    rw [hp] at hk
    have hlast := hk.last hs ha
    obtain rfl : p = h := hs.linked.eq_of_getLast (hp1.trans hp2) (hlatest.trans hlast.symm)
    obtain rfl : h1 = p := hp2.eq_of_length_le hp1.length_le
    subst hlatest
    have hover : AcceptedOver (cs i) h1 ((cs i).commit, r, (cs i).commitIdentifier) :=
      ⟨u, plan, rs, past, _, hr, hacc, rfl, rfl⟩
    exact ⟨_, hH.turn i hover (hw _ t r hp)⟩

/-! ## row ids -/

def CountsOk (es : List ManifestEntry) : Prop := ∀ e ∈ es, 0 ≤ e.file.rowCount

theorem AcceptedOver.countsOk {commit : Publishing} (ha : AcceptedOver c h commit) (hl : Linked h)
    (hcaller : CountsOk c.plan.callerEntries) (hlive : CountsOk (activeAt h.getLast?)) :
    CountsOk commit.2.1.entries := by
  obtain ⟨u, plan, rs, past, plan', hr, hres, -⟩ := ha
  have hes : EntriesOf h.getLast? c.plan commit.2.1.entries :=
    hr.entriesOf (prefix_refl h) hl (resolveCommit_ok hres).entries
  intro e he
  obtain ⟨pre, post, hsplit⟩ := append_of_mem he
  -- the DELETEs of an overwrite are of live files
  obtain ⟨y, hy, rfl, -⟩ | ⟨g, pre', -, -, hc⟩ := hes.split hsplit
  · exact hlive y hy
  · apply hcaller
    rw [hc]
    simp

theorem countsOk_active {t : Snapshot} {latest : Option Snapshot} {r : ResolvedCommit} {n : Int}
    {c : TableCommit} (ht : prepareSnapshot c r latest n = .ok t) (hr : CountsOk r.entries)
    (hlive : CountsOk (activeAt latest)) : CountsOk t.active := by
  intro e he
  rw [(prepareSnapshot_ok ht).follows.active] at he
  obtain he | ⟨he, -⟩ := Net.mem_run he
  · exact hlive e he
  · have hmem := (prepareEntries_perm (prepareSnapshot_entries ht)).mem_iff.mp (mem_map_of_mem he)
    obtain ⟨x, hx, heq⟩ := mem_map.mp hmem
    rw [← untracked_rowCount, ← heq]
    exact hr x hx

def runRowIds (h0 : List Snapshot) (commits : List Publishing) (h : List Snapshot) : List (Int × Int) :=
  (commits.zip (published h0 h)).flatMap fun x => snapshotRowIds x.1 x.2

structure LaidOut (h0 : List Snapshot) (commits : List Publishing) (h : List Snapshot) : Prop where
  shared : Shared h0 h
  counts : CountsOk (activeAt h.getLast?)
  turns : commits.length = (published h0 h).length
  tile : Tile (firstRowIdStart h0.getLast?) (runRowIds h0 commits h) (firstRowIdStart h.getLast?)
  nonneg : ∀ r ∈ runRowIds h0 commits h, 0 ≤ r.2

theorem Serial.laidOut (h : Serial cs h0 commits h') (hl : Linked h0)
    (htracking : ∀ i, (cs i).commit.rowTrackingEnabled = true)
    (hcaller : ∀ i, CountsOk (cs i).plan.callerEntries) (hlive : CountsOk (activeAt h0.getLast?)) :
    LaidOut h0 commits h' := by
  induction h with
  | start => exact ⟨shared_refl hl, hlive, by simp [published], rfl, by simp [runRowIds]⟩
  | @turn commits h commit t i _ accepted prepared ih =>
    have hentries := accepted.countsOk ih.shared.linked (hcaller i) ih.counts
    obtain ⟨-, -, -, -, -, -, -, hc, -⟩ := accepted
    obtain ⟨htile, hnonneg⟩ := prepareSnapshot_rowIds prepared ⟨by rw [hc]; exact htracking i, hentries⟩
    have hnew := published_concat ih.shared.extend t
    have hids : runRowIds h0 (commits ++ [commit]) (h ++ [t])
        = runRowIds h0 commits h ++ snapshotRowIds commit t := by
      rw [runRowIds, hnew, zip_append ih.turns, flatMap_append, zip_cons_cons, zip_nil_left, flatMap_singleton]
      rfl
    refine ⟨ih.shared.concat (prepareSnapshot_ok prepared).follows, ?_, ?_, ?_, ?_⟩
    · rw [getLast?_concat]
      exact countsOk_active prepared hentries ih.counts
    · rw [hnew, length_append, length_append, ih.turns]
      rfl
    · rw [hids, getLast?_concat]
      exact ih.tile.append htile
    · rw [hids]
      exact forall_mem_append.mpr ⟨ih.nonneg, hnonneg⟩

end

def trackingWriter (commitIdentifier : Int) (name : String) : Committer :=
  { directCommitter commitIdentifier [newFile [] name 10 none] [] with
    commit := { plainCommit "u" with rowTrackingEnabled := true } }

def trackingWriters : Bool → Committer := twoCommitters (trackingWriter 5 "f") (trackingWriter 7 "g")

end Paimon
