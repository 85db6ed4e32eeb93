import Paimon.Commit.ConflictBase

/-!
# Where published snapshots come from

In every run, every published snapshot was prepared from an accepted attempt of one of the
committers, resolved while the sequence was exactly the snapshots before it (`run_publications`).
Invariants of published snapshots are then inductions over the sequence, with one accepted attempt
as the step (`published_induction`).
-/

namespace Paimon

open List

/-- `t` was published after `a` by an accepted attempt of `c`, at the end of a chain of attempts -/
def Publication (c : Committer) (a : List Snapshot) (t : Snapshot) : Prop :=
  ∃ u plan rs past plan' r,
    Retried c.commit c.filterCommitted c.plan a plan rs past ∧
    resolveCommit c.commit (reader a u) plan a.getLast? rs c.filterCommitted = .ok (plan', r) ∧
    Prepared c.commit r a.getLast? c.commitIdentifier t

def AttemptOk (c : Committer) (h : List Snapshot) (l : Local) : Prop :=
  match l.phase with
  | .readLatest => ∃ past, Retried c.commit c.filterCommitted c.plan h l.plan l.retryState past
  | .retry => ∃ past, Retried c.commit c.filterCommitted c.plan h l.plan l.retryState past
  | .check latest => ∃ p past, p <+: h ∧ p.getLast? = latest ∧
      Retried c.commit c.filterCommitted c.plan p l.plan l.retryState past
  | .resolve latest => ∃ p past, p <+: h ∧ p.getLast? = latest ∧
      Retried c.commit c.filterCommitted c.plan p l.plan l.retryState past
  | .publish latest _ r => ∃ p h1 u plan rs past, p <+: h1 ∧ h1 <+: h ∧ p.getLast? = latest ∧
      Retried c.commit c.filterCommitted c.plan p plan rs past ∧
      resolveCommit c.commit (reader h1 u) plan latest rs c.filterCommitted = .ok (l.plan, r)
  | .done _ => True

variable {h h' : List Snapshot} {c : Committer} {l : Local}

theorem AttemptOk.grow (hq : AttemptOk c h l)
    (hext : h <+: h') (hl : Linked h') : AttemptOk c h' l := by
  unfold AttemptOk at hq ⊢
  cases hp : l.phase with
  | readLatest | retry =>
    simp only [hp] at hq ⊢
    obtain ⟨past, hr⟩ := hq
    exact ⟨past, hr.wait hext hl⟩
  | check | resolve =>
    simp only [hp] at hq ⊢
    obtain ⟨p, past, h1, h2⟩ := hq
    exact ⟨p, past, h1.trans hext, h2⟩
  | publish latest t r =>
    simp only [hp] at hq ⊢
    obtain ⟨p, h1, u, plan, rs, past, hp1, hp2, hrest⟩ := hq
    exact ⟨p, h1, u, plan, rs, past, hp1, hp2.trans hext, hrest⟩
  | done r => exact trivial

theorem Linked.eq_of_getLast {p h : List Snapshot} (hl : Linked h) (hp : p <+: h)
    (he : p.getLast? = h.getLast?) : p = h := by
  obtain ⟨q, rfl⟩ := hp
  cases hq : q.getLast? with
  | none => rw [getLast?_eq_none_iff.mp hq, append_nil]
  | some t =>
    rw [getLast?_append, hq, Option.some_or] at he
    have h1 : t ∈ p := mem_of_getLast? he
    have h2 : t ∈ q := mem_of_getLast? hq
    exact absurd ((pairwise_append.mp hl.pairwise).2.2 t h1 t h2) (lt_irrefl _)

theorem AttemptOk.toRetry
    {latest : Option Snapshot} {t : Snapshot} {r : ResolvedCommit} {e : Option Error}
    (hl : Linked h') (hext : h <+: h') (hq : AttemptOk c h l)
    (hp : l.phase = .publish latest t r) : AttemptOk c h' (l.toRetry latest r e) := by
  unfold AttemptOk at hq
  simp only [hp] at hq
  obtain ⟨p, h1, u, plan, rs, past, hp1, hp2, rfl, hr, ha⟩ := hq
  exact ⟨r.entries :: past, (hr.attempt hp1 (hl.mono (hp2.trans hext)) ha).wait (hp2.trans hext) hl⟩

variable {l l' : Local}

theorem AttemptOk.moves (hl : Linked h)
    (hl' : Linked h') (hq : AttemptOk c h l) (hm : Moves c h l h' l') : AttemptOk c h' l' := by
  cases hm with
  | read hp =>
    unfold AttemptOk at hq
    simp only [hp] at hq
    obtain ⟨past, hr⟩ := hq
    exact ⟨h, past, prefix_refl h, rfl, hr⟩
  | pass hp ht =>
    unfold AttemptOk at hq
    simp only [hp] at hq
    exact hq
  | prepare hp hr hs =>
    unfold AttemptOk at hq
    simp only [hp] at hq
    obtain ⟨p, past, hp1, hp2, hret⟩ := hq
    exact ⟨p, h, _, _, _, past, hp1, prefix_refl h, hp2, hret, hr⟩
  | refused hp => exact hq.toRetry hl (prefix_refl h) hp
  | createdLost hp ha => exact hq.toRetry hl' (prefix_append h _) hp
  | again hp =>
    unfold AttemptOk at hq
    simp only [hp] at hq
    exact hq
  | _ => exact trivial

section
variable {ι : Type}

/-- every snapshot after the initial ones was published by one of the committers -/
def AllPublished (cs : ι → Committer) (h0 h : List Snapshot) : Prop :=
  ∀ a t b, h = a ++ t :: b → h0.length ≤ a.length → ∃ i, Publication (cs i) a t

variable {cs : ι → Committer}

theorem AllPublished.moves {h0 h h' : List Snapshot} {i : ι}
    (hs : Shared h0 h) (hk : PhaseOk (cs i) h0 h l.phase) (hq : AttemptOk (cs i) h l)
    (hH : AllPublished cs h0 h) (hm : Moves (cs i) h l h' l') : AllPublished cs h0 h' := by
  rcases hm.history with rfl | ⟨latest, t, r, hp, ha, rfl⟩
  · exact hH
  · intro a x b he hlen
    rcases eq_nil_or_concat b with rfl | ⟨b, y, rfl⟩
    · -- the new snapshot: what the attempt read is still the whole sequence
      obtain ⟨rfl, hx⟩ := append_inj' he rfl
      cases hx
      rw [hp] at hk
      unfold AttemptOk at hq
      simp only [hp] at hq
      obtain ⟨p, h1, u, plan, rs, past, hp1, hp2, hp3, hr, hacc⟩ := hq
      have hlast := hk.last hs ha
      have hph : p = h := hs.linked.eq_of_getLast (hp1.trans hp2) (hp3.trans hlast.symm)
      subst hph
      have hh1 : h1 = p := hp2.eq_of_length_le hp1.length_le
      subst hh1
      rw [← hp3] at hacc
      refine ⟨i, u, plan, rs, past, _, r, hr, hacc, ?_⟩
      rw [hlast]
      exact hk.2
    · have : h = a ++ x :: b := by
        rw [concat_eq_append, ← cons_append, ← append_assoc] at he
        exact (append_inj' he rfl).1
      exact hH a x b this hlen

variable {evs : List (ι × Action)} {s : System ι}

/-- **Every published snapshot comes from an accepted attempt** over the snapshots before it. -/
theorem run_publications [DecidableEq ι] {h0 : List Snapshot}
    (hl : Linked h0)
    (hrun : (System.init cs h0).run cs evs = some s) :
    Shared h0 s.history ∧ AllPublished cs h0 s.history := by
  obtain ⟨hs, hH, _⟩ := run_rule (H := AllPublished cs h0) (Q := fun i => AttemptOk (cs i)) hl (by
      intro a t b he hlen
      have := congrArg List.length he
      simp only [length_append, length_cons] at this
      omega)
    (fun i => ⟨[], .start hl (cs i).fresh⟩)
    (fun i h l h' l' hs hs' hH hk hq hm =>
      ⟨hH.moves hs hk hq hm, hq.moves hs.linked hs'.linked hm⟩)
    (fun i j h l t _ _ hs' _ hq => hq.grow (prefix_append h [t]) hs'.linked)
    hrun
  exact ⟨hs, hH⟩

/-- **Induction over published snapshots.**  What one publication establishes from all snapshots
before it holds of every snapshot of a run that starts with an empty table. -/
theorem published_induction [DecidableEq ι]
    {P : Snapshot → Prop} (hrun : (System.init cs []).run cs evs = some s)
    (hstep : ∀ i a t b, s.history = a ++ t :: b → (∀ x ∈ a, P x) → Publication (cs i) a t → P t) :
    ∀ t ∈ s.history, P t := by
  obtain ⟨_, hH⟩ := run_publications isChain_nil hrun
  -- by the length of a prefix of the sequence
  have key : ∀ n, ∀ x ∈ s.history.take n, P x := by
    intro n
    induction n with
    | zero => simp
    | succ n ih =>
      intro x hx
      by_cases hn : n < s.history.length
      · rw [take_succ_eq_append_getElem hn, mem_append, mem_singleton] at hx
        rcases hx with hx | rfl
        · exact ih x hx
        · have he : s.history = s.history.take n ++ s.history[n] :: s.history.drop (n + 1) := by
            rw [← drop_eq_getElem_cons hn, take_append_drop]
          obtain ⟨i, hpub⟩ := hH _ _ _ he (Nat.zero_le _)
          exact hstep i _ _ _ he ih hpub
      · rw [take_of_length_le (by omega)] at hx
        exact ih x (by rwa [take_of_length_le (by omega)])
  intro t ht
  refine key s.history.length t ?_
  rwa [take_length]

end

end Paimon
