import Paimon.Lib.Compare
import Paimon.SortMerge.Stream

/-!
# The merge functions that select a row

`DeduplicateMergeFunction` and `FirstRowMergeFunction` of `table/sort_merge.rs` look at the system
columns of the rows of one key and select one of them.  Each is written once over any kind of row
with such columns: the code runs it on buffer positions, its meaning is the same selection on the
rows themselves, and the two agree because the columns do (`Selected.agrees`).
-/

set_option linter.unusedSectionVars false

namespace Paimon.SortMerge

open List

variable {κ σ τ ο : Type} [LinearOrder κ] [LinearOrder σ] [DecidableEq τ]

inductive RowKind where
  | insert
  | updateBefore
  | updateAfter
  | delete
deriving DecidableEq, Repr

def RowKind.fromValue (value : Int) : Result RowKind :=
  if value = 0 then .ok .insert
  else if value = 1 then .ok .updateBefore
  else if value = 2 then .ok .updateAfter
  else if value = 3 then .ok .delete
  else .error (.dataInvalid ("Invalid RowKind value: " ++ toString value ++ ", expected 0-3"))

def RowKind.isAdd : RowKind → Bool
  | .insert => true
  | .updateAfter => true
  | _ => false

/-- the system columns a selection depends on -/
structure Version (σ : Type) where
  userSequence : Option σ
  sequenceNumber : Int
  valueKind : Int

def MergeRow.version (m : MergeRow σ) : Version σ :=
  ⟨m.userSequence, m.sequenceNumber, m.valueKind⟩

def InputRow.version (r : InputRow κ σ ο) : Version σ :=
  ⟨r.userSequence, r.sequenceNumber, r.valueKind.getD 0⟩

/-- user sequence first (absent is least), then the sequence number, then retracts before adds -/
def compareSequenceOrder (lhs rhs : Version σ) : Ordering :=
  (compare (lhs.userSequence : WithBot σ) (rhs.userSequence : WithBot σ)).then
    ((compare lhs.sequenceNumber rhs.sequenceNumber).then
      (compare (lhs.valueKind == 0 || lhs.valueKind == 2)
        (rhs.valueKind == 0 || rhs.valueKind == 2)))

def Version.key (v : Version σ) : WithBot σ ×ₗ Int ×ₗ Bool :=
  toLex (v.userSequence, toLex (v.sequenceNumber, v.valueKind == 0 || v.valueKind == 2))

theorem compare_option (a b : Option σ) : compare a b = @compare (WithBot σ) _ a b := by
  cases a with
  | none =>
    cases b with
    | none => exact (compare_eq_iff_eq.mpr rfl).symm
    | some b => exact (compare_lt_iff_lt.mpr (WithBot.bot_lt_coe b)).symm
  | some a =>
    cases b with
    | none => exact (compare_gt_iff_gt.mpr (WithBot.bot_lt_coe a)).symm
    | some b =>
      show compare a b = _
      rcases lt_trichotomy a b with h | h | h
      · rw [compare_lt_iff_lt.mpr h]
        exact (compare_lt_iff_lt.mpr (WithBot.coe_lt_coe.mpr h)).symm
      · rw [compare_eq_iff_eq.mpr h, h]
        exact (compare_eq_iff_eq.mpr rfl).symm
      · rw [compare_gt_iff_gt.mpr h]
        exact (compare_gt_iff_gt.mpr (WithBot.coe_lt_coe.mpr h)).symm

theorem compareSequenceOrder_eq (a b : Version σ) : compareSequenceOrder a b = compare a.key b.key := by
  have hlex : compare a.key b.key = (@compare (WithBot σ) _ a.userSequence b.userSequence).then
        ((compare a.sequenceNumber b.sequenceNumber).then
          (compare (a.valueKind == 0 || a.valueKind == 2) (b.valueKind == 0 || b.valueKind == 2))) := by
    rw [Prod.Lex.compare_def]
    unfold compareLex compareOn
    congr 1
  rw [hlex, compareSequenceOrder, compare_option]

theorem compareSequenceOrder_isGE (a b : Version σ) :
    (compareSequenceOrder a b).isGE = true ↔ b.key ≤ a.key := by
  rw [compareSequenceOrder_eq, Compare.isGE_iff]

theorem compareSequenceOrder_isLE (a b : Version σ) :
    (compareSequenceOrder a b).isLE = true ↔ a.key ≤ b.key := by
  rw [compareSequenceOrder_eq, Compare.isLE_iff]

section select

variable {α : Type} (version : α → Version σ)

/-- the later of two rows; the second on a tie -/
def laterOf (best r : α) : α :=
  if (compareSequenceOrder (version r) (version best)).isGE then r else best

def keepAdd (winner : α) : Result (Option α) :=
  match RowKind.fromValue (version winner).valueKind with
  | .error e => .error e
  | .ok kind => .ok (if kind.isAdd then some winner else none)

/-- the last of the greatest rows; `none` if it retracts -/
def deduplicate : List α → Result (Option α)
  | [] => .error (.unexpectedError "merge called with empty rows")
  | r :: rows => keepAdd version (rows.foldl (laterOf version) r)

/-- the loop of the first-row merge from the best row so far -/
def firstRowFrom (ignoreDelete : Bool) : List α → Option α → Result (Option α)
  | [], first => .ok first
  | r :: rows, first =>
    match RowKind.fromValue (version r).valueKind with
    | .error e => .error e
    | .ok kind =>
      if !kind.isAdd then
        if ignoreDelete then firstRowFrom ignoreDelete rows first
        else .error (.unsupported ("merge-engine=first-row does not support DELETE or " ++
          "UPDATE_BEFORE rows; set ignore-delete=true to ignore them"))
      else
        match first with
        | none => firstRowFrom ignoreDelete rows (some r)
        | some best =>
          if (version r).sequenceNumber < (version best).sequenceNumber then
            firstRowFrom ignoreDelete rows (some r)
          else firstRowFrom ignoreDelete rows (some best)

def firstRow (ignoreDelete : Bool) (rows : List α) : Result (Option α) :=
  firstRowFrom version ignoreDelete rows none

def AllAdds (rows : List α) : Prop :=
  ∀ r ∈ rows, ∃ kind, RowKind.fromValue (version r).valueKind = .ok kind ∧ kind.isAdd = true

theorem foldl_laterOf_greatest (rows : List α) (r : α) : rows.foldl (laterOf version) r ∈ r :: rows ∧
      ∀ x ∈ r :: rows, (version x).key ≤ (version (rows.foldl (laterOf version) r)).key := by
  induction rows generalizing r with
  | nil =>
    refine ⟨mem_cons_self, fun x hx => ?_⟩
    rw [mem_singleton.mp hx]
    exact le_refl _
  | cons r' rows ih =>
    obtain ⟨hmem, hle⟩ := ih (laterOf version r r')
    -- the later of the two is one of them and below neither
    obtain ⟨hor, hr, hr'⟩ : (laterOf version r r' = r ∨ laterOf version r r' = r') ∧
        (version r).key ≤ (version (laterOf version r r')).key ∧
        (version r').key ≤ (version (laterOf version r r')).key := by
      unfold laterOf
      split
      · next h => exact ⟨.inr rfl, (compareSequenceOrder_isGE _ _).mp h, le_refl _⟩
      · next h =>
        have hlt := lt_of_not_ge fun h' => h ((compareSequenceOrder_isGE _ _).mpr h')
        exact ⟨.inl rfl, le_refl _, hlt.le⟩
    have htop := hle _ mem_cons_self
    rw [foldl_cons]
    refine ⟨?_, fun x hx => ?_⟩
    · rcases mem_cons.mp hmem with h | h
      · rw [h]
        rcases hor with h | h
        · rw [h]
          exact mem_cons_self
        · rw [h]
          exact mem_cons_of_mem r mem_cons_self
      · exact mem_cons_of_mem r (mem_cons_of_mem r' h)
    · rcases mem_cons.mp hx with rfl | hx
      · exact hr.trans htop
      · rcases mem_cons.mp hx with rfl | hx
        · exact hr'.trans htop
        · exact hle x (mem_cons_of_mem _ hx)

variable {rows : List α}

theorem deduplicate_greatest (hne : rows ≠ []) :
    ∃ w ∈ rows, (∀ x ∈ rows, (version x).key ≤ (version w).key) ∧
      deduplicate version rows = keepAdd version w := by
  cases rows with
  | nil => exact absurd rfl hne
  | cons r rows =>
    obtain ⟨hmem, hle⟩ := foldl_laterOf_greatest version rows r
    exact ⟨_, hmem, hle, rfl⟩

variable {version}

theorem firstRowFrom_least {ignoreDelete : Bool} (h : AllAdds version rows) (best : α) :
    ∃ w ∈ best :: rows, firstRowFrom version ignoreDelete rows (some best) = .ok (some w) ∧
      (∀ x ∈ best :: rows, (version w).sequenceNumber ≤ (version x).sequenceNumber) ∧
      ((∀ x ∈ rows, (version best).sequenceNumber ≤ (version x).sequenceNumber) → w = best) := by
  induction rows generalizing best with
  | nil =>
    refine ⟨best, mem_cons_self, rfl, fun x hx => ?_, fun _ => rfl⟩
    rw [mem_singleton.mp hx]
  | cons r rows ih =>
    obtain ⟨kind, hkind, hadd⟩ := h r mem_cons_self
    have ih := ih (forall_mem_cons.mp h).2
    rw [firstRowFrom, hkind]
    dsimp only
    rw [hadd, Bool.not_true, if_neg Bool.false_ne_true]
    by_cases hlt : (version r).sequenceNumber < (version best).sequenceNumber
    · rw [if_pos hlt]
      obtain ⟨w, hw, hrun, hle, -⟩ := ih r
      refine ⟨w, mem_cons_of_mem best hw, hrun, fun x hx => ?_, fun hall => ?_⟩
      · rcases mem_cons.mp hx with rfl | hx
        · exact (hle r mem_cons_self).trans hlt.le
        · exact hle x hx
      · exact absurd (hall r mem_cons_self) (not_le.mpr hlt)
    · rw [if_neg hlt]
      obtain ⟨w, hw, hrun, hle, hkeep⟩ := ih best
      refine ⟨w, ?_, hrun, fun x hx => ?_, fun hall => hkeep fun x hx =>
        hall x (mem_cons_of_mem r hx)⟩
      · rcases mem_cons.mp hw with rfl | hw
        · exact mem_cons_self
        · exact mem_cons_of_mem best (mem_cons_of_mem r hw)
      · rcases mem_cons.mp hx with rfl | hx
        · exact hle x mem_cons_self
        · rcases mem_cons.mp hx with rfl | hx
          · exact (hle best mem_cons_self).trans (not_lt.mp hlt)
          · exact hle x (mem_cons_of_mem best hx)

theorem firstRow_least (ignoreDelete : Bool) {r : α} (h : AllAdds version (r :: rows)) :
    ∃ w ∈ r :: rows, firstRow version ignoreDelete (r :: rows) = .ok (some w) ∧
      (∀ x ∈ r :: rows, (version w).sequenceNumber ≤ (version x).sequenceNumber) ∧
      ((∀ x ∈ rows, (version r).sequenceNumber ≤ (version x).sequenceNumber) → w = r) := by
  obtain ⟨kind, hkind, hadd⟩ := h r mem_cons_self
  unfold firstRow
  rw [firstRowFrom, hkind]
  dsimp only
  rw [hadd, Bool.not_true, if_neg Bool.false_ne_true]
  exact firstRowFrom_least (forall_mem_cons.mp h).2 r

end select

/-- two selections from related rows: the same error, nothing, or related rows -/
def Selected {α β : Type} (R : α → β → Prop) : Result (Option α) → Result (Option β) → Prop
  | .ok (some a), .ok (some b) => R a b
  | .ok none, .ok none => True
  | .error e, .error e' => e = e'
  | _, _ => False

section parametric

variable {α β : Type} {va : α → Version σ} {vb : β → Version σ} {R : α → β → Prop} {bs : List β} {as : List α}

theorem foldl_laterOf (hR : ∀ a b, R a b → va a = vb b)
    (h : List.Forall₂ R as bs) {a : α} {b : β} (hab : R a b) :
    R (as.foldl (laterOf va) a) (bs.foldl (laterOf vb) b) := by
  induction h generalizing a b with
  | nil => exact hab
  | cons h _ ih =>
    refine ih ?_
    unfold laterOf
    rw [hR _ _ h, hR _ _ hab]
    split
    · exact h
    · exact hab

theorem deduplicate_selected (hR : ∀ a b, R a b → va a = vb b)
    (h : List.Forall₂ R as bs) : Selected R (deduplicate va as) (deduplicate vb bs) := by
  cases h with
  | nil => exact rfl
  | cons hab h =>
    have hw := foldl_laterOf hR h hab
    show Selected R (keepAdd va _) (keepAdd vb _)
    unfold keepAdd
    rw [hR _ _ hw]
    cases RowKind.fromValue (vb _).valueKind with
    | error e => exact rfl
    | ok kind =>
      cases hk : kind.isAdd
      · simp only [hk, Bool.false_eq_true, if_false, Selected]
      · simpa only [hk, if_true, Selected] using hw

end parametric

/-- the merge result of a selection of buffer positions -/
def selectPosition (selected : Result (Option (MergeRow σ))) : Result (MergeResult τ ο) :=
  selected.map fun
    | some m => .sourceRow m.batchIdx m.rowIdx
    | none => .omitKey

def selectRow (selected : Result (Option (InputRow κ σ ο))) : Result (KeyResult κ σ τ ο) :=
  selected.map fun
    | some r => .sourceRow r
    | none => .omitKey

variable {buffer : List (BufferedBatch κ σ ο)}

theorem Selected.agrees {a : Result (Option (MergeRow σ))}
    {b : Result (Option (InputRow κ σ ο))} (h : Selected (MergeRow.Denotes buffer) a b) :
    Agrees buffer (selectPosition a : Result (MergeResult τ ο)) (selectRow b) := by
  cases a with
  | error e =>
    cases b with
    | error e' => exact h
    | ok b => exact h.elim
  | ok a =>
    cases b with
    | error e' => cases a <;> exact h.elim
    | ok b =>
      cases a with
      | none =>
        cases b with
        | none => trivial
        | some b => exact h.elim
      | some a =>
        cases b with
        | none => exact h.elim
        | some b => exact h.1

theorem version_of_denotes (m : MergeRow σ)
    (r : InputRow κ σ ο) (h : m.Denotes buffer r) : m.version = r.version := by
  obtain ⟨_, h1, h2, h3⟩ := h
  rw [MergeRow.version, InputRow.version, h1, h2, h3]

def DeduplicateMergeFunction : MergeFunction κ σ τ ο where
  merge rows _ := selectPosition (deduplicate MergeRow.version rows)
  value rows := selectRow (deduplicate InputRow.version rows)
  reads _ _ _ h := (deduplicate_selected version_of_denotes h).agrees

end Paimon.SortMerge
