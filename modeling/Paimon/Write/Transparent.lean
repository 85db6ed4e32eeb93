import Paimon.Write.Flush

/-!
# Flushing is not seen by a merge

However the rows of a writer are cut into flushes, the read-side merge of what was flushed shows for
every key the row that the merge of all written rows shows.

* `Stands m g`: what a flush keeps of the rows `g` of one key, engine by engine;
* `flushRows_spec`: a flush keeps exactly one such row per key;
* `Flushed`: what the flushed rows of one key are after any number of flushes;
* `Flushed.merge_eq`: the merge cannot tell them from the rows that arrived.

For partial-update no field may belong to two sequence groups: a shared sequence field is taken from
the row that moved the last of its groups, so the merged row no longer carries the sequence by which
the other group was decided.
-/

set_option linter.unusedSectionVars false

namespace Paimon.Write

open SortMerge PartialUpdate List

variable {κ ν : Type} {n : Nat} [LinearOrder κ] [LinearOrder ν]

/-- the tables and rows in question: any kinds for deduplicate; inserts without user sequence for the
other engines -/
def Supported (cfg : WriterConfig n) (rows : List (WriteRow κ n ν)) : Prop :=
  match cfg.engine with
  | .deduplicate => ∀ r ∈ rows, ∃ kind, RowKind.fromValue (kindOf cfg r) = .ok kind
  | _ => cfg.sequenceFieldIndices = [] ∧ ∀ r ∈ rows, kindOf cfg r = 0

/-- no field in two sequence groups, and no merge within a flush that must leave a NOT NULL column
without value -/
def GroupsApart (cfg : WriterConfig n) (rows : List (WriteRow κ n ν)) : Prop :=
  match cfg.engine with
  | .partialUpdate f => DisjointGroups f.sequenceGroups ∧ ∀ r ∈ rows, RespectsNotNull f r.columns
  | _ => True

/-- both, for a row with system columns -/
def Fits (cfg : WriterConfig n) (x : KeyValueRow κ n ν) : Prop :=
  match cfg.engine with
  | .deduplicate => ∃ kind, RowKind.fromValue x.valueKind = .ok kind
  | .firstRow => cfg.sequenceFieldIndices = [] ∧ x.valueKind = 0
  | .partialUpdate f => cfg.sequenceFieldIndices = [] ∧ x.valueKind = 0 ∧
      DisjointGroups f.sequenceGroups ∧ RespectsNotNull f x.columns

variable {cfg : WriterConfig n}

theorem number_fits {start : Int} {rows : List (WriteRow κ n ν)} (hs : Supported cfg rows)
    (hg : GroupsApart cfg rows) :
    ∀ x ∈ number cfg start rows, Fits cfg x := by
  intro x hx
  obtain ⟨r, hr, -, hkind, hcols⟩ := number_origin hx
  unfold Supported at hs
  unfold GroupsApart at hg
  unfold Fits
  rw [hkind, hcols]
  split at hs
  · next he =>
    rw [he]
    exact hs r hr
  · next he =>
    cases hengine : cfg.engine with
    | deduplicate => exact absurd hengine he
    | firstRow => exact ⟨hs.1, hs.2 r hr⟩
    | partialUpdate f =>
      rw [hengine] at hg
      exact ⟨hs.1, hs.2 r hr, hg.1, hg.2 r hr⟩

/-- `m` is what a flush keeps of `g` -/
def Stands (cfg : WriterConfig n) (m : KeyValueRow κ n ν) (g : List (KeyValueRow κ n ν)) : Prop :=
  match cfg.engine with
  | .deduplicate => m ∈ g ∧ ∀ x ∈ g, (version cfg x).key ≤ (version cfg m).key
  | .firstRow => m ∈ g ∧ ∀ x ∈ g, m.sequenceNumber ≤ x.sequenceNumber
  | .partialUpdate f => g = [m] ∨ 2 ≤ g.length ∧ ∃ last ∈ g,
      m = mergedRow cfg last 0 (mergedColumns f.sequenceGroups (g.map KeyValueRow.columns))

variable {m : KeyValueRow κ n ν} {g : List (KeyValueRow κ n ν)}

theorem Stands.origin (h : Stands cfg m g) :
    ∃ x ∈ g, m.key = x.key ∧ m.sequenceNumber = x.sequenceNumber := by
  unfold Stands at h
  split at h
  · exact ⟨m, h.1, rfl, rfl⟩
  · exact ⟨m, h.1, rfl, rfl⟩
  · rcases h with rfl | ⟨-, last, hlast, rfl⟩
    · exact ⟨m, mem_singleton_self m, rfl, rfl⟩
    · exact ⟨last, hlast, rfl, rfl⟩

/-! ## One flush -/

theorem getLast_version (hne : g ≠ [])
    (hlt : g.Pairwise fun a b => (version cfg a).key < (version cfg b).key) :
    ∀ x ∈ g, (version cfg x).key ≤ (version cfg (g.getLast hne)).key := by
  intro x hx
  have hsplit := dropLast_append_getLast hne
  rw [← hsplit] at hx hlt
  rcases mem_append.mp hx with h | h
  · exact ((pairwise_append.mp hlt).2.2 x h _ (mem_singleton_self _)).le
  · rw [mem_singleton.mp h]

theorem number_le_of_version (hseq : cfg.sequenceFieldIndices = []) {a b : KeyValueRow κ n ν}
    (h : (version cfg a).key < (version cfg b).key) :
    a.sequenceNumber ≤ b.sequenceNumber :=
  not_lt.mp fun hlt => lt_asymm h (version_lt_of_number hseq hlt)

theorem mergePartialUpdate_stands {f : PartialUpdateMergeFunction n} (hengine : cfg.engine = .partialUpdate f)
    {g : List (KeyValueRow κ n ν × Nat)} (hne : g ≠ []) (hrank : g.Pairwise fun a b => a.2 < b.2)
    (hfits : ∀ x ∈ g, Fits cfg x.1) :
    ∃ m, mergePartialUpdate cfg f g = .ok (some m) ∧ Stands cfg m (g.map Prod.fst) := by
  unfold Fits at hfits
  rw [hengine] at hfits
  unfold mergePartialUpdate Stands
  rw [hengine, getLast?_eq_getLast_of_ne_nil hne]
  have hlast : (g.getLast hne).1 ∈ g.map Prod.fst := mem_map_of_mem (getLast_mem hne)
  dsimp only
  by_cases hone : g.length = 1
  · rw [if_pos hone]
    obtain ⟨x, rfl⟩ := length_eq_one_iff.mp hone
    exact ⟨x.1, rfl, .inl rfl⟩
  · rw [if_neg hone]
    have hlen : 2 ≤ g.length := by
      have := length_pos_of_ne_nil hne
      omega
    obtain ⟨-, -, hd, -⟩ := hfits _ (getLast_mem hne)
    set ver : KeyValueRow κ n ν × Nat → Version (SequenceKey ν) :=
      fun x => ⟨none, (x.2 : Int), x.1.valueKind⟩
    have hadds : AllAdds ver g := fun x hx => ⟨.insert, by
      show RowKind.fromValue x.1.valueKind = _
      rw [(hfits x hx).2.1]
      rfl, rfl⟩
    have hlt : g.Pairwise fun a b => (ver a).key < (ver b).key := by
      refine hrank.imp fun {a b} h => ?_
      exact Prod.Lex.lt_iff.mpr (.inr ⟨rfl, Prod.Lex.lt_iff.mpr (.inl (Int.ofNat_lt.mpr h))⟩)
    have hcols : g.map (fun x => x.1.columns) = (g.map Prod.fst).map KeyValueRow.columns :=
      map_map.symm
    have hnull : firstNull f.nullable
        (mergedColumns f.sequenceGroups (g.map fun x => x.1.columns)) = none := by
      refine firstNull_merged hd (by simpa using hne) fun row hrow => ?_
      obtain ⟨x, hx, rfl⟩ := mem_map.mp hrow
      exact (hfits x hx).2.2.2
    rw [merge_adds hd hlt (List.Perm.refl g) hlen hadds hnull, hcols]
    exact ⟨_, rfl, .inr ⟨by simpa using hlen, _, hlast, rfl⟩⟩

theorem mergeGroup_stands {g : List (KeyValueRow κ n ν × Nat)} (hne : g ≠ [])
    (hrank : g.Pairwise fun a b => a.2 < b.2)
    (hlt : (g.map Prod.fst).Pairwise fun a b => (version cfg a).key < (version cfg b).key)
    (hfits : ∀ x ∈ g, Fits cfg x.1) :
    ∃ m, mergeGroup cfg g = .ok (some m) ∧ Stands cfg m (g.map Prod.fst) := by
  have hne' : g.map Prod.fst ≠ [] := by simpa using hne
  unfold mergeGroup
  cases hengine : cfg.engine with
  | deduplicate =>
    dsimp only
    unfold Stands
    rw [hengine, ← getLast?_map, getLast?_eq_getLast_of_ne_nil hne']
    exact ⟨_, rfl, getLast_mem hne', getLast_version hne' hlt⟩
  | partialUpdate f => exact mergePartialUpdate_stands hengine hne hrank hfits
  | firstRow =>
    obtain ⟨x, g, rfl⟩ := exists_cons_of_ne_nil hne
    unfold Fits at hfits
    rw [hengine] at hfits
    have hseq := (hfits x mem_cons_self).1
    have hstands : Stands cfg x.1 ((x :: g).map Prod.fst) := by
      unfold Stands
      rw [hengine]
      refine ⟨mem_cons_self, fun y hy => ?_⟩
      rcases mem_cons.mp hy with rfl | hy
      · exact le_refl _
      · exact number_le_of_version hseq ((pairwise_cons.mp hlt).1 y hy)
    dsimp only
    split
    · exact ⟨x.1, rfl, hstands⟩
    · set ver : KeyValueRow κ n ν × Nat → Version (SequenceKey ν) :=
        fun x => ⟨none, 0, x.1.valueKind⟩
      have hadds : AllAdds ver (x :: g) := fun y hy => ⟨.insert, by
        show RowKind.fromValue y.1.valueKind = _
        rw [(hfits y hy).2]
        rfl, rfl⟩
      obtain ⟨w, -, hrun, -, hw⟩ := firstRow_least cfg.ignoreDelete hadds
      rw [hrun, hw fun _ _ => le_refl _]
      exact ⟨x.1, rfl, hstands⟩

/-- the group of a key, as the list of the groups there are -/
def groupsOf (cfg : WriterConfig n) (rows : List (KeyValueRow κ n ν)) (k : κ) :
    List (List (KeyValueRow κ n ν)) :=
  if KeyGroups.group KeyValueRow.key (sortRows cfg rows) k = [] then []
  else [KeyGroups.group KeyValueRow.key (sortRows cfg rows) k]

theorem groupsOf_flatten (cfg : WriterConfig n) (rows : List (KeyValueRow κ n ν)) (k : κ) :
    (groupsOf cfg rows k).flatten = KeyGroups.group KeyValueRow.key (sortRows cfg rows) k := by
  unfold groupsOf
  split
  · next h => rw [h]; rfl
  · simp

theorem group_zipIdx (rows : List (KeyValueRow κ n ν)) (k : κ) :
    (KeyGroups.group (fun x : KeyValueRow κ n ν × Nat => x.1.key) rows.zipIdx k).map Prod.fst
      = KeyGroups.group KeyValueRow.key rows k := by
  unfold KeyGroups.group
  conv_rhs => rw [← zipIdx_map_fst 0 rows, filter_map]
  rfl

variable {ρ : Type}

theorem zipIdx_ranks (rows : List ρ) : rows.zipIdx.Pairwise fun a b => a.2 < b.2 := by
  have h := pairwise_lt_range' (s := 0) (n := rows.length)
  rw [← zipIdx_map_snd 0 rows] at h
  exact pairwise_map.mp h

theorem forall₂_filter {α β : Type} {R : α → β → Prop} {p : α → Bool} {q : β → Bool} {as : List α}
    {bs : List β} (h : List.Forall₂ (fun a b => R a b ∧ p a = q b) as bs) :
    List.Forall₂ R (as.filter p) (bs.filter q) := by
  induction h with
  | nil => exact .nil
  | @cons a b as bs hab _ ih =>
    rw [filter_cons, filter_cons, hab.2]
    split
    · exact .cons hab.1 ih
    · exact ih

variable {rows : List (KeyValueRow κ n ν)}

/-- **One flush keeps one row per key, and it stands for the rows of the key.** -/
theorem flushRows_spec
    (hne : rows.Pairwise fun a b => a.sequenceNumber ≠ b.sequenceNumber) (hfits : ∀ x ∈ rows, Fits cfg x) :
    ∃ out, flushRows cfg rows = .ok out ∧ ∀ k,
      List.Forall₂ (Stands cfg) (KeyGroups.group KeyValueRow.key out k) (groupsOf cfg rows k) := by
  set key : KeyValueRow κ n ν × Nat → κ := fun x => x.1.key with hkey
  set ranked := (sortRows cfg rows).zipIdx with hranked
  have hsorted : (ranked.map key).Pairwise (· ≤ ·) := by
    have h := sortRows_keys cfg rows
    rw [← zipIdx_map_fst 0 (sortRows cfg rows), map_map] at h
    exact h
  -- a run is the group of the key of its first row
  have hrun : ∀ g ∈ KeyGroups.runs key ranked, ∃ k, g = KeyGroups.group key ranked k ∧ g ≠ [] ∧
      ∀ k', g.head?.any (fun x => decide (key x = k')) = decide (k = k') := by
    intro g hg
    have hgne := KeyGroups.runs_ne_nil g hg
    obtain ⟨x, rest, rfl⟩ := exists_cons_of_ne_nil hgne
    have hof : x :: rest ∈ KeyGroups.runsOf key ranked (key x) :=
      mem_filter.mpr ⟨hg, by simp⟩
    rw [KeyGroups.runs_group hsorted] at hof
    split at hof
    · exact absurd hof not_mem_nil
    · exact ⟨key x, mem_singleton.mp hof, hgne, fun k' => rfl⟩
  have hmerge : ∀ g ∈ KeyGroups.runs key ranked, ∃ o, mergeGroup cfg g = .ok o ∧
      ∃ m, o = some m ∧ Stands cfg m (g.map Prod.fst) ∧
        ∀ k, g.head?.any (fun x => decide (key x = k)) = decide (m.key = k) := by
    intro g hg
    obtain ⟨k, hgk, hgne, hhead⟩ := hrun g hg
    have hfst : g.map Prod.fst = KeyGroups.group KeyValueRow.key (sortRows cfg rows) k := by
      rw [hgk]
      exact group_zipIdx (sortRows cfg rows) k
    have hmem : ∀ x ∈ g, x.1 ∈ KeyGroups.group KeyValueRow.key (sortRows cfg rows) k :=
      fun x hx => hfst ▸ mem_map_of_mem hx
    obtain ⟨m, hm, hstands⟩ := mergeGroup_stands hgne (by
        rw [hgk]
        exact (zipIdx_ranks (sortRows cfg rows)).filter _)
      (by
        rw [hfst]
        exact sortRows_group hne k)
      (fun x hx => hfits x.1 ((sortRows_perm cfg rows).mem_iff.mp (KeyGroups.mem_group.mp (hmem x hx)).1))
    refine ⟨some m, hm, m, rfl, hstands, fun k' => ?_⟩
    obtain ⟨x, hx, hmk, -⟩ := hstands.origin
    rw [hfst] at hx
    rw [hhead k', hmk, (KeyGroups.mem_group.mp hx).2]
  obtain ⟨merged, hmapM, hall⟩ := mapM_ok hmerge
  refine ⟨merged.filterMap id, ?_, fun k => ?_⟩
  · unfold flushRows
    rw [hmapM]
    rfl
  · have hout : List.Forall₂ (fun m g => Stands cfg m (g.map Prod.fst) ∧
        decide (m.key = k) = g.head?.any fun x => decide (key x = k))
        (merged.filterMap id) (KeyGroups.runs key ranked) := by
      clear hmapM hmerge hrun
      generalize KeyGroups.runs key ranked = groups at hall ⊢
      induction hall with
      | nil => exact .nil
      | cons h _ ih =>
        obtain ⟨m, rfl, hstands, hhead⟩ := h
        exact .cons ⟨hstands, (hhead k).symm⟩ ih
    have hgroup := forall₂_filter hout
    have hruns := KeyGroups.runs_group hsorted k
    unfold KeyGroups.runsOf at hruns
    rw [hruns] at hgroup
    unfold groupsOf
    rw [← group_zipIdx (sortRows cfg rows) k]
    by_cases hnil : KeyGroups.group key ranked k = []
    · rw [if_pos hnil] at hgroup
      have hout' : KeyGroups.group KeyValueRow.key (merged.filterMap id) k = [] :=
        forall₂_nil_right_iff.mp hgroup
      rw [if_pos (by rw [hnil]; rfl), hout']
      exact .nil
    · rw [if_neg hnil] at hgroup
      rw [if_neg (by simpa using hnil)]
      exact forall₂_map_right_iff.mpr hgroup

/-! ## Any number of flushes -/

/-- `new` are the flushed rows of one key, `gs` the groups they stand for, `arrival` all its rows -/
structure Flushed (cfg : WriterConfig n) (arrival new : List (KeyValueRow κ n ν))
    (gs : List (List (KeyValueRow κ n ν))) : Prop where
  stands : List.Forall₂ (Stands cfg) new gs
  nonempty : ∀ g ∈ gs, g ≠ []
  perm : gs.flatten.Perm arrival
  inOrder : cfg.sequenceFieldIndices = [] → gs.flatten = arrival
  ascending : new.Pairwise fun a b => a.sequenceNumber < b.sequenceNumber
  numbers : ∀ m ∈ new, ∃ x ∈ arrival, m.sequenceNumber = x.sequenceNumber

theorem Flushed.append {a a' new new' : List (KeyValueRow κ n ν)} {gs gs' : List (List (KeyValueRow κ n ν))}
    (h : Flushed cfg a new gs) (h' : Flushed cfg a' new' gs')
    (hlt : ∀ x ∈ a, ∀ y ∈ a', x.sequenceNumber < y.sequenceNumber) :
    Flushed cfg (a ++ a') (new ++ new') (gs ++ gs') where
  stands := rel_append h.stands h'.stands
  nonempty g hg := (mem_append.mp hg).elim (h.nonempty g) (h'.nonempty g)
  perm := by
    rw [flatten_append]
    exact h.perm.append h'.perm
  inOrder hseq := by rw [flatten_append, h.inOrder hseq, h'.inOrder hseq]
  ascending := by
    refine pairwise_append.mpr ⟨h.ascending, h'.ascending, fun m hm m' hm' => ?_⟩
    obtain ⟨x, hx, hmx⟩ := h.numbers m hm
    obtain ⟨y, hy, hmy⟩ := h'.numbers m' hm'
    rw [hmx, hmy]
    exact hlt x hx y hy
  numbers m hm := by
    rcases mem_append.mp hm with hm | hm
    · obtain ⟨x, hx, hmx⟩ := h.numbers m hm
      exact ⟨x, mem_append_left a' hx, hmx⟩
    · obtain ⟨x, hx, hmx⟩ := h'.numbers m hm
      exact ⟨x, mem_append_right a hx, hmx⟩

theorem sortRows_group_eq (hseq : cfg.sequenceFieldIndices = [])
    (hasc : rows.Pairwise fun a b => a.sequenceNumber < b.sequenceNumber) (k : κ) :
    KeyGroups.group KeyValueRow.key (sortRows cfg rows) k = KeyGroups.group KeyValueRow.key rows k := by
  have hperm : (KeyGroups.group KeyValueRow.key (sortRows cfg rows) k).Perm
      (KeyGroups.group KeyValueRow.key rows k) := (sortRows_perm cfg rows).filter _
  have hleft : (KeyGroups.group KeyValueRow.key (sortRows cfg rows) k).Pairwise
      fun a b => (version cfg a).key < (version cfg b).key :=
    sortRows_group (hasc.imp fun h => ne_of_lt h) k
  have hright : (KeyGroups.group KeyValueRow.key rows k).Pairwise
      fun a b => (version cfg a).key < (version cfg b).key :=
    (hasc.filter _).imp fun h => version_lt_of_number hseq h
  exact List.Perm.eq_of_pairwise (fun a b _ _ hab hba => absurd hba (lt_asymm hab)) hleft hright hperm

theorem Flushed.single {rows out : List (KeyValueRow κ n ν)} {k : κ}
    (hasc : rows.Pairwise fun a b => a.sequenceNumber < b.sequenceNumber)
    (hstands : List.Forall₂ (Stands cfg) (KeyGroups.group KeyValueRow.key out k) (groupsOf cfg rows k)) :
    Flushed cfg (KeyGroups.group KeyValueRow.key rows k) (KeyGroups.group KeyValueRow.key out k)
      (groupsOf cfg rows k) where
  stands := hstands
  nonempty g hg := by
    unfold groupsOf at hg
    split at hg
    · exact absurd hg not_mem_nil
    · next h =>
      rw [mem_singleton.mp hg]
      exact h
  perm := by
    rw [groupsOf_flatten]
    exact (sortRows_perm cfg rows).filter _
  inOrder hseq := by rw [groupsOf_flatten, sortRows_group_eq hseq hasc]
  ascending := by
    have hlen := hstands.length_eq
    have hle : (groupsOf cfg rows k).length ≤ 1 := by
      unfold groupsOf
      split <;> simp
    match hnew : KeyGroups.group KeyValueRow.key out k with
    | [] => exact List.Pairwise.nil
    | [m] => exact pairwise_singleton _ m
    | m :: m' :: rest =>
      rw [hnew, length_cons, length_cons] at hlen
      omega
  numbers m hm := by
    obtain ⟨g, hg, hstands⟩ : ∃ g ∈ groupsOf cfg rows k, Stands cfg m g := by
      obtain ⟨i, hi, rfl⟩ := getElem_of_mem hm
      have hlen := hstands.length_eq
      exact ⟨(groupsOf cfg rows k)[i], getElem_mem (hlen ▸ hi), hstands.get hi (hlen ▸ hi)⟩
    obtain ⟨x, hx, -, hnum⟩ := hstands.origin
    have hmem : x ∈ (groupsOf cfg rows k).flatten := mem_flatten_of_mem hg hx
    rw [groupsOf_flatten] at hmem
    exact ⟨x, ((sortRows_perm cfg rows).filter _).mem_iff.mp hmem, hnum⟩

theorem group_append (key : ρ → κ) (a b : List ρ) (k : κ) :
    KeyGroups.group key (a ++ b) k = KeyGroups.group key a k ++ KeyGroups.group key b k :=
  filter_append ..

theorem flush_spec (w : Writer κ n ν) {buffer : List (WriteRow κ n ν)}
    (hfits : ∀ x ∈ number cfg w.nextSequenceNumber buffer, Fits cfg x) :
    ∃ w', flush cfg w buffer = .ok w' ∧ w'.nextSequenceNumber = w.nextSequenceNumber + buffer.length ∧
      ∀ k, ∃ new gs, KeyGroups.group KeyValueRow.key w'.writtenFiles.flatten k
          = KeyGroups.group KeyValueRow.key w.writtenFiles.flatten k ++ new ∧
        Flushed cfg (KeyGroups.group KeyValueRow.key (number cfg w.nextSequenceNumber buffer) k) new gs := by
  unfold flush
  cases buffer with
  | nil =>
    refine ⟨w, rfl, by simp, fun k => ⟨[], [], by simp, ?_⟩⟩
    exact ⟨.nil, forall_mem_nil _, List.Perm.refl _, fun _ => rfl, List.Pairwise.nil, forall_mem_nil _⟩
  | cons r buffer =>
    have hasc := number_ascending cfg w.nextSequenceNumber (r :: buffer)
    obtain ⟨out, hout, hstands⟩ := flushRows_spec (hasc.imp fun h => ne_of_lt h) hfits
    rw [isEmpty_cons, if_neg Bool.false_ne_true, hout]
    refine ⟨_, rfl, rfl, fun k => ⟨_, _, ?_, Flushed.single hasc (hstands k)⟩⟩
    rw [flatten_append, rollFiles_flatten cfg.target_pos, group_append]

/-- **A writer's life**, seen from one key. -/
theorem writeAll_spec {flushes : List (List (WriteRow κ n ν))} (w : Writer κ n ν)
    (hfits : ∀ x ∈ number cfg w.nextSequenceNumber flushes.flatten, Fits cfg x) :
    ∃ w', writeAll cfg w flushes = .ok w' ∧
      ∀ k, ∃ new gs, KeyGroups.group KeyValueRow.key w'.writtenFiles.flatten k
          = KeyGroups.group KeyValueRow.key w.writtenFiles.flatten k ++ new ∧
        Flushed cfg (KeyGroups.group KeyValueRow.key
          (number cfg w.nextSequenceNumber flushes.flatten) k) new gs := by
  unfold writeAll
  induction flushes generalizing w with
  | nil =>
    refine ⟨w, rfl, fun k => ⟨[], [], by simp, ?_⟩⟩
    exact ⟨.nil, forall_mem_nil _, List.Perm.refl _, fun _ => rfl, List.Pairwise.nil, forall_mem_nil _⟩
  | cons buffer flushes ih =>
    rw [flatten_cons, number_append] at hfits
    obtain ⟨w₁, hw₁, hnext, hone⟩ := flush_spec w fun x hx => hfits x (mem_append_left _ hx)
    obtain ⟨w', hw', hrest⟩ := ih w₁ fun x hx => by
      rw [hnext] at hx
      exact hfits x (mem_append_right _ hx)
    refine ⟨w', ?_, fun k => ?_⟩
    · rw [foldlM_cons, hw₁]
      exact hw'
    · obtain ⟨new, gs, hfiles, hflushed⟩ := hone k
      obtain ⟨new', gs', hfiles', hflushed'⟩ := hrest k
      rw [hnext] at hflushed'
      refine ⟨new ++ new', gs ++ gs', by rw [hfiles', hfiles, append_assoc], ?_⟩
      rw [flatten_cons, number_append, group_append]
      refine hflushed.append hflushed' fun x hx y hy => ?_
      have hlt := (number_bounds (KeyGroups.mem_group.mp hx).1).2
      have hge := (number_bounds (KeyGroups.mem_group.mp hy).1).1
      omega

/-! ## The merge of what was flushed -/

section merge

variable {cfg : WriterConfig n} {arrival new : List (KeyValueRow κ n ν)}
  {gs : List (List (KeyValueRow κ n ν))}

theorem Flushed.exists_group (h : Flushed cfg arrival new gs) (hm : m ∈ new) : ∃ g ∈ gs, Stands cfg m g := by
  obtain ⟨i, hi, rfl⟩ := getElem_of_mem hm
  have hlen := h.stands.length_eq
  exact ⟨gs[i], getElem_mem (hlen ▸ hi), h.stands.get hi (hlen ▸ hi)⟩

theorem Flushed.exists_new (h : Flushed cfg arrival new gs) {x : KeyValueRow κ n ν}
    (hx : x ∈ arrival) : ∃ m ∈ new, ∃ g, x ∈ g ∧ g ⊆ arrival ∧ Stands cfg m g := by
  obtain ⟨g, hg, hxg⟩ := mem_flatten.mp (h.perm.mem_iff.mpr hx)
  obtain ⟨i, hi, rfl⟩ := getElem_of_mem hg
  have hlen := h.stands.length_eq
  exact ⟨new[i], getElem_mem (hlen ▸ hi), gs[i], hxg,
    fun y hy => h.perm.mem_iff.mp (mem_flatten_of_mem hg hy), h.stands.get (hlen ▸ hi) hi⟩

theorem Flushed.nil_iff (h : Flushed cfg arrival new gs) : new = [] ↔ arrival = [] := by
  constructor
  · intro hnew
    have hgs := h.stands
    rw [hnew, forall₂_nil_left_iff] at hgs
    have hperm := h.perm
    rw [hgs] at hperm
    exact hperm.nil_eq.symm
  · intro harr
    cases hnew : new with
    | nil => rfl
    | cons m rest =>
      obtain ⟨x, hx, -⟩ := h.numbers m (hnew ▸ mem_cons_self)
      exact absurd (harr ▸ hx) not_mem_nil

theorem eq_of_number (hasc : arrival.Pairwise fun a b => a.sequenceNumber < b.sequenceNumber)
    {x y : KeyValueRow κ n ν} (hx : x ∈ arrival) (hy : y ∈ arrival)
    (h : x.sequenceNumber = y.sequenceNumber) : x = y :=
  inj_on_of_nodup_map (f := KeyValueRow.sequenceNumber)
    (pairwise_map.mpr (hasc.imp fun h => ne_of_lt h)) hx hy h

variable {read arrival' : List (KeyValueRow κ n ν)}

theorem Flushed.deduplicate_eq (h : Flushed cfg arrival new gs)
    (hasc : arrival.Pairwise fun a b => a.sequenceNumber < b.sequenceNumber)
    (hengine : cfg.engine = .deduplicate) (hr : read.Perm new) (ha : arrival'.Perm arrival)
    (hread : read ≠ []) (harr : arrival' ≠ []) :
    ∃ w ∈ arrival, deduplicate (version cfg) read = keepAdd (version cfg) w ∧
      deduplicate (version cfg) arrival' = keepAdd (version cfg) w := by
  obtain ⟨w, hw, hwle, hwrun⟩ := deduplicate_greatest (version cfg) hread
  obtain ⟨v, hv, hvle, hvrun⟩ := deduplicate_greatest (version cfg) harr
  obtain ⟨g, hg, hstands⟩ := h.exists_group (hr.mem_iff.mp hw)
  obtain ⟨m, hm, g', hvg', -, hstands'⟩ := h.exists_new (ha.mem_iff.mp hv)
  unfold Stands at hstands hstands'
  rw [hengine] at hstands hstands'
  have hwarr : w ∈ arrival := h.perm.mem_iff.mp (mem_flatten_of_mem hg hstands.1)
  -- the greatest flushed row is above the row that stands for the greatest row, and is not above it
  have hle : (version cfg v).key ≤ (version cfg w).key :=
    (hstands'.2 v hvg').trans (hwle m (hr.mem_iff.mpr hm))
  have hge : (version cfg w).key ≤ (version cfg v).key := hvle w (ha.mem_iff.mpr hwarr)
  have hnum : w.sequenceNumber = v.sequenceNumber :=
    congrArg (fun k => (ofLex (ofLex k).2).1) (le_antisymm hge hle)
  obtain rfl := eq_of_number hasc hwarr (ha.mem_iff.mp hv) hnum
  exact ⟨w, hwarr, hwrun, hvrun⟩

theorem allAdds_version (h : ∀ x ∈ rows, x.valueKind = 0) :
    AllAdds (version cfg) rows := fun x hx => ⟨.insert, by
  show RowKind.fromValue x.valueKind = _
  rw [h x hx]
  rfl, rfl⟩

theorem Flushed.firstRow_eq (h : Flushed cfg arrival new gs)
    (hasc : arrival.Pairwise fun a b => a.sequenceNumber < b.sequenceNumber)
    (hengine : cfg.engine = .firstRow) (hkind : ∀ x ∈ arrival, x.valueKind = 0)
    (hr : read.Perm new) (ha : arrival'.Perm arrival) (hread : read ≠ []) (harr : arrival' ≠ []) :
    ∃ w, firstRow (version cfg) cfg.ignoreDelete read = .ok (some w) ∧
      firstRow (version cfg) cfg.ignoreDelete arrival' = .ok (some w) := by
  have hin : ∀ m ∈ new, m ∈ arrival := fun m hm => by
    obtain ⟨g, hg, hstands⟩ := h.exists_group hm
    unfold Stands at hstands
    rw [hengine] at hstands
    exact h.perm.mem_iff.mp (mem_flatten_of_mem hg hstands.1)
  have hadds : AllAdds (version cfg) read :=
    allAdds_version fun x hx => hkind x (hin x (hr.mem_iff.mp hx))
  have hadds' : AllAdds (version cfg) arrival' :=
    allAdds_version fun x hx => hkind x (ha.mem_iff.mp hx)
  obtain ⟨r, rest, rfl⟩ := exists_cons_of_ne_nil hread
  obtain ⟨r', rest', rfl⟩ := exists_cons_of_ne_nil harr
  obtain ⟨w, hw, hwrun, hwle, -⟩ := firstRow_least cfg.ignoreDelete hadds
  obtain ⟨v, hv, hvrun, hvle, -⟩ := firstRow_least cfg.ignoreDelete hadds'
  have hwarr := hin w (hr.mem_iff.mp hw)
  obtain ⟨m, hm, g', hvg', -, hstands'⟩ := h.exists_new (ha.mem_iff.mp hv)
  unfold Stands at hstands'
  rw [hengine] at hstands'
  have hle : w.sequenceNumber ≤ v.sequenceNumber :=
    (hwle m (hr.mem_iff.mpr hm)).trans (hstands'.2 v hvg')
  have hge : v.sequenceNumber ≤ w.sequenceNumber := hvle w (ha.mem_iff.mpr hwarr)
  obtain rfl := eq_of_number hasc hwarr (ha.mem_iff.mp hv) (le_antisymm hle hge)
  exact ⟨w, hwrun, hvrun⟩

variable {f : PartialUpdateMergeFunction n}

theorem Stands.summary (hengine : cfg.engine = .partialUpdate f) (hd : DisjointGroups f.sequenceGroups)
    (h : Stands cfg m g) (i : Fin n) :
    Latest.Summary (columnRank f.sequenceGroups i) (fun m w : Columns n ν => m i = w i) m.columns
      (g.map KeyValueRow.columns) := by
  unfold Stands at h
  rw [hengine] at h
  rcases h with rfl | ⟨-, last, -, rfl⟩
  · exact Latest.Summary.singleton fun _ => rfl
  · exact merged_summary hd _ i

theorem Flushed.columns_eq (h : Flushed cfg arrival new gs) (hengine : cfg.engine = .partialUpdate f)
    (hd : DisjointGroups f.sequenceGroups) (hseq : cfg.sequenceFieldIndices = []) :
    mergedColumns f.sequenceGroups (new.map KeyValueRow.columns)
      = mergedColumns f.sequenceGroups (arrival.map KeyValueRow.columns) := by
  funext i
  have hsum : List.Forall₂ (Latest.Summary (columnRank f.sequenceGroups i)
      (fun m w : Columns n ν => m i = w i)) (new.map KeyValueRow.columns)
      (gs.map (List.map KeyValueRow.columns)) := by
    rw [forall₂_map_left_iff, forall₂_map_right_iff]
    exact h.stands.imp fun m g hstands => hstands.summary hengine hd i
  have hsame := Latest.latest_summaries hsum
  rw [← map_flatten, h.inOrder hseq] at hsame
  unfold mergedColumns
  cases hl : Latest.latest (columnRank f.sequenceGroups i) (new.map KeyValueRow.columns) with
  | none =>
    cases hl' : Latest.latest (columnRank f.sequenceGroups i) (arrival.map KeyValueRow.columns) with
    | none => rfl
    | some w =>
      rw [hl, hl'] at hsame
      exact hsame.elim
  | some m =>
    cases hl' : Latest.latest (columnRank f.sequenceGroups i) (arrival.map KeyValueRow.columns) with
    | none =>
      rw [hl, hl'] at hsame
      exact hsame.elim
    | some w =>
      rw [hl, hl'] at hsame
      exact hsame.2

theorem merge_visible (hd : DisjointGroups f.sequenceGroups) (hseq : cfg.sequenceFieldIndices = [])
    {rows ordered : List (KeyValueRow κ n ν)}
    (hasc : ordered.Pairwise fun a b => a.sequenceNumber < b.sequenceNumber) (hperm : rows.Perm ordered)
    (hlen : 2 ≤ ordered.length) (hkind : ∀ x ∈ ordered, x.valueKind = 0) (hnull : firstNull f.nullable
      (mergedColumns f.sequenceGroups (ordered.map KeyValueRow.columns)) = none) :
    (PartialUpdate.merge f (version cfg) KeyValueRow.columns rows).map Merged.visible
      = .ok (some (mergedColumns f.sequenceGroups (ordered.map KeyValueRow.columns))) := by
  rw [merge_adds hd (hasc.imp fun h => version_lt_of_number hseq h) hperm
    (hperm.length_eq ▸ hlen) (allAdds_version hkind) hnull]
  rfl

theorem merge_lone (hkind : m.valueKind = 0) :
    (PartialUpdate.merge f (version cfg) KeyValueRow.columns [m]).map Merged.visible
      = .ok (some m.columns) := by
  unfold PartialUpdate.merge
  dsimp only
  have hk : RowKind.fromValue (version cfg m).valueKind = .ok .insert := by
    show RowKind.fromValue m.valueKind = _
    rw [hkind]
    rfl
  rw [hk]
  rfl

theorem Flushed.partialUpdate_eq (h : Flushed cfg arrival new gs)
    (hasc : arrival.Pairwise fun a b => a.sequenceNumber < b.sequenceNumber)
    (hengine : cfg.engine = .partialUpdate f) (hd : DisjointGroups f.sequenceGroups)
    (hseq : cfg.sequenceFieldIndices = []) (hkind : ∀ x ∈ arrival, x.valueKind = 0)
    (hnn : ∀ x ∈ arrival, RespectsNotNull f x.columns) (hr : read.Perm new) (ha : arrival'.Perm arrival)
    (hne : arrival ≠ []) :
    ∃ c, (PartialUpdate.merge f (version cfg) KeyValueRow.columns read).map Merged.visible = .ok (some c) ∧
      (PartialUpdate.merge f (version cfg) KeyValueRow.columns arrival').map Merged.visible
        = .ok (some c) := by
  have hnull : firstNull f.nullable
      (mergedColumns f.sequenceGroups (arrival.map KeyValueRow.columns)) = none := by
    refine firstNull_merged hd (by simpa using hne) fun row hrow => ?_
    obtain ⟨x, hx, rfl⟩ := mem_map.mp hrow
    exact hnn x hx
  have hnewKind : ∀ m ∈ new, m.valueKind = 0 := fun m hm => by
    obtain ⟨g, hg, hstands⟩ := h.exists_group hm
    unfold Stands at hstands
    rw [hengine] at hstands
    rcases hstands with rfl | ⟨-, last, -, rfl⟩
    · exact hkind m (h.perm.mem_iff.mp (mem_flatten_of_mem hg (mem_singleton_self m)))
    · exact ite_self 0
  match new, h, hr, hnewKind with
  | [], h, _, _ => exact absurd (h.nil_iff.mp rfl) hne
  | [m], h, hr, hnewKind =>
    -- one flush had the key; it passed the row through or merged all of them
    obtain ⟨g, rfl⟩ : ∃ g, gs = [g] := length_eq_one_iff.mp h.stands.length_eq.symm
    have horder := h.inOrder hseq
    rw [flatten_singleton] at horder
    have hm := (forall₂_cons.mp h.stands).1
    have hlone : (PartialUpdate.merge f (version cfg) KeyValueRow.columns [m]).map Merged.visible
        = .ok (some m.columns) := merge_lone (hnewKind m mem_cons_self)
    refine ⟨m.columns, by rw [perm_singleton.mp hr]; exact hlone, ?_⟩
    unfold Stands at hm
    rw [hengine, horder] at hm
    rcases hm with harr | ⟨hlen, last, -, hmerged⟩
    · rw [harr] at ha
      rw [perm_singleton.mp ha]
      exact hlone
    · rw [hmerged]
      exact merge_visible hd hseq hasc ha hlen hkind hnull
  | m :: m' :: rest, h, hr, hnewKind =>
    have hcols := h.columns_eq hengine hd hseq
    refine ⟨mergedColumns f.sequenceGroups (arrival.map KeyValueRow.columns), ?_, ?_⟩
    · rw [← hcols]
      exact merge_visible hd hseq h.ascending hr (by simp) hnewKind (hcols ▸ hnull)
    · refine merge_visible hd hseq hasc ha ?_ hkind hnull
      -- two flushes had the key, each with a row of its own
      obtain ⟨x, hx, hmx⟩ := h.numbers m mem_cons_self
      obtain ⟨y, hy, hmy⟩ := h.numbers m' (mem_cons_of_mem m mem_cons_self)
      have hlt : m.sequenceNumber < m'.sequenceNumber :=
        (pairwise_cons.mp h.ascending).1 m' mem_cons_self
      by_contra hlen
      have hone : arrival.length = 1 := by
        have := length_pos_of_ne_nil hne
        omega
      obtain ⟨z, hz⟩ := length_eq_one_iff.mp hone
      rw [hz, mem_singleton] at hx hy
      rw [hmx, hmy, hx, hy] at hlt
      exact lt_irrefl _ hlt

/-- **Merging what was flushed is merging what was written**, for one key. -/
theorem Flushed.merge_eq (h : Flushed cfg arrival new gs)
    (hasc : arrival.Pairwise fun a b => a.sequenceNumber < b.sequenceNumber)
    (hfits : ∀ x ∈ arrival, Fits cfg x) (hr : read.Perm new) (ha : arrival'.Perm arrival) :
    ∃ v, mergeKey cfg read = .ok v ∧ mergeKey cfg arrival' = .ok v := by
  by_cases hne : arrival = []
  · have hread : read = [] := List.Perm.eq_nil ((h.nil_iff.mpr hne) ▸ hr)
    have harr : arrival' = [] := List.Perm.eq_nil (hne ▸ ha)
    rw [hread, harr]
    exact ⟨none, rfl, rfl⟩
  have hread : read ≠ [] := fun hnil =>
    hne (h.nil_iff.mp ((hnil ▸ hr : List.Perm [] new).nil_eq).symm)
  have harr : arrival' ≠ [] := fun hnil => hne ((hnil ▸ ha : List.Perm [] arrival).nil_eq).symm
  have hbody : ∀ rows : List (KeyValueRow κ n ν), rows ≠ [] → rows.isEmpty = false :=
    fun rows hrows => isEmpty_eq_false_iff.mpr hrows
  obtain ⟨x₀, hx₀⟩ := exists_mem_of_ne_nil arrival hne
  unfold mergeKey
  rw [hbody read hread, hbody arrival' harr, if_neg Bool.false_ne_true, if_neg Bool.false_ne_true]
  unfold Fits at hfits
  cases hengine : cfg.engine with
  | deduplicate =>
    rw [hengine] at hfits
    obtain ⟨w, hw, hwr, hwa⟩ := h.deduplicate_eq hasc hengine hr ha hread harr
    obtain ⟨kind, hkind⟩ := hfits w hw
    have hkeep : keepAdd (version cfg) w = .ok (if kind.isAdd then some w else none) := by
      unfold keepAdd
      rw [show (version cfg w).valueKind = w.valueKind from rfl, hkind]
    dsimp only
    rw [hwr, hwa, hkeep]
    exact ⟨_, rfl, rfl⟩
  | firstRow =>
    rw [hengine] at hfits
    obtain ⟨w, hwr, hwa⟩ := h.firstRow_eq hasc hengine (fun x hx => (hfits x hx).2) hr ha hread harr
    dsimp only
    rw [hwr, hwa]
    exact ⟨_, rfl, rfl⟩
  | partialUpdate f =>
    rw [hengine] at hfits
    obtain ⟨c, hcr, hca⟩ := h.partialUpdate_eq hasc hengine (hfits x₀ hx₀).2.2.1 (hfits x₀ hx₀).1
      (fun x hx => (hfits x hx).2.1) (fun x hx => (hfits x hx).2.2.2) hr ha hne
    exact ⟨some c, hcr, hca⟩

end merge

/-- columns `g`, `a`, `b`: `g` is the sequence of `a`, and `b` is in no group -/
def groupedWriter : WriterConfig 3 where
  engine := .partialUpdate
    { ignoreDelete := false
      removeRecordOnDelete := false
      sequenceGroupPartialDelete := []
      sequenceGroupEnabled := true
      sequenceGroups := [⟨[0], [1]⟩]
      nullable := fun _ => true
      fieldName := fun i => ["g", "a", "b"].getD i "" }
  ignoreDelete := false
  sequenceFieldIndices := []
  sequenceDescending := false
  hasValueKind := false
  targetFileRowNum := 1
  target_pos := Nat.one_pos

/-- two flushes; the second has the older sequence -/
def groupedFlushes : List (List (WriteRow Nat 3 Nat)) :=
  [[⟨0, none, ![some 5, some 1, none]⟩, ⟨0, none, ![some 7, some 2, some 1]⟩],
    [⟨0, none, ![some 6, some 3, some 4]⟩]]

/-- columns `g1`, `g2`, `a`, `b`: `g1,g2` is the sequence of `a`, and `g2` alone that of `b` -/
def sharedWriter : WriterConfig 4 where
  engine := .partialUpdate
    { ignoreDelete := false
      removeRecordOnDelete := false
      sequenceGroupPartialDelete := []
      sequenceGroupEnabled := true
      sequenceGroups := [⟨[0, 1], [2]⟩, ⟨[1], [3]⟩]
      nullable := fun _ => true
      fieldName := fun i => ["g1", "g2", "a", "b"].getD i "" }
  ignoreDelete := false
  sequenceFieldIndices := []
  sequenceDescending := false
  hasValueKind := false
  targetFileRowNum := 10
  target_pos := by decide

def sharedFlushes : List (List (WriteRow Nat 4 Nat)) :=
  [[⟨0, none, ![some 2, some 1, some 11, some 21]⟩, ⟨0, none, ![some 1, some 5, some 12, some 22]⟩],
    [⟨0, none, ![some 2, some 3, some 13, some 23]⟩]]

end Paimon.Write
