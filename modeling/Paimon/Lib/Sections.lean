import Mathlib

/-!
# Cutting a list into consecutive groups

Two greedy ways to cut a list into groups without moving an item.

* `pack`: bins of bounded weight; an item that is too heavy has a bin of its own;
* `sections`: items with ranges, sorted by their lower ends: a section ends where the next lower end is above
  every upper end seen in it;
* `Separated`: every item of one group is in relation to every item of a later group.

Whatever the weights are, `pack` only concatenates (`pack_flatten`), so groups of separated sections
are separated (`Separated.pack`).  Sections of sorted ranges are separated by the strict order of
their ends (`sections_separated`), and any two items of a section are linked by a chain of ranges that
meet (`sections_linked`): sections are the connected components.
-/

namespace Sections

open List

variable {α κ : Type*}

/-! ## bins -/

/-- the loop of `pack`: finished bins, the open bin and its weight -/
structure Bins (α : Type*) where
  packed : List (List α)
  items : List α
  weight : Int

/-- one item; `add` is the addition of weights -/
def packStep (add : Int → Int → Int) (weigh : α → Int) (target : Int) (s : Bins α) (item : α) : Bins α :=
  if target < add s.weight (weigh item) ∧ s.items ≠ [] then
    { packed := s.packed ++ [s.items], items := [item], weight := add 0 (weigh item) }
  else { s with items := s.items ++ [item], weight := add s.weight (weigh item) }

def Bins.finish (s : Bins α) : List (List α) :=
  if s.items = [] then s.packed else s.packed ++ [s.items]

def pack (add : Int → Int → Int) (weigh : α → Int) (target : Int) (items : List α) : List (List α) :=
  (items.foldl (packStep add weigh target) { packed := [], items := [], weight := 0 }).finish

/-- what the bins hold so far, in order -/
def Bins.contents (s : Bins α) : List α := s.packed.flatten ++ s.items

theorem contents_packStep (add : Int → Int → Int) (weigh : α → Int) (target : Int) (s : Bins α)
    (item : α) : (packStep add weigh target s item).contents = s.contents ++ [item] := by
  unfold packStep Bins.contents
  split
  · simp [append_assoc]
  · simp [append_assoc]

theorem finish_flatten (s : Bins α) : s.finish.flatten = s.contents := by
  unfold Bins.finish Bins.contents
  split
  · rename_i h
    rw [h, append_nil]
  · rw [flatten_append, flatten_singleton]

theorem contents_foldl (add : Int → Int → Int) (weigh : α → Int) (target : Int) (items : List α)
    (s : Bins α) :
    (items.foldl (packStep add weigh target) s).contents = s.contents ++ items := by
  induction items generalizing s with
  | nil => exact (append_nil _).symm
  | cons item items ih =>
    rw [foldl_cons, ih, contents_packStep, append_assoc]
    rfl

/-- **Packing only concatenates.** -/
theorem pack_flatten (add : Int → Int → Int) (weigh : α → Int) (target : Int) (items : List α) :
    (pack add weigh target items).flatten = items := by
  unfold pack
  rw [finish_flatten, contents_foldl]
  rfl

/-! ## groups in relation -/

/-- every item of a group is in relation to every item of a later group -/
def Separated (R : α → α → Prop) (groups : List (List α)) : Prop :=
  groups.Pairwise fun S T => ∀ x ∈ S, ∀ y ∈ T, R x y

variable {R : α → α → Prop} {groups : List (List α)}

theorem Separated.of_pairwise (h : groups.flatten.Pairwise R) : Separated R groups :=
  (pairwise_flatten.mp h).2

theorem Separated.flatten_map {bins : List (List (List α))}
    (h : Separated R bins.flatten) : Separated R (bins.map List.flatten) := by
  have h := (pairwise_flatten.mp h).2
  unfold Separated
  rw [pairwise_map]
  refine h.imp fun {S T} hST x hx y hy => ?_
  obtain ⟨S', hS', hx⟩ := mem_flatten.mp hx
  obtain ⟨T', hT', hy⟩ := mem_flatten.mp hy
  exact hST S' hS' T' hT' x hx y hy

theorem Separated.pack (h : Separated R groups)
    (add : Int → Int → Int) (weigh : List α → Int) (target : Int) :
    Separated R ((pack add weigh target groups).map List.flatten) := by
  apply Separated.flatten_map
  rw [pack_flatten]
  exact h

/-! ## sections -/

section
variable (cmp : κ → κ → Ordering) (lo hi : α → κ)

/-- the loop of `sections`: finished sections, the open one and its upper end -/
structure Cut (α κ : Type*) where
  done : List (List α)
  current : List α
  bound : Option κ

/-- a lower end above the bound closes the section -/
def Cut.close (c : Cut α κ) (x : α) : Cut α κ :=
  match c.bound with
  | some b => if cmp (lo x) b = .gt then ⟨c.done ++ [c.current], [], none⟩ else c
  | none => c

/-- the bound grows to the upper end of the item -/
def Cut.extend (c : Cut α κ) (x : α) : Cut α κ :=
  match c.bound with
  | some b =>
    ⟨c.done, c.current ++ [x], if cmp (hi x) b = .gt then some (hi x) else some b⟩
  | none => ⟨c.done, c.current ++ [x], some (hi x)⟩

def cutStep (c : Cut α κ) (x : α) : Cut α κ := (c.close cmp lo x).extend cmp hi x

def Cut.finish (c : Cut α κ) : List (List α) :=
  if c.current = [] then c.done else c.done ++ [c.current]

def sections (xs : List α) : List (List α) :=
  (xs.foldl (cutStep cmp lo hi) ⟨[], [], none⟩).finish

def Cut.contents (c : Cut α κ) : List α := c.done.flatten ++ c.current

theorem contents_cutStep (c : Cut α κ) (x : α) : (cutStep cmp lo hi c x).contents = c.contents ++ [x] := by
  have hclose : (c.close cmp lo x).contents = c.contents := by
    unfold Cut.close
    split
    · split
      · simp [Cut.contents]
      · rfl
    · rfl
  have hextend : ∀ d : Cut α κ, (d.extend cmp hi x).contents = d.contents ++ [x] := by
    intro d
    unfold Cut.extend
    split <;> simp [Cut.contents, append_assoc]
  rw [cutStep, hextend, hclose]

theorem contents_cut (xs : List α) (c : Cut α κ) :
    (xs.foldl (cutStep cmp lo hi) c).contents = c.contents ++ xs := by
  induction xs generalizing c with
  | nil => exact (append_nil _).symm
  | cons x xs ih =>
    rw [foldl_cons, ih, contents_cutStep, append_assoc]
    rfl

/-- **Sectioning only concatenates.** -/
theorem sections_flatten (xs : List α) : (sections cmp lo hi xs).flatten = xs := by
  have hfinish : ∀ c : Cut α κ, c.finish.flatten = c.contents := by
    intro c
    unfold Cut.finish Cut.contents
    split
    · rename_i h
      rw [h, append_nil]
    · rw [flatten_append, flatten_singleton]
  rw [sections, hfinish, contents_cut]
  rfl

end

/-! ## sections of sorted ranges -/

section
variable {ρ : Type*} [LinearOrder ρ] {cmp : κ → κ → Ordering} {lo hi : α → κ}

/-- on the keys `P` the comparison is that of ranks -/
structure Ranked (cmp : κ → κ → Ordering) (P : κ → Prop) (rank : κ → ρ) : Prop where
  cmp_eq : ∀ a b, P a → P b → cmp a b = compare (rank a) (rank b)

/-- what the loop knows when the items `rest` are still to come -/
structure CutOk (P : κ → Prop) (rank : κ → ρ) (lo hi : α → κ) (c : Cut α κ) (rest : List α) :
    Prop where
  separated : Separated (fun x y => rank (hi x) < rank (lo y)) c.done
  before : ∀ S ∈ c.done, ∀ x ∈ S, ∀ y ∈ c.current ++ rest, rank (hi x) < rank (lo y)
  bounded : ∀ b, c.bound = some b → P b ∧ ∀ y ∈ c.current, rank (hi y) ≤ rank b
  fresh : c.bound = none → c.current = []
  sorted : rest.Pairwise fun x y => rank (lo x) ≤ rank (lo y)

variable {P : κ → Prop} {rank : κ → ρ} (hcmp : Ranked cmp P rank)
include hcmp

variable {c : Cut α κ} {rest : List α} {x : α}

theorem CutOk.close (h : CutOk P rank lo hi c (x :: rest))
    (hx : P (lo x)) : CutOk P rank lo hi (c.close cmp lo x) (x :: rest) := by
  unfold Cut.close
  split
  · rename_i b hb
    split
    · rename_i hgt
      obtain ⟨hPb, hbounded⟩ := h.bounded b hb
      rw [hcmp.cmp_eq _ _ hx hPb] at hgt
      have hlt : rank b < rank (lo x) := compare_gt_iff_gt.mp hgt
      -- the items still to come start above the bound, and the bound is above the section
      have habove : ∀ y ∈ c.current, ∀ z ∈ x :: rest, rank (hi y) < rank (lo z) := by
        intro y hy z hz
        have hxz : rank (lo x) ≤ rank (lo z) := by
          rcases mem_cons.mp hz with rfl | hz
          · exact le_refl _
          · exact (pairwise_cons.mp h.sorted).1 z hz
        exact lt_of_le_of_lt (hbounded y hy) (lt_of_lt_of_le hlt hxz)
      refine ⟨?_, ?_, ?_, fun _ => rfl, h.sorted⟩
      · unfold Separated
        rw [pairwise_append]
        refine ⟨h.separated, pairwise_singleton _ _, ?_⟩
        intro S hS T hT y hy z hz
        cases mem_singleton.mp hT
        exact h.before S hS y hy z (mem_append_left _ hz)
      · intro S hS y hy z hz
        rcases mem_append.mp hS with hS | hS
        · exact h.before S hS y hy z (mem_append_right _ hz)
        · cases mem_singleton.mp hS
          exact habove y hy z hz
      · intro b' hb'
        cases hb'
    · exact h
  · exact h

theorem CutOk.extend (h : CutOk P rank lo hi c (x :: rest))
    (hx : P (hi x)) : CutOk P rank lo hi (c.extend cmp hi x) rest := by
  have hbefore : ∀ S ∈ c.done, ∀ y ∈ S, ∀ z ∈ (c.current ++ [x]) ++ rest, rank (hi y) < rank (lo z) := by
    intro S hS y hy z hz
    rw [append_assoc] at hz
    exact h.before S hS y hy z hz
  have hsorted := (pairwise_cons.mp h.sorted).2
  unfold Cut.extend
  split
  · rename_i b hb
    obtain ⟨hPb, hbounded⟩ := h.bounded b hb
    refine ⟨h.separated, hbefore, ?_, ?_, hsorted⟩
    · -- the new bound is the larger of the two
      intro b' hb'
      dsimp only at hb'
      rw [hcmp.cmp_eq _ _ hx hPb] at hb'
      split at hb'
      · rename_i hgt
        cases hb'
        have hlt : rank b < rank (hi x) := compare_gt_iff_gt.mp hgt
        refine ⟨hx, fun y hy => ?_⟩
        rcases mem_append.mp hy with hy | hy
        · exact (hbounded y hy).trans hlt.le
        · cases mem_singleton.mp hy
          exact le_refl _
      · rename_i hle
        cases hb'
        refine ⟨hPb, fun y hy => ?_⟩
        rcases mem_append.mp hy with hy | hy
        · exact hbounded y hy
        · cases mem_singleton.mp hy
          exact compare_le_iff_le.mp hle
    · intro hnone
      dsimp only at hnone
      split at hnone <;> cases hnone
  · rename_i hb
    refine ⟨h.separated, hbefore, ?_, (fun hnone => by cases hnone), hsorted⟩
    intro b' hb'
    cases hb'
    refine ⟨hx, fun y hy => ?_⟩
    have hy : y ∈ c.current ++ [x] := hy
    rw [h.fresh hb] at hy
    cases mem_singleton.mp hy
    exact le_refl _

variable {xs : List α}

theorem CutOk.foldl (h : CutOk P rank lo hi c xs) (hP : ∀ x ∈ xs, P (lo x) ∧ P (hi x)) :
    CutOk P rank lo hi (xs.foldl (cutStep cmp lo hi) c) [] := by
  induction xs generalizing c with
  | nil => exact h
  | cons x xs ih =>
    obtain ⟨hlo, hhi⟩ := hP x mem_cons_self
    rw [foldl_cons]
    exact ih ((h.close hcmp hlo).extend hcmp hhi) (forall_mem_cons.mp hP).2

/-- **Sections of ranges sorted by their lower ends do not touch each other.** -/
theorem sections_separated (hP : ∀ x ∈ xs, P (lo x) ∧ P (hi x))
    (hsorted : xs.Pairwise fun x y => rank (lo x) ≤ rank (lo y)) :
    Separated (fun x y => rank (hi x) < rank (lo y)) (sections cmp lo hi xs) := by
  have hstart : CutOk P rank lo hi (⟨[], [], none⟩ : Cut α κ) xs := by
    refine ⟨List.Pairwise.nil, ?_, ?_, fun _ => rfl, hsorted⟩
    · intro S hS
      cases hS
    · intro b hb
      cases hb
  have hend := hstart.foldl hcmp hP
  unfold sections Cut.finish
  split
  · exact hend.separated
  · unfold Separated
    rw [pairwise_append]
    refine ⟨hend.separated, pairwise_singleton _ _, ?_⟩
    intro S hS T hT y hy z hz
    cases mem_singleton.mp hT
    exact hend.before S hS y hy z (mem_append_left _ hz)

omit hcmp

/-! ## sections are components -/

/-- two ranges with a common point -/
def Meets (rank : κ → ρ) (lo hi : α → κ) (x y : α) : Prop :=
  rank (lo x) ≤ rank (hi y) ∧ rank (lo y) ≤ rank (hi x)

/-- not empty, and any two items are joined by a chain of items of the group -/
structure Linked (R : α → α → Prop) (group : List α) : Prop where
  nonempty : group ≠ []
  chain : ∀ x ∈ group, ∀ y ∈ group, Relation.ReflTransGen (fun a b => a ∈ group ∧ b ∈ group ∧ R a b) x y

variable {group : List α}

theorem Linked.map {β : Type*} {R' : β → β → Prop} {f : α → β}
    (h : Linked R group) (himp : ∀ a b, R a b → R' (f a) (f b)) : Linked R' (group.map f) := by
  refine ⟨fun hnil => h.nonempty (map_eq_nil_iff.mp hnil), fun x hx y hy => ?_⟩
  obtain ⟨a, ha, rfl⟩ := mem_map.mp hx
  obtain ⟨b, hb, rfl⟩ := mem_map.mp hy
  exact (h.chain a ha b hb).lift f fun a b ⟨ha, hb, hab⟩ =>
    ⟨mem_map_of_mem ha, mem_map_of_mem hb, himp a b hab⟩

theorem Linked.singleton (R : α → α → Prop) (x : α) : Linked R [x] :=
  ⟨cons_ne_nil x [], fun a ha b hb => by
    rw [mem_singleton.mp ha, mem_singleton.mp hb]⟩

theorem Linked.concat (h : Linked R group) {x z : α}
    (hz : z ∈ group) (hxz : R x z) (hzx : R z x) : Linked R (group ++ [x]) := by
  have hx : x ∈ group ++ [x] := mem_append_right _ mem_cons_self
  have hz' : z ∈ group ++ [x] := mem_append_left _ hz
  have hold : ∀ a ∈ group, ∀ b ∈ group,
      Relation.ReflTransGen (fun a b => a ∈ group ++ [x] ∧ b ∈ group ++ [x] ∧ R a b) a b :=
    fun a ha b hb => (h.chain a ha b hb).lift id fun _ _ ⟨h₁, h₂, h₃⟩ =>
      ⟨mem_append_left _ h₁, mem_append_left _ h₂, h₃⟩
  refine ⟨append_ne_nil_of_right_ne_nil group (cons_ne_nil x []), fun a ha b hb => ?_⟩
  rcases mem_append.mp ha with ha | ha <;> rcases mem_append.mp hb with hb | hb
  · exact hold a ha b hb
  · rw [mem_singleton.mp hb]
    exact (hold a ha z hz).tail ⟨hz', hx, hzx⟩
  · rw [mem_singleton.mp ha]
    exact .head ⟨hx, hz', hxz⟩ (hold z hz b hb)
  · rw [mem_singleton.mp ha, mem_singleton.mp hb]

/-- The sections so far are linked.  The bound is the upper end of an item of the open section, and
that item starts no later than the items still to come. -/
structure CutLinked (P : κ → Prop) (rank : κ → ρ) (lo hi : α → κ) (c : Cut α κ) (rest : List α) :
    Prop where
  done : ∀ S ∈ c.done, Linked (Meets rank lo hi) S
  current : c.current ≠ [] → Linked (Meets rank lo hi) c.current
  top : ∀ b, c.bound = some b →
    P b ∧ ∃ z ∈ c.current, hi z = b ∧ ∀ y ∈ rest, rank (lo z) ≤ rank (lo y)
  fresh : c.bound = none → c.current = []
  sorted : rest.Pairwise fun x y => rank (lo x) ≤ rank (lo y)

include hcmp

theorem CutLinked.step (h : CutLinked P rank lo hi c (x :: rest))
    (hxlo : P (lo x)) (hxhi : P (hi x)) (hx : rank (lo x) ≤ rank (hi x)) :
    CutLinked P rank lo hi (cutStep cmp lo hi c x) rest := by
  obtain ⟨hfirst, hsorted⟩ := pairwise_cons.mp h.sorted
  -- an item that opens a section
  have hopen : ∀ done, (∀ S ∈ done, Linked (Meets rank lo hi) S) →
      CutLinked P rank lo hi (Cut.mk done ([] ++ [x]) (some (hi x))) rest := fun done hdone =>
    ⟨hdone, fun _ => Linked.singleton _ x,
      fun b hb => Option.some.inj hb ▸ ⟨hxhi, x, mem_cons_self, rfl, hfirst⟩, (fun hb => by cases hb), hsorted⟩
  obtain ⟨done, current, bound⟩ := c
  cases bound with
  | none =>
    obtain rfl : current = [] := h.fresh rfl
    exact hopen done h.done
  | some b =>
    obtain ⟨hPb, z, hz, hzb, hzrest⟩ := h.top b rfl
    have hlink := h.current (ne_nil_of_mem hz)
    show CutLinked P rank lo hi (Cut.extend cmp hi (if cmp (lo x) b = .gt then _ else _) x) rest
    split
    · refine hopen (done ++ [current]) fun S hS => ?_
      rcases mem_append.mp hS with hS | hS
      · exact h.done S hS
      · rw [mem_singleton.mp hS]
        exact hlink
    · next hle =>
      -- `lo x` lies in the range of the item that gives the bound
      have hxb : rank (lo x) ≤ rank (hi z) := by
        rw [hcmp.cmp_eq _ _ hxlo hPb] at hle
        rw [hzb]
        exact compare_le_iff_le.mp hle
      have hzx : rank (lo z) ≤ rank (lo x) := hzrest x mem_cons_self
      have hjoined := hlink.concat hz ⟨hxb, hzx.trans hx⟩ ⟨hzx.trans hx, hxb⟩
      refine ⟨h.done, fun _ => hjoined, fun b' hb' => ?_, fun hb' => ?_, hsorted⟩
      · have hb' : (if cmp (hi x) b = .gt then some (hi x) else some b) = some b' := hb'
        split at hb'
        · obtain rfl := Option.some.inj hb'
          exact ⟨hxhi, x, mem_append_right _ mem_cons_self, rfl, hfirst⟩
        · obtain rfl := Option.some.inj hb'
          exact ⟨hPb, z, mem_append_left _ hz, hzb, (forall_mem_cons.mp hzrest).2⟩
      · have hb' : (if cmp (hi x) b = .gt then some (hi x) else some b) = none := hb'
        split at hb' <;> cases hb'

theorem CutLinked.foldl (h : CutLinked P rank lo hi c xs)
    (hP : ∀ x ∈ xs, P (lo x) ∧ P (hi x) ∧ rank (lo x) ≤ rank (hi x)) :
    CutLinked P rank lo hi (xs.foldl (cutStep cmp lo hi) c) [] := by
  induction xs generalizing c with
  | nil => exact h
  | cons x xs ih =>
    obtain ⟨hlo, hhi, hle⟩ := hP x mem_cons_self
    rw [foldl_cons]
    exact ih (h.step hcmp hlo hhi hle) (forall_mem_cons.mp hP).2

/-- **The items of a section are linked by chains of ranges that meet.** -/
theorem sections_linked (hP : ∀ x ∈ xs, P (lo x) ∧ P (hi x) ∧ rank (lo x) ≤ rank (hi x))
    (hsorted : xs.Pairwise fun x y => rank (lo x) ≤ rank (lo y)) :
    ∀ S ∈ sections cmp lo hi xs, Linked (Meets rank lo hi) S := by
  have hstart : CutLinked P rank lo hi (⟨[], [], none⟩ : Cut α κ) xs := by
    refine ⟨?_, fun h => absurd rfl h, ?_, fun _ => rfl, hsorted⟩
    · intro S hS
      cases hS
    · intro b hb
      cases hb
  have hend := hstart.foldl hcmp hP
  intro S hS
  unfold sections Cut.finish at hS
  split at hS
  · exact hend.done S hS
  · next hne =>
    rcases mem_append.mp hS with hS | hS
    · exact hend.done S hS
    · rw [mem_singleton.mp hS]
      exact hend.current hne

end

end Sections
