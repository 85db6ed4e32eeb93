import Mathlib

/-!
# Netting a log of keyed additions and deletions

A log entry has a key and is either an addition or a deletion.  Replaying a log keeps, for every
key, the last addition that no later deletion removed:

* `step`, `run`, `net`: replay of one entry, of a log from a given set, of a log from nothing;
* `look m k`: the live entry of the key `k`;
* `Keyed m`: a set of live entries has one entry per key (kept by `run`);
* `Balanced w m log`: every addition is new and every deletion hits a live entry of the same weight: then the
  weight of the live set moves by the signed weight of the log (`weight_run`).

`survivors` is the netting that looks at no order: an addition stays unless its key is deleted
anywhere in the log.  A filter that decides alike for one key goes through it (`survivors_filter`).

The key decides everything: `look` at `k` after a replay depends on the entries of key `k` only
(`look_run_filter`), which is what makes a replay of a filtered log the filtered replay.
-/

set_option linter.unusedSectionVars false

namespace Net

open List

section
variable {α κ : Type*} [DecidableEq κ] (key : α → κ) (isAdd : α → Bool)

/-- replay of one entry: it takes the place of the live entry with its key -/
def step (m : List α) (e : α) : List α :=
  if isAdd e then m.filter (fun x => key x ≠ key e) ++ [e] else m.filter (fun x => key x ≠ key e)

def run (m log : List α) : List α := log.foldl (step key isAdd) m

def net (log : List α) : List α := run key isAdd [] log

def look (m : List α) (k : κ) : Option α := m.find? (fun x => key x = k)

/-- one live entry per key -/
def Keyed (m : List α) : Prop := (m.map key).Nodup

theorem run_nil (m : List α) : run key isAdd m [] = m := rfl
theorem run_cons (m : List α) (e : α) (log : List α) :
    run key isAdd m (e :: log) = run key isAdd (step key isAdd m e) log := rfl
theorem run_append (m a b : List α) : run key isAdd m (a ++ b) = run key isAdd (run key isAdd m a) b := by
  simp [run, foldl_append]
theorem net_append (a b : List α) :
    net key isAdd (a ++ b) = run key isAdd (net key isAdd a) b := run_append key isAdd [] a b

variable {key isAdd}

theorem look_nil (k : κ) : look key ([] : List α) k = none := rfl

theorem look_some_key {m : List α} {k : κ} {e : α} (h : look key m k = some e) : key e = k := by
  simpa using find?_some h

theorem look_some_mem {m : List α} {k : κ} {e : α} (h : look key m k = some e) : e ∈ m :=
  mem_of_find?_eq_some h

theorem look_none {m : List α} {k : κ} : look key m k = none ↔ ∀ x ∈ m, key x ≠ k := by
  simp [look, find?_eq_none]

theorem look_filter_ne (m : List α) (k j : κ) :
    look key (m.filter (fun x => key x ≠ j)) k = if j = k then none else look key m k := by
  induction m with
  | nil => simp [look]
  | cons x m ih =>
    have hx : look key (x :: m) k = if key x = k then some x else look key m k := by
      by_cases hk : key x = k <;> simp [look, hk]
    rw [hx, filter_cons]
    by_cases hj : key x = j
    · subst hj
      simp only [ne_eq, not_true_eq_false, decide_false, Bool.false_eq_true, if_false]
      rw [ih]
      by_cases hk : key x = k <;> simp [hk]
    · have hne : decide (key x ≠ j) = true := by simpa using hj
      rw [if_pos hne]
      have h2 : look key (x :: m.filter (fun x => key x ≠ j)) k
          = if key x = k then some x else look key (m.filter (fun x => key x ≠ j)) k := by
        by_cases hk : key x = k <;> simp [look, hk]
      rw [h2, ih]
      by_cases hk : key x = k
      · subst hk
        simp [Ne.symm hj]
      · simp [hk]

theorem look_append_single (m : List α) (e : α) (k : κ) (h : key e = k → look key m k = none) :
    look key (m ++ [e]) k = if key e = k then some e else look key m k := by
  rw [look, find?_append]
  by_cases hk : key e = k
  · have h0 : m.find? (fun x => decide (key x = k)) = none := h hk
    simp [h0, hk]
  · simp [hk, look]

theorem look_step (m : List α) (e : α) (k : κ) : look key (step key isAdd m e) k
      = if key e = k then (if isAdd e then some e else none) else look key m k := by
  unfold step
  by_cases ha : isAdd e
  · rw [if_pos ha, look_append_single, look_filter_ne]
    · by_cases hk : key e = k <;> simp [hk, ha]
    · intro hk
      rw [look_filter_ne, if_pos hk]
  · rw [if_neg ha, look_filter_ne]
    by_cases hk : key e = k <;> simp [hk, ha]

theorem look_run_congr (log : List α) {m m' : List α} {k : κ} (h : look key m k = look key m' k) :
    look key (run key isAdd m log) k = look key (run key isAdd m' log) k := by
  induction log generalizing m m' with
  | nil => exact h
  | cons e log ih =>
    rw [run_cons, run_cons]
    apply ih
    rw [look_step, look_step, h]

theorem look_run_filter (q : κ → Bool) (m log : List α) (k : κ) :
    look key (run key isAdd m (log.filter (fun x => q (key x)))) k
      = if q k then look key (run key isAdd m log) k else look key m k := by
  induction log generalizing m with
  | nil => simp [run_nil]
  | cons e log ih =>
    rw [filter_cons]
    by_cases he : q (key e)
    · rw [if_pos he, run_cons, run_cons, ih]
      by_cases hk : q k
      · simp [hk]
      · rw [if_neg hk, if_neg hk, look_step]
        have hne : key e ≠ k := fun h => hk (h ▸ he)
        rw [if_neg hne]
    · rw [if_neg he, ih, run_cons]
      by_cases hk : q k
      · rw [if_pos hk, if_pos hk]
        apply look_run_congr
        have hne : key e ≠ k := fun h => he (h ▸ hk)
        rw [look_step, if_neg hne]
      · rw [if_neg hk, if_neg hk]

theorem look_run_skip {log : List α} {k : κ} (h : ∀ e ∈ log, key e ≠ k) (m : List α) :
    look key (run key isAdd m log) k = look key m k := by
  have h0 := @look_run_filter α κ _ key isAdd (fun j => decide (j ≠ k)) m log k
  have h1 : log.filter (fun x => decide (key x ≠ k)) = log := by
    rw [filter_eq_self]
    intro e he
    simpa using h e he
  simp only [h1] at h0
  simpa using h0

theorem look_run_touched {log : List α} {k : κ} (h : ∃ e ∈ log, key e = k) (m m' : List α) :
    look key (run key isAdd m log) k = look key (run key isAdd m' log) k := by
  induction log generalizing m m' with
  | nil =>
    obtain ⟨e, he, -⟩ := h
    exact absurd he not_mem_nil
  | cons e log ih =>
    rw [run_cons, run_cons]
    by_cases hk : key e = k
    · refine look_run_congr log ?_
      rw [look_step, look_step, if_pos hk, if_pos hk]
    · obtain ⟨e', he', hk'⟩ := h
      obtain rfl | he' := mem_cons.mp he'
      · exact absurd hk' hk
      · exact ih ⟨e', he', hk'⟩ _ _

theorem look_run_key (m log : List α) (k : κ) : look key (run key isAdd m log) k
      = look key (run key isAdd m (log.filter (fun x => key x = k))) k := by
  have h := @look_run_filter α κ _ key isAdd (fun j => decide (j = k)) m log k
  simpa using h.symm

theorem look_run_map {g : α → α} (hkey : ∀ x, key (g x) = key x)
    (hadd : ∀ x, isAdd (g x) = isAdd x) (m log : List α) (k : κ) :
    look key (run key isAdd (m.map g) (log.map g)) k = (look key (run key isAdd m log) k).map g := by
  have hlook : ∀ l : List α, look key (l.map g) k = (look key l k).map g := by
    intro l
    rw [look, find?_map]
    simp only [look, Function.comp_def, hkey]
  induction log generalizing m with
  | nil => exact hlook m
  | cons e log ih =>
    have hstep : step key isAdd (m.map g) (g e) = (step key isAdd m e).map g := by
      unfold step
      rw [hadd]
      split <;> simp [filter_map, Function.comp_def, hkey]
    rw [map_cons, run_cons, run_cons, hstep, ih]

theorem keyed_nil : Keyed key ([] : List α) := nodup_nil

theorem keyed_filter {m : List α} (h : Keyed key m) (p : α → Bool) : Keyed key (m.filter p) :=
  h.sublist (filter_sublist.map key)

theorem keyed_step {m : List α} (h : Keyed key m) (e : α) : Keyed key (step key isAdd m e) := by
  unfold step
  split
  · unfold Keyed
    rw [map_append, nodup_append]
    refine ⟨keyed_filter h _, by simp, ?_⟩
    intro a ha b hb
    obtain ⟨x, hx, rfl⟩ := mem_map.mp ha
    have hne : key x ≠ key e := by simpa using (mem_filter.mp hx).2
    have hb' : b = key e := by simpa using hb
    rw [hb']
    exact hne
  · exact keyed_filter h _

theorem keyed_run {m : List α} (h : Keyed key m) (log : List α) : Keyed key (run key isAdd m log) := by
  induction log generalizing m with
  | nil => exact h
  | cons e log ih => exact ih (keyed_step h e)

theorem keyed_net (log : List α) : Keyed key (net key isAdd log) := keyed_run keyed_nil log

theorem keyed_inj {m : List α} (h : Keyed key m) {x y : α} (hx : x ∈ m) (hy : y ∈ m)
    (hk : key x = key y) : x = y := inj_on_of_nodup_map h hx hy hk

theorem mem_iff_look {m : List α} (h : Keyed key m) (e : α) : e ∈ m ↔ look key m (key e) = some e := by
  constructor
  · intro he
    cases hl : look key m (key e) with
    | none => exact absurd rfl (look_none.mp hl e he)
    | some x => rw [keyed_inj h (look_some_mem hl) he (look_some_key hl)]
  · exact look_some_mem

theorem mem_net (log : List α) (e : α) :
    e ∈ net key isAdd log ↔ look key (net key isAdd log) (key e) = some e :=
  mem_iff_look (keyed_net log) e

theorem mem_step {m : List α} {e x : α} (h : x ∈ step key isAdd m e) : x ∈ m ∨ (x = e ∧ isAdd e = true) := by
  unfold step at h
  split at h
  · rename_i ha
    rcases mem_append.mp h with h | h
    · exact Or.inl (mem_filter.mp h).1
    · exact Or.inr ⟨by simpa using h, ha⟩
  · exact Or.inl (mem_filter.mp h).1

theorem mem_run {m log : List α} {x : α} (h : x ∈ run key isAdd m log) :
    x ∈ m ∨ (x ∈ log ∧ isAdd x = true) := by
  induction log generalizing m with
  | nil => exact Or.inl h
  | cons e log ih =>
    rcases ih h with h | ⟨h, ha⟩
    · rcases mem_step h with h | ⟨rfl, ha⟩
      · exact Or.inl h
      · exact Or.inr ⟨mem_cons_self, ha⟩
    · exact Or.inr ⟨mem_cons_of_mem _ h, ha⟩

theorem isAdd_of_mem_net {log : List α} {x : α} (h : x ∈ net key isAdd log) : isAdd x = true := by
  rcases mem_run h with h | h
  · exact absurd h (by simp)
  · exact h.2

theorem mem_of_mem_net {log : List α} {x : α} (h : x ∈ net key isAdd log) : x ∈ log := by
  rcases mem_run h with h | h
  · exact absurd h (by simp)
  · exact h.1

theorem look_run_adds {l : List α} (hl : ∀ x ∈ l, isAdd x = true) (hk : Keyed key l) (k : κ) :
    look key (net key isAdd l) k = look key l k := by
  suffices h : ∀ (l m : List α), (∀ x ∈ l, isAdd x = true) → Keyed key l →
      look key (run key isAdd m l) k = (look key l k).or (look key m k) by
    have h0 := h l [] hl hk
    rwa [look_nil, Option.or_none] at h0
  intro l
  induction l with
  | nil => intro m _ _; simp [run_nil, look_nil]
  | cons e l ih =>
    intro m ha hk
    have hk' := nodup_cons.mp hk
    rw [run_cons, ih _ (forall_mem_cons.mp ha).2 hk'.2, look_step, if_pos (ha e mem_cons_self)]
    have hc : look key (e :: l) k = if key e = k then some e else look key l k := by
      by_cases he : key e = k <;> simp [look, he]
    rw [hc]
    by_cases he : key e = k
    · have hn : look key l k = none := by
        rw [look_none]
        intro x hx hxe
        exact hk'.1 (mem_map.mpr ⟨x, hx, hxe.trans he.symm⟩)
      simp [he, hn]
    · simp [he]

end

/-! ## weights -/

section
variable {α κ : Type*} [DecidableEq κ] (key : α → κ) (isAdd : α → Bool) (w : α → Int)

def weight (m : List α) : Int := (m.map w).sum

/-- additions count for, deletions against -/
def signed (log : List α) : Int := (log.map (fun e => if isAdd e then w e else - w e)).sum

/-- every addition is new, every deletion hits a live entry of its weight -/
def Balanced : List α → List α → Prop
  | _, [] => True
  | m, e :: log =>
    (if isAdd e then look key m (key e) = none else ∃ x, look key m (key e) = some x ∧ w x = w e)
      ∧ Balanced (step key isAdd m e) log

variable {key isAdd w}

theorem weight_append (a b : List α) : weight w (a ++ b) = weight w a + weight w b := by
  simp [weight]

theorem signed_cons (e : α) (log : List α) :
    signed isAdd w (e :: log) = (if isAdd e then w e else - w e) + signed isAdd w log := by
  simp [signed]

theorem weight_filter_ne {m : List α} (hm : Keyed key m) (k : κ) :
    weight w (m.filter (fun x => key x ≠ k)) = weight w m - ((look key m k).map w).getD 0 := by
  induction m with
  | nil => simp [weight, look]
  | cons x m ih =>
    have hx := nodup_cons.mp hm
    have hc : look key (x :: m) k = if key x = k then some x else look key m k := by
      by_cases he : key x = k <;> simp [look, he]
    have ih' := ih hx.2
    rw [hc, filter_cons]
    by_cases hk : key x = k
    · have hn : look key m k = none := by
        rw [look_none]
        intro y hy hye
        exact hx.1 (mem_map.mpr ⟨y, hy, hye.trans hk.symm⟩)
      rw [hn] at ih'
      simp only [hk, ne_eq, not_true_eq_false, decide_false, Bool.false_eq_true, if_false, if_true,
        Option.map_some, Option.getD_some]
      simp only [ne_eq, decide_not, Option.map_none, Option.getD_none, sub_zero] at ih'
      simp only [weight, map_cons, sum_cons] at ih' ⊢
      simp only [decide_not]
      omega
    · have hne : decide (key x ≠ k) = true := by simpa using hk
      rw [if_pos hne, if_neg hk]
      simp only [weight, map_cons, sum_cons] at ih' ⊢
      omega

theorem weight_step {m : List α} (hm : Keyed key m) (e : α) (h : if isAdd e then look key m (key e) = none
      else ∃ x, look key m (key e) = some x ∧ w x = w e) :
    weight w (step key isAdd m e) = weight w m + (if isAdd e then w e else - w e) := by
  unfold step
  split
  · rename_i ha
    rw [if_pos ha] at h
    rw [weight_append, weight_filter_ne hm, h]
    simp [weight]
  · rename_i ha
    rw [if_neg ha] at h
    obtain ⟨x, hx, hw⟩ := h
    rw [weight_filter_ne hm, hx]
    simp only [Option.map_some, Option.getD_some]
    omega

theorem balanced_of_positions {m log : List α} (h : ∀ pre e post, log = pre ++ e :: post →
      if isAdd e then look key (run key isAdd m pre) (key e) = none
      else ∃ x, look key (run key isAdd m pre) (key e) = some x ∧ w x = w e) :
    Balanced key isAdd w m log := by
  induction log generalizing m with
  | nil => exact trivial
  | cons e log ih =>
    refine ⟨h [] e log rfl, ih (fun pre x post he => ?_)⟩
    rw [← run_cons]
    exact h (e :: pre) x post (by rw [he, cons_append])

theorem weight_congr {m m' : List α} (hm : Keyed key m) (hm' : Keyed key m')
    (h : ∀ k, (look key m k).map w = (look key m' k).map w) : weight w m = weight w m' := by
  have hmem : ∀ {l l' : List α}, Keyed key l →
      (∀ k, (look key l k).map w = (look key l' k).map w) → ∀ p : κ × Int,
      p ∈ l.map (fun x => (key x, w x)) → p ∈ l'.map (fun x => (key x, w x)) := by
    intro l l' hl hlook p hp
    obtain ⟨x, hx, rfl⟩ := mem_map.mp hp
    have hk := hlook (key x)
    rw [(mem_iff_look hl x).mp hx] at hk
    cases hy : look key l' (key x) with
    | none => rw [hy] at hk; exact nomatch hk
    | some y =>
      rw [hy] at hk
      injection hk with hk
      exact mem_map.mpr ⟨y, look_some_mem hy, by rw [look_some_key hy, hk]⟩
  have hnodup : ∀ {l : List α}, Keyed key l → (l.map (fun x => (key x, w x))).Nodup :=
    fun hl => List.Nodup.of_map Prod.fst (by rw [map_map]; exact hl)
  have hperm : (m.map (fun x => (key x, w x))).Perm (m'.map (fun x => (key x, w x))) :=
    (perm_ext_iff_of_nodup (hnodup hm) (hnodup hm')).mpr
      (fun p => ⟨hmem hm h p, hmem hm' (fun k => (h k).symm) p⟩)
  have hsum := (hperm.map Prod.snd).sum_eq
  rw [map_map, map_map] at hsum
  exact hsum

/-- **The weight of the live set moves by the signed weight of a balanced log.** -/
theorem weight_run {m log : List α} (hm : Keyed key m) (h : Balanced key isAdd w m log) :
    weight w (run key isAdd m log) = weight w m + signed isAdd w log := by
  induction log generalizing m with
  | nil => simp [run_nil, signed]
  | cons e log ih =>
    obtain ⟨he, hrest⟩ := h
    rw [run_cons, ih (keyed_step hm e) hrest, weight_step hm e he, signed_cons]
    omega

end

section
variable {α κ : Type*} [DecidableEq κ] (key : α → κ) (isAdd : α → Bool)

/-- the keys that are deleted somewhere in the log -/
def deleted (log : List α) : List κ := (log.filter fun e => !isAdd e).map key

/-- the additions whose key is deleted nowhere in the log -/
def survivors (log : List α) : List α :=
  log.filter fun e => isAdd e && !(deleted key isAdd log).contains (key e)

variable {key isAdd}

theorem mem_deleted {log : List α} {k : κ} :
    k ∈ deleted key isAdd log ↔ ∃ e ∈ log, isAdd e = false ∧ key e = k := by
  simp only [deleted, mem_map, mem_filter, Bool.not_eq_eq_eq_not, Bool.not_true, and_assoc]

/-- **A filter that decides alike for entries of one key may run first.** -/
theorem survivors_filter {log : List α} {p : α → Bool}
    (hp : ∀ a ∈ log, ∀ b ∈ log, key a = key b → p a = p b) :
    survivors key isAdd (log.filter p) = (survivors key isAdd log).filter p := by
  unfold survivors
  rw [filter_filter, filter_filter]
  refine filter_congr fun e he => ?_
  cases hpe : p e with
  | false => rw [Bool.and_false, Bool.false_and]
  | true =>
  rw [Bool.and_true, Bool.true_and]
  congr 2
  rw [Bool.eq_iff_iff, contains_iff_mem, contains_iff_mem, mem_deleted, mem_deleted]
  constructor
  · rintro ⟨d, hd, hrest⟩
    exact ⟨d, (mem_filter.mp hd).1, hrest⟩
  · rintro ⟨d, hd, hdel, hkey⟩
    exact ⟨d, mem_filter.mpr ⟨hd, (hp d hd e he hkey).trans hpe⟩, hdel, hkey⟩

end

end Net
