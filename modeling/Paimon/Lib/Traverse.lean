import Mathlib

/-!
# Traversals item by item

A traversal of a list in `Option` or `Except` that succeeds, as a relation between the items and the
results (`option_each`, `option_mapM`, `except_mapM`), and what that relation says about members.
-/

namespace Traverse

open List

variable {α β ε : Type} {l : List α} {f : α → Option β}

theorem option_each {g : List α → Option (List β)} (hnil : g [] = some [])
    (hcons : ∀ a l, g (a :: l) = do return (← f a) :: (← g l)) {l' : List β} :
    g l = some l' ↔ List.Forall₂ (fun a b => f a = some b) l l' := by
  induction l generalizing l' with
  | nil => rw [hnil, Option.some_inj, forall₂_nil_left_iff, eq_comm]
  | cons a l ih =>
    rw [hcons]
    constructor
    · intro h
      obtain ⟨b, hb, h⟩ := Option.bind_eq_some_iff.mp h
      obtain ⟨rest, hrest, h⟩ := Option.bind_eq_some_iff.mp h
      cases h
      exact .cons hb (ih.mp hrest)
    · rintro (_ | ⟨hb, hrest⟩)
      rw [hb, ih.mpr hrest]
      rfl

theorem option_mapM {l' : List β} : l.mapM f = some l' ↔ List.Forall₂ (fun a b => f a = some b) l l' :=
  option_each (g := List.mapM f) rfl fun _ _ => mapM_cons

theorem exists_forall₂ {R : α → β → Prop} : (∃ l', List.Forall₂ R l l') ↔ ∀ a ∈ l, ∃ b, R a b := by
  induction l with
  | nil => exact ⟨fun _ => forall_mem_nil _, fun _ => ⟨[], .nil⟩⟩
  | cons a l ih =>
    rw [forall_mem_cons, ← ih]
    constructor
    · rintro ⟨_, _ | ⟨hab, h⟩⟩
      exact ⟨⟨_, hab⟩, _, h⟩
    · rintro ⟨⟨b, hb⟩, l', h⟩
      exact ⟨b :: l', .cons hb h⟩

theorem option_mapM_isSome : (∃ l', l.mapM f = some l') ↔ ∀ a ∈ l, ∃ b, f a = some b := by
  simp only [option_mapM, exists_forall₂]

theorem except_mapM {f : α → Except ε β} {l' : List β} :
    l.mapM f = .ok l' ↔ List.Forall₂ (fun a b => f a = .ok b) l l' := by
  constructor
  · intro h
    induction l generalizing l' with
    | nil =>
      obtain rfl := Except.ok.inj h
      exact .nil
    | cons a l ih =>
      rw [mapM_cons] at h
      cases hb : f a with
      | error e =>
        rw [hb] at h
        cases h
      | ok b =>
        cases hbs : l.mapM f with
        | error e =>
          rw [hb, hbs] at h
          cases h
        | ok bs =>
          rw [hb, hbs] at h
          obtain rfl := Except.ok.inj h
          exact .cons hb (ih hbs)
  · intro h
    induction h with
    | nil => rfl
    | cons hab _ ih =>
      rw [mapM_cons, hab, ih]
      rfl

section
variable {R : α → β → Prop} {l : List α} {l' : List β}

theorem mem_right (h : List.Forall₂ R l l') {a : α} (ha : a ∈ l) : ∃ b ∈ l', R a b := by
  induction h with
  | nil => cases ha
  | cons hab _ ih =>
    rcases mem_cons.mp ha with rfl | ha
    · exact ⟨_, mem_cons_self, hab⟩
    · obtain ⟨b, hb, hR⟩ := ih ha
      exact ⟨b, mem_cons_of_mem _ hb, hR⟩

theorem mem_left (h : List.Forall₂ R l l') {b : β} (hb : b ∈ l') : ∃ a ∈ l, R a b := by
  induction h with
  | nil => cases hb
  | cons hab _ ih =>
    rcases mem_cons.mp hb with rfl | hb
    · exact ⟨_, mem_cons_self, hab⟩
    · obtain ⟨a, ha, hR⟩ := ih hb
      exact ⟨a, mem_cons_of_mem _ ha, hR⟩

end

end Traverse
