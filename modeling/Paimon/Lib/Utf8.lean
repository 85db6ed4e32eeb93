import Paimon.Lib.Compare

/-!
# UTF-8 keeps the order of code points

Texts compared by code points and their encodings compared by bytes are in the same order: the first
byte tells the length of an encoding apart, and encodings of one length are digits to the base 64.
-/

namespace Utf8

open Compare List

/-- the bytes of a character, as numbers -/
def encode (c : Char) : List Nat := (String.utf8EncodeChar c).map UInt8.toNat

theorem encode_eq (c : Char) : encode c =
    if c.toNat ≤ 127 then [c.toNat]
    else if c.toNat ≤ 2047 then [c.toNat / 64 + 192, c.toNat % 64 + 128]
    else if c.toNat ≤ 65535 then
      [c.toNat / 4096 + 224, c.toNat / 64 % 64 + 128, c.toNat % 64 + 128]
    else
      [c.toNat / 262144 + 240, c.toNat / 4096 % 64 + 128, c.toNat / 64 % 64 + 128,
        c.toNat % 64 + 128] := by
  have hmax : c.toNat < 0x110000 := by
    rcases c.valid with h | h
    · have : c.toNat < 0xd800 := h
      omega
    · exact h.2
  have hencode : encode c = List.map UInt8.toNat (
      if c.toNat ≤ 127 then [UInt8.ofNat c.toNat]
      else if c.toNat ≤ 2047 then
        [UInt8.ofNat (c.toNat / 64 % 32 + 192), UInt8.ofNat (c.toNat % 64 + 128)]
      else if c.toNat ≤ 65535 then
        [UInt8.ofNat (c.toNat / 4096 % 16 + 224), UInt8.ofNat (c.toNat / 64 % 64 + 128),
          UInt8.ofNat (c.toNat % 64 + 128)]
      else
        [UInt8.ofNat (c.toNat / 262144 % 8 + 240), UInt8.ofNat (c.toNat / 4096 % 64 + 128),
          UInt8.ofNat (c.toNat / 64 % 64 + 128), UInt8.ofNat (c.toNat % 64 + 128)]) := rfl
  rw [hencode]
  split_ifs
  all_goals
    simp only [map_cons, map_nil, UInt8.toNat_ofNat', List.cons.injEq, and_true]
    omega

/-- **The encodings of two characters stand in the order of the characters**, whatever follows. -/
theorem encode_lt {c d : Char} (h : c.toNat < d.toNat) (as bs : List Nat) :
    toLexList (encode c ++ as) < toLexList (encode d ++ bs) := by
  rw [encode_eq, encode_eq]
  split_ifs
  all_goals first
    | omega
    | simp only [cons_append, nil_append, toLexList_cons_lt]
      omega

/-- **Texts and their encodings are in the same order.** -/
theorem compare_encodings (a b : List Char) :
    compare (toLexList (a.flatMap encode)) (toLexList (b.flatMap encode))
      = compare (toLexList (a.map Char.toNat)) (toLexList (b.map Char.toNat)) := by
  have hne : ∀ (c : Char) (l : List Nat), ∃ x xs, encode c ++ l = x :: xs := by
    intro c l
    rw [encode_eq]
    split_ifs <;> exact ⟨_, _, rfl⟩
  induction a generalizing b with
  | nil =>
    cases b with
    | nil => rfl
    | cons d b =>
      obtain ⟨x, xs, hx⟩ := hne d (b.flatMap encode)
      rw [flatMap_cons, map_cons, hx]
      exact (compare_lt_iff_lt.mpr (toLexList_nil_lt x xs)).trans
        (compare_lt_iff_lt.mpr (toLexList_nil_lt d.toNat (b.map Char.toNat))).symm
  | cons c a ih =>
    cases b with
    | nil =>
      obtain ⟨x, xs, hx⟩ := hne c (a.flatMap encode)
      rw [flatMap_cons, map_cons, hx]
      exact (compare_gt_iff_gt.mpr (toLexList_nil_lt x xs)).trans
        (compare_gt_iff_gt.mpr (toLexList_nil_lt c.toNat (a.map Char.toNat))).symm
    | cons d b =>
      rw [flatMap_cons, flatMap_cons, map_cons, map_cons]
      rcases lt_trichotomy c.toNat d.toNat with h | h | h
      · rw [compare_lt_iff_lt.mpr (encode_lt h _ _),
          compare_lt_iff_lt.mpr (toLexList_cons_lt.mpr (.inl h))]
      · obtain rfl : c = d := Char.toNat_inj.mp h
        rw [compare_append, compare_cons, compare_eq_iff_eq.mpr (rfl : c.toNat = c.toNat), ih]
        rfl
      · rw [compare_gt_iff_gt.mpr (encode_lt h _ _),
          compare_gt_iff_gt.mpr (toLexList_cons_lt.mpr (.inl h))]

end Utf8
