import Paimon.Arrow.Residual
import Paimon.Spec.BinaryRowBuilder
import Paimon.Lib.Utf8

/-!
# LIKE

`like_match_chars` and `optimize_like_pattern` of `spec/predicate.rs`.  The matcher keeps its place in value and
pattern as what is left of them; the optimizer counts `%` in the bytes of the pattern.

* `LikeToken.language`, `likeLanguage`: the texts a pattern stands for;
* `like_matches_language`: the matcher accepts them, and so does the test of every optimized pattern.
-/

namespace Paimon
open List

def likeMatchChars (value pattern : Text) : Bool :=
  match pattern with
  | [] => value.isEmpty
  | '%' :: rest =>
    if (rest.dropWhile (· == '%')).isEmpty then true
    else value.tails.any fun value => likeMatchChars value (rest.dropWhile (· == '%'))
  | '_' :: rest =>
    match value with
    | [] => false
    | _ :: value => likeMatchChars value rest
  | '\\' :: next :: rest =>
    match value with
    | [] => false
    | c :: value => c == next && likeMatchChars value rest
  | ['\\'] =>
    match value with
    | [] => false
    | c :: value => c == '\\' && likeMatchChars value []
  | other :: rest =>
    match value with
    | [] => false
    | c :: value => c == other && likeMatchChars value rest
termination_by pattern.length
decreasing_by
  all_goals simp_wf
  have := (dropWhile_suffix (l := rest) (· == '%')).length_le
  omega

inductive LikeShape where
  | literal (s : Text)
  | startsWith (s : Text)
  | endsWith (s : Text)
  | contains (s : Text)
  | residual

def optimizeLikePattern (pattern : Text) : LikeShape :=
  if pattern.isEmpty || pattern.contains '\\' || pattern.contains '_' then .residual
  else
    let bytes := BinaryRowBuilder.textBytes pattern
    match bytes.count 0x25 with
    | 0 => .literal pattern
    | 1 =>
      if 1 < bytes.length then
        if pattern.getLast? = some '%' then .startsWith pattern.dropLast
        else if pattern.head? = some '%' then .endsWith pattern.tail
        else .residual
      else .residual
    | 2 =>
      -- one byte comes off at either end
      if 2 < bytes.length ∧ pattern.head? = some '%' ∧ pattern.getLast? = some '%' then
        .contains pattern.tail.dropLast
      else .residual
    | _ => .residual

/-- the test a shape stands for; `none` is left to the matcher -/
def LikeShape.accepts : LikeShape → Option (Text → Bool)
  | .literal s => some (· == s)
  | .startsWith s => some s.isPrefixOf
  | .endsWith s => some s.isSuffixOf
  | .contains s => some fun value => decide (s <:+: value)
  | .residual => none

theorem matchTokens_anyText {ts : List LikeToken} {v : Text} :
    matchTokens (.anyText :: ts) v = true ↔ ∃ a r, a ++ r = v ∧ matchTokens ts r = true := by
  rw [matchTokens, any_eq_true]
  simp only [mem_tails, IsSuffix]
  constructor
  · rintro ⟨r, ⟨a, rfl⟩, h⟩
    exact ⟨a, r, rfl, h⟩
  · rintro ⟨a, r, rfl, h⟩
    exact ⟨r, ⟨a, rfl⟩, h⟩

theorem anyText_anyText (ts : List LikeToken) (v : Text) :
    matchTokens (.anyText :: .anyText :: ts) v = matchTokens (.anyText :: ts) v := by
  rw [Bool.eq_iff_iff, matchTokens_anyText, matchTokens_anyText]
  constructor
  · rintro ⟨a, _, rfl, h⟩
    obtain ⟨b, r, rfl, hr⟩ := matchTokens_anyText.mp h
    exact ⟨a ++ b, r, append_assoc .., hr⟩
  · rintro ⟨a, r, rfl, h⟩
    exact ⟨a, r, rfl, matchTokens_anyText.mpr ⟨[], r, rfl, h⟩⟩

theorem matchTokens_collapse (rest v : Text) : matchTokens (.anyText :: likeTokens rest) v =
    matchTokens (.anyText :: likeTokens (rest.dropWhile (· == '%'))) v := by
  induction rest with
  | nil => rfl
  | cons c rest ih =>
    by_cases hc : c = '%'
    · subst hc
      rw [dropWhile_cons_of_pos rfl, ← ih, likeTokens, anyText_anyText]
    · rw [dropWhile_cons_of_neg (by simpa using hc)]

theorem likeMatchChars_eq (value pattern : Text) :
    likeMatchChars value pattern = matchTokens (likeTokens pattern) value := by
  fun_induction likeMatchChars value pattern with
  | case1 => rfl
  | case2 value rest h =>
    rw [likeTokens, matchTokens_collapse, isEmpty_iff.mp h]
    exact (any_eq_true.mpr ⟨[], (mem_tails _ _).mpr nil_suffix, rfl⟩).symm
  | case3 value rest h ih =>
    rw [likeTokens, matchTokens_collapse, matchTokens]
    exact congrArg (fun f => value.tails.any f) (funext ih)
  | case4 | case6 | case8 => rfl
  | case5 rest c value ih => exact ih
  | case7 next rest c value ih => exact congrArg (c == next && ·) ih
  | case9 c value ih => exact congrArg (c == '\\' && ·) ih
  | case10 other rest h1 h2 h3 h4 =>
    rw [likeTokens] <;> first | rfl | assumption
  | case11 other rest h1 h2 h3 h4 c value ih =>
    rw [likeTokens] <;> first | exact congrArg (c == other && ·) ih | assumption

/-! ## the language of a pattern -/

/-- the texts a token stands for -/
def LikeToken.language : LikeToken → Language Char
  | .char c => {[c]}
  | .anyChar => {s | ∃ c, s = [c]}
  | .anyText => ⊤

/-- the texts of a pattern, one token after the other -/
def likeLanguage (pattern : Text) : Language Char := ((likeTokens pattern).map LikeToken.language).prod

theorem mem_language (ts : List LikeToken) (v : Text) :
    matchTokens ts v = true ↔ v ∈ (ts.map LikeToken.language).prod := by
  induction ts generalizing v with
  | nil => rw [map_nil, prod_nil, Language.mem_one, matchTokens, List.isEmpty_iff]
  | cons t ts ih =>
    rw [map_cons, prod_cons, Language.mem_mul]
    cases t with
    | char c =>
      constructor
      · intro h
        match v, h with
        | x :: xs, h =>
          obtain ⟨hx, h⟩ := Bool.and_eq_true_iff.mp h
          exact ⟨[c], rfl, xs, (ih xs).mp h, by rw [beq_iff_eq.mp hx]; rfl⟩
      · rintro ⟨_, rfl, rest, h, rfl⟩
        exact Bool.and_eq_true_iff.mpr ⟨beq_self_eq_true c, (ih rest).mpr h⟩
    | anyChar =>
      constructor
      · intro h
        match v, h with
        | x :: xs, h => exact ⟨[x], ⟨x, rfl⟩, xs, (ih xs).mp h, rfl⟩
      · rintro ⟨_, ⟨c, rfl⟩, rest, h, rfl⟩
        exact (ih rest).mpr h
    | anyText =>
      rw [matchTokens_anyText]
      constructor
      · rintro ⟨a, rest, rfl, h⟩
        exact ⟨a, trivial, rest, (ih rest).mp h, rfl⟩
      · rintro ⟨a, -, rest, h, rfl⟩
        exact ⟨a, rest, rfl, (ih rest).mpr h⟩

/-! ## optimized patterns -/

theorem count_percent (pattern : Text) :
    (BinaryRowBuilder.textBytes pattern).count 0x25 = pattern.count '%' := by
  induction pattern with
  | nil => rfl
  | cons c rest ih =>
    have hchar : (String.utf8EncodeChar c).count 0x25 = if c = '%' then 1 else 0 := by
      have hmap : (String.utf8EncodeChar c).count 0x25 = (Utf8.encode c).count 0x25 :=
        (count_map_of_injective _ UInt8.toNat (fun _ _ => UInt8.toNat_inj.mp) 0x25).symm
      have hc : c = '%' ↔ c.toNat = 0x25 := by
        rw [← Char.toNat_inj]
        rfl
      rw [hmap, Utf8.encode_eq]
      simp only [hc]
      split_ifs <;> simp [count_cons] <;> omega
    rw [BinaryRowBuilder.textBytes, flatMap_cons, count_append, hchar, count_cons, Nat.add_comm]
    exact congrArg₂ _ ih (by simp)

theorem matchTokens_chars (s : Text) (ts : List LikeToken) (v : Text) :
    matchTokens (s.map .char ++ ts) v = true ↔ ∃ r, s ++ r = v ∧ matchTokens ts r = true := by
  induction s generalizing v with
  | nil => simp
  | cons c s ih => cases v <;> simp [matchTokens, ih, and_assoc, eq_comm (b := c)]

theorem matchTokens_plain (s v : Text) : matchTokens (s.map .char) v = true ↔ s = v := by
  rw [← append_nil (s.map _), matchTokens_chars]
  simp [matchTokens]

theorem likeTokens_eq {pattern : Text} (h1 : '\\' ∉ pattern) (h2 : '_' ∉ pattern) :
    likeTokens pattern = pattern.map fun c => if c = '%' then .anyText else .char c := by
  induction pattern with
  | nil => rfl
  | cons c rest ih =>
    simp only [mem_cons, not_or] at h1 h2
    rw [map_cons, ← ih h1.2 h2.2]
    by_cases hc : c = '%'
    · rw [hc]
      rfl
    · rw [if_neg hc, likeTokens] <;> simp_all [eq_comm (b := c)]

theorem plain_tokens {s : Text} (h : s.count '%' = 0) :
    s.map (fun c => if c = '%' then LikeToken.anyText else .char c) = s.map .char := by
  refine map_congr_left fun c hc => if_neg ?_
  rintro rfl
  exact count_eq_zero.mp h hc

theorem optimized_test {pattern : Text} {test : Text → Bool}
    (h : (optimizeLikePattern pattern).accepts = some test) (v : Text) :
    test v = likeMatchChars v pattern := by
  rw [likeMatchChars_eq, Bool.eq_iff_iff]
  unfold optimizeLikePattern at h
  split at h
  · cases h
  rename_i hplain
  simp only [Bool.or_eq_true, contains_iff_mem, not_or] at hplain
  rw [likeTokens_eq hplain.1.2 hplain.2]
  have hlast : ∀ {s : Text}, s.getLast? = some '%' → ∃ t, s = t ++ ['%'] :=
    fun hs => ⟨_, (dropLast_append_getLast? _ hs).symm⟩
  simp only [count_percent] at h
  split at h
  · rename_i hcount
    cases h
    rw [plain_tokens hcount, matchTokens_plain, beq_iff_eq, eq_comm]
  · rename_i hcount
    split_ifs at h with hlen hend hhead
    · obtain ⟨s, rfl⟩ := hlast hend
      rw [dropLast_concat] at h
      cases h
      have hs : s.count '%' = 0 := by simpa using hcount
      rw [map_append, plain_tokens hs, matchTokens_chars, isPrefixOf_iff_prefix]
      simp [matchTokens, IsPrefix]
    · obtain ⟨s, rfl⟩ : ∃ s, pattern = '%' :: s := ⟨_, (cons_head?_tail hhead).symm⟩
      cases h
      have hs : s.count '%' = 0 := by simpa using hcount
      rw [map_cons, if_pos rfl, plain_tokens hs, matchTokens_anyText, isSuffixOf_iff_suffix]
      simp [matchTokens_plain, IsSuffix]
    all_goals cases h
  · rename_i hcount
    split_ifs at h with hends
    · obtain ⟨s, rfl⟩ : ∃ s, pattern = '%' :: s := ⟨_, (cons_head?_tail hends.2.1).symm⟩
      have hs : s.count '%' = 1 := by simpa using hcount
      have hne : s ≠ [] := by
        rintro rfl
        cases hs
      obtain ⟨t, rfl⟩ := hlast ((getLast?_cons_of_ne_nil hne).symm.trans hends.2.2)
      rw [tail_cons, dropLast_concat] at h
      cases h
      have ht : t.count '%' = 0 := by simpa using hs
      rw [map_cons, if_pos rfl, map_append, plain_tokens ht, matchTokens_anyText, decide_eq_true_iff]
      simp [matchTokens_chars, matchTokens, IsInfix]
    · cases h
  · cases h

/-- **LIKE meets its language**, and so does every test a pattern is optimized to. -/
theorem like_matches_language (value pattern : Text) :
    (likeMatchChars value pattern = true ↔ value ∈ likeLanguage pattern) ∧
    ∀ test, (optimizeLikePattern pattern).accepts = some test →
      test value = likeMatchChars value pattern :=
  ⟨by rw [likeMatchChars_eq]; exact mem_language _ _, fun _ h => optimized_test h value⟩

theorem like_matches_language_starts : ['a', 'b', 'c'] ∈ likeLanguage ['a', 'b', '%'] ∧
    ['a', 'b'].isPrefixOf ['a', 'b', 'c'] = likeMatchChars ['a', 'b', 'c'] ['a', 'b', '%'] :=
  ⟨(like_matches_language _ _).1.mp (by simp [likeMatchChars]), (like_matches_language _ _).2 _ rfl⟩

end Paimon
