import Utrace.Core.Brackets
import Utrace.Interpretation.ArgSig

/-!
# The parenthesis that matches the last one

`start_of_arg_sig` returns the position of the left parenthesis with a balanced text between it
and the last parenthesis of the string. There is none where the last parenthesis is a left one,
or where too few are opened in front of it.
-/

namespace Utrace

variable {k : Int} {c c' : Char} {before before' str t : List Char} {tmp : Nat}

/-- The parentheses. -/
def parens : Brackets Char := ⟨'(', ')', by decide⟩

/-- A right parenthesis adds one to match. -/
theorem weight_close : parens.weight ')' = 1 := rfl

/-- A left one matches one. -/
theorem weight_open : parens.weight '(' = -1 := rfl

/-- No other character counts. -/
theorem weight_other (hclose : c ≠ ')') (hopen : c ≠ '(') : parens.weight c = 0 := by
  rw [Brackets.weight, parens, if_neg hclose, if_neg hopen]

/-! ## The search -/

/-- From a string read backwards, the part in front of a left parenthesis leaves it as the one
to match. -/
def LeftAt (k : Int) (t : List Char) (tmp : Nat) : Prop :=
  ∃ right left, t = right ++ '(' :: left ∧ left.length = tmp ∧ parens.Leaves k right

/-- It is the first character, or it lies behind that. -/
theorem leftAt_cons (hk : 1 ≤ k) : LeftAt k (c :: t) tmp ↔
    (c = '(' ∧ k = 1 ∧ t.length = tmp) ∨ LeftAt (k + parens.weight c) t tmp := by
  constructor
  · rintro ⟨right, left, heq, hlength, hleaves⟩
    cases right with
    | nil =>
      obtain ⟨rfl, rfl⟩ := List.cons.inj heq
      exact Or.inl ⟨rfl, Brackets.leaves_nil.mp hleaves, hlength⟩
    | cons d right =>
      obtain ⟨rfl, rfl⟩ := List.cons.inj heq
      exact Or.inr ⟨right, left, rfl, hlength, (Brackets.leaves_cons.mp hleaves).2⟩
  · rintro (⟨rfl, rfl, hlength⟩ | ⟨right, left, rfl, hlength, hleaves⟩)
    · exact ⟨[], t, rfl, hlength, Brackets.leaves_nil.mpr rfl⟩
    · exact ⟨c :: right, left, rfl, hlength, Brackets.leaves_cons.mpr ⟨hk, hleaves⟩⟩

/-- With none to match, none is found. -/
theorem not_leftAt_zero : ¬LeftAt 0 t tmp := by
  rintro ⟨right, left, _, _, hleaves⟩
  have hpos := hleaves.pos [] List.nil_prefix
  rw [Brackets.excess_nil] at hpos
  omega

/-- The search goes on until the brackets it has closed are opened. -/
theorem argSigLoop_eq_some_iff (hk : 1 ≤ k) : argSigLoop k t = some tmp ↔ LeftAt k t tmp := by
  induction t generalizing k with
  | nil =>
    refine iff_of_false (fun h => by cases h) ?_
    rintro ⟨right, left, heq, _⟩
    cases right <;> cases heq
  | cons c t ih =>
    rw [argSigLoop, leftAt_cons hk]
    by_cases hclose : c = ')'
    · subst hclose
      rw [if_pos rfl, ih (by omega), weight_close]
      exact (or_iff_right fun h => absurd h.1 (by decide)).symm
    · rw [if_neg hclose]
      by_cases hopen : c = '('
      · subst hopen
        rw [if_pos rfl, weight_open, ← Int.sub_eq_add_neg]
        by_cases hmore : 0 < k - 1
        · rw [if_pos hmore, ih (by omega)]
          exact (or_iff_right fun h => by have hone := h.2.1; omega).symm
        · have hone : k = 1 := by omega
          subst hone
          rw [if_neg hmore, if_pos (Int.sub_self 1), Option.some.injEq, Int.sub_self]
          exact ((or_iff_left not_leftAt_zero).trans ⟨fun h => h.2.2, fun h => ⟨rfl, rfl, h⟩⟩).symm
      · rw [if_neg hopen, ih hk, weight_other hclose hopen, Int.add_zero]
        exact (or_iff_right fun h => hopen h.1).symm

/-- At first it looks for a right parenthesis. -/
theorem argSigLoop_zero_iff : argSigLoop 0 t = some tmp ↔
    ∃ after left, t = after ++ ')' :: left ∧ NoParens after ∧ argSigLoop 1 left = some tmp := by
  constructor
  · intro h
    induction t with
    | nil => cases h
    | cons c t ih =>
      rw [argSigLoop] at h
      by_cases hclose : c = ')'
      · subst hclose
        rw [if_pos rfl] at h
        exact ⟨[], t, rfl, NoParens.nil, h⟩
      · rw [if_neg hclose] at h
        by_cases hopen : c = '('
        · rw [if_pos hopen] at h
          cases h
        · rw [if_neg hopen] at h
          obtain ⟨after, left, rfl, hafter, hleft⟩ := ih h
          exact ⟨c :: after, left, rfl, noParens_cons.mpr ⟨⟨hopen, hclose⟩, hafter⟩, hleft⟩
  · rintro ⟨after, left, rfl, hafter, hleft⟩
    rw [argSigLoop_append hafter, argSigLoop, if_pos rfl]
    exact hleft

/-! ## The last parenthesis -/

/-- A parenthesis is the last one of a string, behind a part of it. -/
def LastParen (c : Char) (before str : List Char) : Prop :=
  (c = '(' ∨ c = ')') ∧ ∃ after, str = before ++ c :: after ∧ NoParens after

/-- The left parenthesis that matches a right one lies at a position in front of it, with a
balanced text between the two. -/
def Matches (before : List Char) (tmp : Nat) : Prop :=
  ∃ name inside, before = name ++ '(' :: inside ∧ name.length = tmp ∧ parens.Balanced inside

/-- The parenthesis found matches the last one. -/
theorem leftAt_one_iff : LeftAt 1 before.reverse tmp ↔ Matches before tmp := by
  constructor
  · rintro ⟨right, left, heq, hlength, hleaves⟩
    refine ⟨left.reverse, right.reverse, ?_, by rw [List.length_reverse, hlength], ?_⟩
    · rw [← List.reverse_reverse before, heq]
      simp
    · exact Brackets.balanced_iff_leaves.mpr (by rwa [List.reverse_reverse])
  · rintro ⟨name, inside, rfl, hlength, hbalanced⟩
    exact ⟨inside.reverse, name.reverse, by simp, by rw [List.length_reverse, hlength],
      Brackets.balanced_iff_leaves.mp hbalanced⟩

/-- The position is found that matches a right parenthesis, if that is the last one. -/
theorem startOfArgSig_eq_some_iff : startOfArgSig str = some tmp ↔
    ∃ before, LastParen ')' before str ∧ Matches before tmp := by
  rw [startOfArgSig, argSigLoop_zero_iff]
  constructor
  · rintro ⟨after, left, heq, hafter, hleft⟩
    refine ⟨left.reverse, ⟨Or.inr rfl, after.reverse, ?_, noParens_reverse.mpr hafter⟩, ?_⟩
    · rw [← List.reverse_reverse str, heq]
      simp
    · rw [← leftAt_one_iff, List.reverse_reverse]
      exact (argSigLoop_eq_some_iff le_rfl).mp hleft
  · rintro ⟨before, ⟨_, after, rfl, hafter⟩, hmatches⟩
    exact ⟨after.reverse, before.reverse, by simp, noParens_reverse.mpr hafter,
      (argSigLoop_eq_some_iff le_rfl).mpr (leftAt_one_iff.mpr hmatches)⟩

/-- Behind a last parenthesis there is one. -/
theorem LastParen.not_noParens (h : LastParen c before str) : ¬NoParens str := by
  obtain ⟨hc, after, rfl, _⟩ := h
  intro hstr
  have hnone := hstr c (by simp)
  exact hc.elim hnone.1 hnone.2

/-- There is one last parenthesis. -/
theorem LastParen.unique (h : LastParen c before str) (h' : LastParen c' before' str) :
    c = c' ∧ before = before' := by
  obtain ⟨hc, after, rfl, hafter⟩ := h
  obtain ⟨hc', after', heq, hafter'⟩ := h'
  rcases List.append_eq_append_iff.mp heq with ⟨more, rfl, hmore⟩ | ⟨more, rfl, hmore⟩
  · cases more with
    | nil =>
      obtain ⟨rfl, _⟩ := List.cons.inj hmore
      exact ⟨rfl, (List.append_nil _).symm⟩
    | cons d more =>
      obtain ⟨rfl, rfl⟩ := List.cons.inj hmore
      have hnone := hafter c' (by simp)
      exact (hc'.elim hnone.1 hnone.2).elim
  · cases more with
    | nil =>
      obtain ⟨rfl, _⟩ := List.cons.inj hmore
      exact ⟨rfl, List.append_nil _⟩
    | cons d more =>
      obtain ⟨rfl, rfl⟩ := List.cons.inj hmore
      have hnone := hafter' c (by simp)
      exact (hc.elim hnone.1 hnone.2).elim

/-- A string without a last parenthesis has none. -/
theorem noParens_or_lastParen (str : List Char) :
    NoParens str ∨ ∃ c before, LastParen c before str := by
  induction str with
  | nil => exact Or.inl NoParens.nil
  | cons c str ih =>
    rcases ih with hnone | ⟨c', before, hc', after, rfl, hafter⟩
    · by_cases hc : c = '(' ∨ c = ')'
      · exact Or.inr ⟨c, [], hc, str, rfl, hnone⟩
      · exact Or.inl (noParens_cons.mpr ⟨not_or.mp hc, hnone⟩)
    · exact Or.inr ⟨c', c :: before, hc', after, rfl, hafter⟩

/-- Nothing is found in a string without parentheses, where the last one is a left one, and
where no left one matches the last one. -/
theorem startOfArgSig_eq_none_iff : startOfArgSig str = none ↔
    NoParens str ∨ (∃ before, LastParen '(' before str) ∨
      ∃ before, LastParen ')' before str ∧ ∀ tmp, ¬Matches before tmp := by
  rw [Option.eq_none_iff_forall_ne_some]
  constructor
  · intro h
    rcases noParens_or_lastParen str with hnone | ⟨c, before, hlast⟩
    · exact Or.inl hnone
    · rcases hlast.1 with rfl | rfl
      · exact Or.inr (Or.inl ⟨before, hlast⟩)
      · exact Or.inr (Or.inr ⟨before, hlast, fun tmp hmatches =>
          h tmp (startOfArgSig_eq_some_iff.mpr ⟨before, hlast, hmatches⟩)⟩)
  · intro h tmp hsome
    obtain ⟨before, hlast, hmatches⟩ := startOfArgSig_eq_some_iff.mp hsome
    rcases h with hnone | ⟨before', hopen⟩ | ⟨before', hclose, hnomatch⟩
    · exact hlast.not_noParens hnone
    · exact absurd (hlast.unique hopen).1 (by decide)
    · exact hnomatch tmp ((hlast.unique hclose).2 ▸ hmatches)

/-! ## The code -/

/-- For every string: `start_of_arg_sig` ends and reads inside the string only. It returns the
position of the left parenthesis that matches the last parenthesis, if that is a right one; it
returns `NULL` if there is no parenthesis, if the last one is a left one, or if nothing
matches it. -/
theorem start_of_arg_sig_matches (str : StrPtr) {turns : Nat} (hturns : str.len < turns) :
    ∃ r, startOfArgSigWithin str.cells turns = some r ∧
      (∀ p ∈ r.reads, 0 ≤ p ∧ p ≤ str.len) ∧
      (∀ pos, r.ret = some pos ↔ ∃ before tmp,
        LastParen ')' before str.text ∧ Matches before tmp ∧ pos = (tmp : Nat)) ∧
      (r.ret = none ↔
        NoParens str.text ∨ (∃ before, LastParen '(' before str.text) ∨
          ∃ before, LastParen ')' before str.text ∧ ∀ tmp, ¬Matches before tmp) := by
  obtain ⟨r, hends, hreturns⟩ := str.startOfArgSigWithin_returns hturns
  refine ⟨r, hends, hreturns.inside, fun pos => ?_, ?_⟩
  · rw [hreturns.ret, Option.map_eq_some_iff]
    constructor
    · rintro ⟨tmp, hsome, rfl⟩
      obtain ⟨before, hlast, hmatches⟩ := startOfArgSig_eq_some_iff.mp hsome
      exact ⟨before, tmp, hlast, hmatches, rfl⟩
    · rintro ⟨before, tmp, hlast, hmatches, rfl⟩
      exact ⟨tmp, startOfArgSig_eq_some_iff.mpr ⟨before, hlast, hmatches⟩, rfl⟩
  · rw [hreturns.ret, Option.map_eq_none_iff]
    exact startOfArgSig_eq_none_iff

/-- A string with parentheses inside parentheses. -/
def nested : StrPtr where
  cells i := ['f', '(', 'a', '(', 'b', ')', ')', 'c'].getD i.toNat '\x00'
  len := 8
  noZero := by decide
  ended := rfl
  fits := by decide

/-- The first left parenthesis of `f(a(b))c` is found, and the 8 characters and the zero are
all that is read. -/
theorem start_of_arg_sig_matches_nested :
    ∃ r, startOfArgSigWithin nested.cells 9 = some r ∧ r.ret = some 1 ∧
      ∀ p ∈ r.reads, 0 ≤ p ∧ p ≤ 8 := by
  obtain ⟨r, hends, hinside, hret, _⟩ := @start_of_arg_sig_matches nested 9 (by decide)
  have hafter : NoParens ['c'] := noParens_cons.mpr ⟨by decide, NoParens.nil⟩
  have hlast : LastParen ')' ['f', '(', 'a', '(', 'b', ')'] nested.text :=
    ⟨Or.inr rfl, ['c'], rfl, hafter⟩
  have hmatches : Matches ['f', '(', 'a', '(', 'b', ')'] 1 :=
    ⟨['f'], ['a', '(', 'b', ')'], rfl, rfl, by decide⟩
  exact ⟨r, hends, (hret 1).mpr ⟨_, 1, hlast, hmatches, rfl⟩, hinside⟩

end Utrace
