import Utrace.Native.Display

/-!
# Displayed characters can be read back

Escapes are one, two and four characters long, and digits and letters stand for themselves
as well. A backslash is never displayed alone, so the first characters of a text tell where
its first byte ends.
-/

namespace Utrace

/-- The text of a byte, as `display_string` passes it. -/
def charText (c : Byte) : List Char := (displayChar c.toNat).text

/-- The text of a string without the quotes. -/
def displayedText (s : List Byte) : List Char := s.flatMap charText

/-! ## Reading back -/

/-- The value of an octal digit. -/
def octalDigit (c : Char) : Nat := c.toNat - '0'.toNat

/-- The character behind a backslash, for the escapes of two characters. -/
def escaped (c : Char) : Option Byte :=
  if c = 'r' then some 13
  else if c = 'n' then some 10
  else if c = 't' then some 9
  else if c = 'b' then some 8
  else if c = '\\' then some 92
  else none

/-- The byte an escape stands for, behind its backslash, and what follows it. -/
def undisplayEscape : List Char → Option (Byte × List Char)
  | [] => none
  | c :: text =>
    match escaped c, text with
    | some b, text => some (b, text)
    | none, c' :: c'' :: text =>
      some (BitVec.ofNat 8 (64 * octalDigit c + 8 * octalDigit c' + octalDigit c''), text)
    | none, _ => none

/-- The first byte of a displayed text, and what follows it. -/
def undisplayChar : List Char → Option (Byte × List Char)
  | [] => none
  | c :: text => if c = '\\' then undisplayEscape text else some (byteOf c, text)

/-- An escape is read back whatever follows. -/
theorem undisplayEscape_append {text rest : List Char} {b : Byte} (more : List Char)
    (h : undisplayEscape text = some (b, rest)) :
    undisplayEscape (text ++ more) = some (b, rest ++ more) := by
  cases text with
  | nil => cases h
  | cons c text =>
    rw [List.cons_append]
    dsimp only [undisplayEscape] at h ⊢
    cases hescaped : escaped c with
    | some b =>
      rw [hescaped] at h
      cases h
      rfl
    | none =>
      rw [hescaped] at h
      match text with
      | [] => cases h
      | [_] => cases h
      | c' :: c'' :: text =>
        cases h
        rfl

/-- What is read first does not depend on what follows. -/
theorem undisplayChar_append {text rest : List Char} {b : Byte} (more : List Char)
    (h : undisplayChar text = some (b, rest)) :
    undisplayChar (text ++ more) = some (b, rest ++ more) := by
  cases text with
  | nil => cases h
  | cons c text =>
    rw [List.cons_append]
    dsimp only [undisplayChar] at h ⊢
    by_cases hc : c = '\\'
    · rw [if_pos hc] at h ⊢
      exact undisplayEscape_append more h
    · rw [if_neg hc] at h ⊢
      cases h
      rfl

/-- Every byte is read back from its own text. -/
theorem undisplayChar_charText (c : Byte) : undisplayChar (charText c) = some (c, []) := by
  have hall : ∀ n < 256, undisplayChar (charText (BitVec.ofNat 8 n)) =
      some (BitVec.ofNat 8 n, []) := by
    decide +kernel
  have hc := hall c.toNat c.isLt
  rwa [BitVec.ofNat_toNat, BitVec.setWidth_eq] at hc

/-- No character is displayed as nothing. -/
theorem charText_ne_nil (c : Byte) : charText c ≠ [] := by
  intro h
  have hread := undisplayChar_charText c
  rw [h] at hread
  cases hread

/-- The first bytes of a displayed text, up to a number of them. -/
def undisplayUpTo : Nat → List Char → List Byte
  | 0, _ => []
  | n + 1, text =>
    match undisplayChar text with
    | some (b, rest) => b :: undisplayUpTo n rest
    | none => []

/-- The string a displayed text stands for. -/
def undisplay (text : List Char) : List Byte := undisplayUpTo text.length text

/-- What is displayed is read back byte by byte. -/
theorem undisplayUpTo_displayedText (s : List Byte) {n : Nat} (hn : s.length ≤ n) :
    undisplayUpTo n (displayedText s) = s := by
  induction s generalizing n with
  | nil =>
    cases n with
    | zero => rfl
    | succ n => rfl
  | cons c s ih =>
    cases n with
    | zero => cases hn
    | succ n =>
      have hread := undisplayChar_append (displayedText s) (undisplayChar_charText c)
      unfold undisplayUpTo displayedText
      rw [List.flatMap_cons]
      change (match undisplayChar (charText c ++ displayedText s) with
        | some (b, rest) => b :: undisplayUpTo n rest
        | none => []) = c :: s
      rw [hread]
      exact congrArg (c :: ·) (ih (Nat.le_of_succ_le_succ hn))

/-- Every byte is displayed as one character at least. -/
theorem length_le_displayedText (s : List Byte) : s.length ≤ (displayedText s).length := by
  induction s with
  | nil => exact Nat.le_refl 0
  | cons c s ih =>
    have hpos := List.length_pos_of_ne_nil (charText_ne_nil c)
    unfold displayedText at ih ⊢
    rw [List.flatMap_cons, List.length_append, List.length_cons]
    omega

/-- For every string: what is displayed for it can be read back, so that no two strings are
displayed alike. -/
theorem displayed_strings_differ :
    (∃ decode : List Char → List Byte, ∀ s, decode (displayedText s) = s) ∧
      ∀ s s' : List Byte, displayedText s = displayedText s' → s = s' := by
  have hdecode : ∀ s, undisplay (displayedText s) = s := fun s =>
    undisplayUpTo_displayedText s (length_le_displayedText s)
  refine ⟨⟨undisplay, hdecode⟩, fun s s' h => ?_⟩
  calc s = undisplay (displayedText s) := (hdecode s).symm
    _ = undisplay (displayedText s') := by rw [h]
    _ = s' := hdecode s'

end Utrace
