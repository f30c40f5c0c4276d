import Utrace.Core.Printed

/-!
# `fprintf` and its conversions

The text of each conversion the source prints with. `fprintf` returns the number of
characters it printed.
-/

namespace Utrace

variable {ε : Type*}

/-- `fprintf(output, ..)`, with the text the format and its arguments make. -/
def fprintf (text : List Char) : Printed ε := { ret := text.length, text := text }

/-- `fprintf` returns the length of its text. -/
@[simp] theorem ret_fprintf (text : List Char) : (fprintf text : Printed ε).ret = text.length := rfl

/-- It prints its text. -/
@[simp] theorem text_fprintf (text : List Char) : (fprintf text : Printed ε).text = text := rfl

/-- It does nothing else. -/
@[simp] theorem events_fprintf (text : List Char) : (fprintf text : Printed ε).events = [] := rfl

/-- It counts right if the text holds no newline. -/
theorem counts_fprintf {text : List Char} (h : '\n' ∉ text) :
    (fprintf text : Printed ε).Counts := ⟨rfl, h⟩

/-- `%u`. -/
def unsigned (n : Nat) : List Char := Nat.toDigits 10 n

/-- `%d`. -/
def signed (n : Int) : List Char :=
  if n < 0 then '-' :: Nat.toDigits 10 n.natAbs else Nat.toDigits 10 n.natAbs

/-- `%o`. -/
def octal (n : Nat) : List Char := Nat.toDigits 8 n

/-- `%#x`. -/
def altHex (n : Nat) : List Char := if n = 0 then ['0'] else '0' :: 'x' :: Nat.toDigits 16 n

/-- `%p`. -/
def pointer (n : Nat) : List Char :=
  if n = 0 then "(nil)".toList else '0' :: 'x' :: Nat.toDigits 16 n

/-- A minimal field width, filled up on the left. -/
def padded (fill : Char) (width : Nat) (text : List Char) : List Char :=
  List.replicate (width - text.length) fill ++ text

/-- `%0*d`: the sign comes before the zeros. -/
def zeroPadded (width : Nat) (n : Int) : List Char :=
  if n < 0 then '-' :: padded '0' (width - 1) (Nat.toDigits 10 n.natAbs)
  else padded '0' width (Nat.toDigits 10 n.natAbs)

/-- `%*s` with the empty string; a negative width is taken for its absolute value. -/
def blanks (width : Int) : List Char := List.replicate width.natAbs ' '

/-! ## Nothing of this holds a newline -/

/-- A digit is no newline. -/
theorem digitChar_ne_newline (n : Nat) : Nat.digitChar n ≠ '\n' := by
  have hdigits : ∀ n < 16, Nat.digitChar n ≠ '\n' := by decide
  by_cases hn : n < 16
  · exact hdigits n hn
  · have hstar : Nat.digitChar n = '*' := by
      unfold Nat.digitChar
      repeat rw [if_neg (by omega)]
    rw [hstar]
    decide

/-- Digits put in front of a text without a newline. -/
theorem notMem_toDigitsCore (base fuel n : Nat) {digits : List Char} (h : '\n' ∉ digits) :
    '\n' ∉ Nat.toDigitsCore base fuel n digits := by
  induction fuel generalizing n digits with
  | zero => exact h
  | succ fuel ih =>
    have hcons : '\n' ∉ Nat.digitChar (n % base) :: digits :=
      List.not_mem_cons_of_ne_of_not_mem (digitChar_ne_newline _).symm h
    unfold Nat.toDigitsCore
    dsimp only
    split
    · exact hcons
    · exact ih _ hcons

/-- A number in any base holds no newline. -/
theorem notMem_toDigits (base n : Nat) : '\n' ∉ Nat.toDigits base n :=
  notMem_toDigitsCore base (n + 1) n List.not_mem_nil

/-- `%u` prints no newline. -/
theorem notMem_unsigned (n : Nat) : '\n' ∉ unsigned n := notMem_toDigits 10 n

/-- `%d` prints no newline. -/
theorem notMem_signed (n : Int) : '\n' ∉ signed n := by
  unfold signed
  split
  · exact List.not_mem_cons_of_ne_of_not_mem (by decide) (notMem_toDigits 10 _)
  · exact notMem_toDigits 10 _

/-- `%o` prints no newline. -/
theorem notMem_octal (n : Nat) : '\n' ∉ octal n := notMem_toDigits 8 n

/-- `%#x` prints no newline. -/
theorem notMem_altHex (n : Nat) : '\n' ∉ altHex n := by
  unfold altHex
  split
  · decide
  · exact List.not_mem_cons_of_ne_of_not_mem (by decide)
      (List.not_mem_cons_of_ne_of_not_mem (by decide) (notMem_toDigits 16 n))

/-- `%p` prints no newline. -/
theorem notMem_pointer (n : Nat) : '\n' ∉ pointer n := by
  unfold pointer
  split
  · decide
  · exact List.not_mem_cons_of_ne_of_not_mem (by decide)
      (List.not_mem_cons_of_ne_of_not_mem (by decide) (notMem_toDigits 16 n))

/-- A field width adds no newline. -/
theorem notMem_padded {fill : Char} (hfill : fill ≠ '\n') (width : Nat) {text : List Char}
    (h : '\n' ∉ text) : '\n' ∉ padded fill width text := by
  unfold padded
  rw [List.mem_append, List.mem_replicate]
  exact not_or_intro (fun hmem => hfill hmem.2.symm) h

/-- `%0*d` prints no newline. -/
theorem notMem_zeroPadded (width : Nat) (n : Int) : '\n' ∉ zeroPadded width n := by
  have hdigits := notMem_toDigits 10 n.natAbs
  unfold zeroPadded
  split
  · exact List.not_mem_cons_of_ne_of_not_mem (by decide) (notMem_padded (by decide) _ hdigits)
  · exact notMem_padded (by decide) width hdigits

/-- Blanks hold no newline. -/
theorem notMem_blanks (width : Int) : '\n' ∉ blanks width := by
  unfold blanks
  rw [List.mem_replicate]
  exact fun h => absurd h.2 (by decide)

end Utrace
