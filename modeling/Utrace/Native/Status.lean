import Utrace.Native.Tgid
import Mathlib.Data.List.TakeWhile

/-!
# `parse_tgid_str` with its buffer

The digits go through a buffer of ten characters, whose size is tested behind each store. The
stores are recorded.
-/

namespace Utrace

/-- `char buf[10]`, and the offsets of the stores to it so far. -/
structure TgidBuf where
  chars : List Char
  size : chars.length = 10
  stores : List Nat := []

/-- `*lp = c`, with `lp` as the offset into the buffer. -/
def TgidBuf.store (buf : TgidBuf) (lp : Nat) (c : Char) : TgidBuf where
  chars := buf.chars.set lp c
  size := by rw [List.length_set, buf.size]
  stores := buf.stores ++ [lp]

/-- The first loop, to the digits. The end of the list is the zero at the end of the text. -/
def skipToDigits : List Char → List Char
  | [] => []
  | c :: p => if c ≠ '\n' ∧ (c > '9' ∨ c < '0') then skipToDigits p else c :: p

/-- The second loop: `lp` behind the digits, or nothing where there are too many of them. -/
def copyDigits (lp : Nat) (buf : TgidBuf) : List Char → Option Nat × TgidBuf
  | [] => (some lp, buf)
  | c :: p =>
    if c ≤ '9' ∧ c ≥ '0' then
      if lp + 1 > 10 - 1 then (none, buf.store lp c)
      else copyDigits (lp + 1) (buf.store lp c) p
    else (some lp, buf)

/-- `parse_tgid_str`, with what the buffer holds before and after it. -/
def parseTgidStrBuf (procStr : List Char) (buf : TgidBuf) : Pid × TgidBuf :=
  match strstr "Tgid:".toList (cString procStr) with
  | none => (0, buf)
  | some p =>
    let p := skipToDigits (p.drop "Tgid:".length)
    if p.headD '\x00' > '9' ∧ p.headD '\x00' < '0' then (0, buf)
    else
      match copyDigits 0 buf p with
      | (none, buf) => (0, buf)
      | (some lp, buf) =>
        let buf := buf.store lp '\x00'
        (atoi (cString buf.chars), buf)

variable {c : Char} {p : List Char} {buf : TgidBuf} {lp : Nat}

/-- A digit lies between `'0'` and `'9'`. -/
theorem isDigit_iff_le : c.isDigit ↔ c ≤ '9' ∧ c ≥ '0' := by
  rw [Char.isDigit_iff_toNat, and_comm]
  rfl

/-- The scan drops the characters before the first digit of the line. -/
theorem skipToDigits_eq (p : List Char) :
    skipToDigits p = p.dropWhile fun c => c ≠ '\n' && !c.isDigit := by
  induction p with
  | nil => rfl
  | cons c p ih =>
    have hcond : (c ≠ '\n' ∧ (c > '9' ∨ c < '0')) ↔ (c ≠ '\n' && !c.isDigit) = true := by
      rw [Bool.and_eq_true, decide_eq_true_eq, Bool.not_eq_true', ← Bool.not_eq_true,
        isDigit_iff_le, not_and_or, Char.not_le, ge_iff_le, Char.not_le]
    rw [skipToDigits, List.dropWhile_cons]
    by_cases h : c ≠ '\n' ∧ (c > '9' ∨ c < '0')
    · rw [if_pos h, if_pos (hcond.mp h), ih]
    · rw [if_neg h, if_neg (mt hcond.mpr h)]

/-- No character is above the digits and below them. -/
theorem not_above_and_below (c : Char) : ¬(c > '9' ∧ c < '0') := by
  rintro ⟨habove, hbelow⟩
  have h : '9' < '0' := Char.lt_trans habove hbelow
  exact absurd h (by decide)

/-! ## The stores -/

/-- Every store of the second loop is inside the buffer, and so is the place behind them. -/
theorem stores_copyDigits (hlp : lp ≤ 9) (p : List Char) (buf : TgidBuf) :
    (∀ i ∈ (copyDigits lp buf p).2.stores, i ∈ buf.stores ∨ i < 10) ∧
      ∀ lp' ∈ (copyDigits lp buf p).1, lp' ≤ 9 := by
  induction p generalizing lp buf with
  | nil => exact ⟨fun i hi => Or.inl hi, fun lp' hlp' => by cases hlp'; exact hlp⟩
  | cons c p ih =>
    have hstore : ∀ i ∈ (buf.store lp c).stores, i ∈ buf.stores ∨ i < 10 := by
      intro i hi
      rcases List.mem_append.mp hi with hi | hi
      · exact Or.inl hi
      · rw [List.mem_singleton.mp hi]
        exact Or.inr (by omega)
    rw [copyDigits]
    split
    · split
      · exact ⟨hstore, fun lp' hlp' => by cases hlp'⟩
      · have hnext : lp + 1 ≤ 9 := by omega
        obtain ⟨hstores, hend⟩ := ih hnext (buf.store lp c)
        refine ⟨fun i hi => ?_, hend⟩
        rcases hstores i hi with hi | hi
        · exact hstore i hi
        · exact Or.inr hi
    · exact ⟨fun i hi => Or.inl hi, fun lp' hlp' => by cases hlp'; exact hlp⟩

/-- The digits copied end up behind those already there. -/
theorem copyDigits_eq (hlp : lp ≤ 9) (p : List Char) (buf : TgidBuf) :
    (9 < lp + (p.takeWhile Char.isDigit).length → (copyDigits lp buf p).1 = none) ∧
      (lp + (p.takeWhile Char.isDigit).length ≤ 9 →
        (copyDigits lp buf p).1 = some (lp + (p.takeWhile Char.isDigit).length) ∧
          (copyDigits lp buf p).2.chars.take (lp + (p.takeWhile Char.isDigit).length) =
            buf.chars.take lp ++ p.takeWhile Char.isDigit) := by
  induction p generalizing lp buf with
  | nil =>
    refine ⟨fun h => ?_, fun _ => ⟨rfl, by simp [copyDigits]⟩⟩
    rw [List.takeWhile_nil, List.length_nil] at h
    omega
  | cons c p ih =>
    rw [copyDigits]
    by_cases hc : c.isDigit = true
    · have hlength : lp + ((c :: p).takeWhile Char.isDigit).length =
          lp + 1 + (p.takeWhile Char.isDigit).length := by
        rw [List.takeWhile_cons_of_pos hc, List.length_cons]
        omega
      rw [if_pos (isDigit_iff_le.mp hc), hlength]
      by_cases hfull : lp + 1 > 10 - 1
      · rw [if_pos hfull]
        exact ⟨fun _ => rfl, fun h => by omega⟩
      · rw [if_neg hfull]
        have hnext : lp + 1 ≤ 9 := by omega
        obtain ⟨hlong, hshort⟩ := ih hnext (buf.store lp c)
        refine ⟨hlong, fun h => ?_⟩
        obtain ⟨hend, hchars⟩ := hshort h
        have hroom : lp < buf.chars.length := by rw [buf.size]; omega
        refine ⟨hend, ?_⟩
        rw [hchars, List.takeWhile_cons_of_pos hc, TgidBuf.store,
          List.take_succ_eq_append_getElem (by rw [List.length_set]; exact hroom),
          List.getElem_set_self, List.take_set_of_le (Nat.le_refl lp), List.append_assoc]
        rfl
    · rw [if_neg (mt isDigit_iff_le.mpr hc), List.takeWhile_cons_of_neg hc]
      refine ⟨fun h => ?_, fun _ => ⟨rfl, by simp⟩⟩
      rw [List.length_nil] at h
      omega

/-! ## The whole function -/

/-- What is read back from the buffer are the digits copied to it. -/
theorem cString_store (hlp : lp ≤ 9) (hdigits : ∀ c ∈ buf.chars.take lp, c.isDigit) :
    cString (buf.store lp '\x00').chars = buf.chars.take lp := by
  have hroom : lp < buf.chars.length := by rw [buf.size]; omega
  have hchars : (buf.store lp '\x00').chars =
      buf.chars.take lp ++ '\x00' :: buf.chars.drop (lp + 1) := by
    rw [← List.set_eq_take_append_cons_drop.trans (if_pos hroom)]
    rfl
  rw [hchars, cString, List.takeWhile_append_of_pos, List.takeWhile_cons_of_neg (by simp),
    List.append_nil]
  intro c hc
  rw [decide_eq_true_eq]
  rintro rfl
  exact absurd (hdigits _ hc) (by decide)

/-- The buffer changes nothing in what is returned. -/
theorem parseTgidStrBuf_fst (procStr : List Char) (buf : TgidBuf) :
    (parseTgidStrBuf procStr buf).1 = parseTgidStr procStr := by
  rw [parseTgidStrBuf, parseTgidStr]
  cases strstr "Tgid:".toList (cString procStr) with
  | none => rfl
  | some p =>
    dsimp only
    rw [if_neg (not_above_and_below _), skipToDigits_eq]
    obtain ⟨hlong, hshort⟩ := copyDigits_eq (Nat.zero_le 9)
      ((p.drop "Tgid:".length).dropWhile fun c => c ≠ '\n' && !c.isDigit) buf
    rw [Nat.zero_add] at hlong hshort
    split
    · rename_i buf' hnone
      rw [hnone] at hlong hshort
      rw [if_pos]
      by_contra hfew
      cases (hshort (not_lt.mp hfew)).1
    · rename_i lp buf' hsome
      rw [hsome] at hlong hshort
      have hfew : ¬9 < (List.takeWhile Char.isDigit
          ((p.drop "Tgid:".length).dropWhile fun c => c ≠ '\n' && !c.isDigit)).length := by
        intro hmany
        cases hlong hmany
      obtain ⟨hend, hchars⟩ := hshort (not_lt.mp hfew)
      cases hend
      rw [List.take_zero, List.nil_append] at hchars
      rw [if_neg hfew, cString_store (not_lt.mp hfew), hchars]
      rw [hchars]
      exact fun c hc => List.mem_takeWhile_imp hc

/-- No store is outside the buffer. -/
theorem stores_parseTgidStrBuf (procStr : List Char) (buf : TgidBuf) :
    ∀ i ∈ (parseTgidStrBuf procStr buf).2.stores, i ∈ buf.stores ∨ i < 10 := by
  rw [parseTgidStrBuf]
  cases strstr "Tgid:".toList (cString procStr) with
  | none => exact fun i hi => Or.inl hi
  | some p =>
    dsimp only
    rw [if_neg (not_above_and_below _)]
    obtain ⟨hstores, hend⟩ := stores_copyDigits (Nat.zero_le 9)
      (skipToDigits (p.drop "Tgid:".length)) buf
    split
    · rename_i buf' hnone
      rw [hnone] at hstores
      exact hstores
    · rename_i lp buf' hsome
      rw [hsome] at hstores hend
      intro i hi
      rcases List.mem_append.mp hi with hi | hi
      · exact hstores i hi
      · rw [List.mem_singleton.mp hi]
        have hlp := hend lp rfl
        exact Or.inr (by omega)

end Utrace
