import Utrace.Core.Strings
import Utrace.Native.Display

/-!
# What `umovestr` copies

The string is read a word at a time, with two tests in every turn. Together they store the
bytes up to the terminating zero or up to the length asked for, and a zero behind them.
-/

namespace Utrace

open Memory

/-- The bytes of a word, read at an offset, in front of a zero and of the end. -/
def passed (len : Int) (offset : Nat) (a : List Byte) : List Byte :=
  (a.take (len - offset).toNat).takeWhile (· ≠ 0)

/-- A byte other than 0 before the limit is passed. -/
theorem passed_cons {len : Int} {offset : Nat} {c : Byte} (hc : c ≠ 0) (hlt : (offset : Int) < len)
    (a : List Byte) : passed len offset (c :: a) = c :: passed len (offset + 1) a := by
  have hturn : (len - offset).toNat = (len - (offset + 1 : Nat)).toNat + 1 := by omega
  unfold passed
  rw [hturn, List.take_succ_cons, List.takeWhile_cons_of_pos (by simpa using hc)]

/-- A 0 or the limit stops the scan. -/
theorem passed_stop {len : Int} {offset : Nat} {c : Byte} (h : ¬(c ≠ 0 ∧ (offset : Int) < len))
    (a : List Byte) : passed len offset (c :: a) = [] := by
  unfold passed
  by_cases hlt : (offset : Int) < len
  · have hc : c = 0 := by
      by_contra hc
      exact h ⟨hc, hlt⟩
    have hturn : (len - offset).toNat = (len - (offset + 1 : Nat)).toNat + 1 := by omega
    rw [hturn, List.take_succ_cons, List.takeWhile_cons_of_neg (by simp [hc])]
  · have hend : (len - offset).toNat = 0 := by omega
    rw [hend]
    rfl

/-- A zero is stored behind them unless the whole word passed. -/
theorem copyWord_eq (len : Int) (offset : Nat) (a : List Byte) :
    copyWord len offset a =
      if passed len offset a = a then (a, false) else (passed len offset a ++ [0], true) := by
  induction a generalizing offset with
  | nil =>
    have hnil : passed len offset [] = [] := by simp [passed]
    rw [if_pos hnil]
    rfl
  | cons c a ih =>
    unfold copyWord
    by_cases hpass : c ≠ 0 ∧ (offset : Int) < len
    · rw [if_pos hpass, ih, passed_cons hpass.1 hpass.2]
      by_cases hall : passed len (offset + 1) a = a
      · rw [if_pos hall, if_pos (by rw [hall])]
      · rw [if_neg hall, if_neg fun h => hall (List.cons.inj h).2]
        rfl
    · rw [if_neg hpass, passed_stop hpass, if_neg (List.cons_ne_nil c a).symm]
      rfl

/-- Of a word, whatever its size, either all is copied and the rest of the string lies behind
it, or what is left of the string ends in it. -/
theorem copyWord_peek {α : Type*} [AddMonoidWithOne α] (w : Nat) (mem : α → Byte) (a : α)
    (len : Int) (offset : Nat) :
    (copyWord len offset (peek w mem a) = (peek w mem a, false) ∧
        prefixOf mem a (len - offset).toNat =
          peek w mem a ++ prefixOf mem (a + (w : α)) (len - (offset + w : Nat)).toNat) ∨
      copyWord len offset (peek w mem a) = (prefixOf mem a (len - offset).toNat ++ [0], true) := by
  have hlength := length_peek w mem a
  rw [copyWord_eq]
  by_cases hmore : w ≤ (len - offset).toNat
  · -- The whole word lies in front of the end.
    obtain ⟨n, hn⟩ := Nat.exists_eq_add_of_le hmore
    have hpassed : passed len offset (peek w mem a) = (peek w mem a).takeWhile (· ≠ 0) := by
      rw [passed, List.take_of_length_le (by rw [hlength]; exact hmore)]
    have hsplit : prefixOf mem a (len - offset).toNat =
        (peek w mem a ++ peek n mem (a + (w : α))).takeWhile (· ≠ 0) := by
      rw [hn, prefixOf, peek_add]
    rw [hpassed, hsplit]
    by_cases hall : (peek w mem a).takeWhile (· ≠ 0) = peek w mem a
    · left
      have hrest : (len - (offset + w : Nat)).toNat = n := by omega
      rw [if_pos hall, hrest, List.takeWhile_append_of_pos (List.takeWhile_eq_self_iff.mp hall)]
      exact ⟨rfl, rfl⟩
    · right
      rw [if_neg hall, List.takeWhile_append, if_neg fun heq =>
        hall ((List.takeWhile_prefix _).eq_of_length heq)]
  · right
    have hpassed : passed len offset (peek w mem a) = prefixOf mem a (len - offset).toNat := by
      rw [passed, take_peek mem _ (by omega)]
      rfl
    have hshort : prefixOf mem a (len - offset).toNat ≠ peek w mem a := by
      intro heq
      have hle := length_prefixOf_le mem a (len - offset).toNat
      rw [heq, hlength] at hle
      exact hmore hle
    rw [hpassed, if_neg hshort]

/-- The word loop copies the prefix of the string and ends it with a 0. -/
theorem copyWords_eq (mem : Addr → Byte) (addr : Addr) (len : Int) {turns offset : Nat}
    (hturns : turns = ((len - offset + 3) / 4).toNat) :
    copyWords mem addr len turns offset =
      prefixOf mem (addr + (offset : Addr)) (len - offset).toNat ++ [0] := by
  induction turns generalizing offset with
  | zero =>
    have hend : (len - offset).toNat = 0 := by omega
    rw [hend]
    rfl
  | succ turns ih =>
    have hsize : i386.sizeofLong = 4 := rfl
    rw [copyWords, hsize]
    rcases copyWord_peek 4 mem (addr + (offset : Addr)) len offset with
      ⟨hword, hrest⟩ | hword
    · rw [hword, hrest]
      dsimp only
      rw [if_neg Bool.false_ne_true, ih (by omega), Nat.cast_add, ← add_assoc, List.append_assoc]
    · rw [hword]
      rfl

/-- `umovestr` stores the string, up to `len` bytes of it, and a zero. -/
theorem umovestr_eq (mem : Addr → Byte) (addr : Addr) (len : Int) :
    umovestr mem addr len = prefixOf mem addr len.toNat ++ [0] := by
  have hwords := @copyWords_eq mem addr len ((len + 3) / 4).toNat 0 (by simp)
  unfold umovestr
  rw [hwords]
  simp

end Utrace
