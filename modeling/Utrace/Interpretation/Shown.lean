import Utrace.Correctness.Escapes
import Utrace.Interpretation.Copied

/-!
# The characters shown of a string

The copy is a string of its own, cut one byte behind what may be shown. The loop shows its
bytes in turn and ends at a byte that is zero exactly when nothing was cut.
-/

namespace Utrace

open Memory

/-! ## One character -/

/-- A character is displayed as some text without a newline. -/
theorem displayChar_eq (what : Int) :
    ∃ text, '\n' ∉ text ∧ text ≠ [] ∧ displayChar what = fprintf text := by
  have hoctal : '\n' ∉ '\\' :: padded '0' 3 (octal (BitVec.ofInt 8 what).toNat) :=
    List.not_mem_cons_of_ne_of_not_mem (by decide)
      (notMem_padded (by decide) 3 (notMem_octal _))
  unfold displayChar
  split_ifs with h1 h2 h3 h4 h5 h6 h7
  · exact ⟨_, by decide, by decide, rfl⟩
  · exact ⟨_, by decide, by decide, rfl⟩
  · exact ⟨_, by decide, by decide, rfl⟩
  · exact ⟨_, by decide, by decide, rfl⟩
  · exact ⟨_, by decide, by decide, rfl⟩
  · exact ⟨_, by decide, by decide, rfl⟩
  · exact ⟨_, hoctal, List.cons_ne_nil _ _, rfl⟩
  · refine ⟨_, ?_, List.cons_ne_nil _ _, rfl⟩
    have hprintable : ∀ n < 127, 32 ≤ n → Char.ofNat n ≠ '\n' := by decide
    rw [List.mem_singleton]
    exact (hprintable what.toNat (by omega) (by omega)).symm

/-- A character is counted right, and no newline is printed for it. -/
theorem counts_displayChar (what : Int) : (displayChar what).Counts := by
  obtain ⟨text, hline, _, heq⟩ := displayChar_eq what
  rw [heq]
  exact counts_fprintf hline

/-- Displaying a character accesses nothing. -/
@[simp] theorem events_displayChar (what : Int) : (displayChar what).events = [] := by
  obtain ⟨text, _, _, heq⟩ := displayChar_eq what
  rw [heq]
  rfl

/-- It prints at least one character. -/
theorem one_le_ret_displayChar (what : Int) : 1 ≤ (displayChar what).ret := by
  obtain ⟨text, _, hne, heq⟩ := displayChar_eq what
  have hpos := List.length_pos_of_ne_nil hne
  rw [heq, ret_fprintf]
  omega

/-! ## The copy -/

/-- A block holds what was copied into it. -/
theorem stringAt_storedIn (fresh : Nat → Byte) {t : List Byte} (ht : 0 ∉ t) :
    StringAt (storedIn fresh (t ++ [0])) 0 t := by
  refine ⟨ht, ?_, ?_⟩
  · apply List.ext_getElem (length_peek _ _ _)
    intro i hi hi'
    have hget := getElem?_peek (storedIn fresh (t ++ [0])) 0 hi'
    rw [List.getElem?_eq_getElem hi, Option.some.injEq] at hget
    rw [hget]
    simp [storedIn, List.getD_eq_getElem?_getD, List.getElem?_append_left hi', hi']
  · simp [storedIn, List.getD_eq_getElem?_getD]

/-- The copy is such a block, whatever the memory of the thread holds. -/
theorem stringAt_copy (fresh : Nat → Byte) (mem : Addr → Byte) (addr : Addr) (len : Int) :
    StringAt (storedIn fresh (umovestr mem addr len)) 0 (prefixOf mem addr len.toNat) := by
  rw [umovestr_eq]
  exact stringAt_storedIn fresh (noZero_prefixOf mem addr len.toNat)

/-- A copy has its length and a zero at most. -/
theorem length_umovestr_le (mem : Addr → Byte) (addr : Addr) (len : Int) :
    (umovestr mem addr len).length ≤ len.toNat + 1 := by
  have hle := length_prefixOf_le mem addr len.toNat
  rw [umovestr_eq, List.length_append, List.length_singleton]
  omega

/-- The stores of a copy count nothing. -/
@[simp] theorem ret_stores (size : Nat) (copy : List Byte) : (stores size copy).ret = 0 := rfl

/-- They print nothing. -/
@[simp] theorem text_stores (size : Nat) (copy : List Byte) : (stores size copy).text = [] := rfl

/-- They count right. -/
theorem counts_stores (size : Nat) (copy : List Byte) : (stores size copy).Counts :=
  ⟨rfl, List.not_mem_nil⟩

/-! ## The loop over the characters -/

section Loop

variable {str1 : Nat → Byte} (size : Nat)

/-- The characters of a string are counted. -/
theorem counts_showBytes (turns i : Nat) : (showBytes str1 size turns i).1.Counts := by
  induction turns generalizing i with
  | zero => exact .nothing
  | succ turns ih =>
    unfold showBytes
    dsimp only
    split
    · exact ((Printed.Counts.event _).append (counts_displayChar _)).append (ih (i + 1))
    · exact .event _

/-- The bytes up to the end or up to the number of turns are shown. -/
theorem showBytes_spec {t : List Byte} (turns : Nat) {i : Nat} (h : StringAt str1 i t) :
    (showBytes str1 size turns i).1.text = displayedText (t.take turns) ∧
      (showBytes str1 size turns i).2 = i + min turns t.length := by
  induction turns generalizing t i with
  | zero => simp [showBytes, displayedText]
  | succ turns ih =>
    unfold showBytes
    dsimp only
    cases t with
    | nil =>
      rw [if_neg (not_not.mpr (stringAt_nil.mp h))]
      simp [displayedText]
    | cons c t =>
      obtain ⟨hc, hne, hrest⟩ := stringAt_cons.mp h
      obtain ⟨htext, hend⟩ := ih hrest
      rw [if_pos (by rw [hc]; exact hne)]
      dsimp only
      rw [Printed.text_append, Printed.text_append, htext, hend, hc]
      refine ⟨?_, ?_⟩
      · simp [displayedText, charText]
      · rw [List.length_cons]
        omega

/-- It reads no further than the byte it ends at. -/
theorem events_showBytes {t : List Byte} (turns : Nat) {i : Nat} (h : StringAt str1 i t) :
    ∀ e ∈ (showBytes str1 size turns i).1.events, ∃ k, e = .byte .characters k size ∧
      k ≤ i + min turns t.length := by
  induction turns generalizing t i with
  | zero => exact List.forall_mem_nil _
  | succ turns ih =>
    unfold showBytes
    dsimp only
    cases t with
    | nil =>
      rw [if_neg (not_not.mpr (stringAt_nil.mp h))]
      exact List.forall_mem_singleton.mpr ⟨i, rfl, Nat.le_add_right ..⟩
    | cons c t =>
      obtain ⟨hc, hne, hrest⟩ := stringAt_cons.mp h
      rw [if_pos (by rw [hc]; exact hne)]
      dsimp only
      rw [Printed.events_append, Printed.events_append, events_displayChar, List.append_nil,
        List.forall_mem_append]
      refine ⟨List.forall_mem_singleton.mpr ⟨i, rfl, Nat.le_add_right ..⟩, fun e he => ?_⟩
      obtain ⟨k, rfl, hk⟩ := ih hrest e he
      refine ⟨k, rfl, ?_⟩
      rw [List.length_cons]
      omega

end Loop

/-- As many turns as characters may still be printed are enough for the loop of a format. -/
theorem showFormat_enough (str1 : Nat → Byte) (size : Nat) {bound len : Int} {turns : Nat}
    (h : bound ≤ len + turns) (more i : Nat) :
    Display.showFormat str1 size bound (turns + more) len i =
      Display.showFormat str1 size bound turns len i := by
  induction turns generalizing len i with
  | zero =>
    cases more with
    | zero => rfl
    | succ more => exact if_neg (by omega)
  | succ turns ih =>
    have hret := one_le_ret_displayChar (str1 i).toNat
    rw [Nat.add_right_comm, Display.showFormat, Display.showFormat]
    dsimp only
    rw [ih (by omega)]

/-- So is the mark of a string that was cut. -/
theorem counts_showCut (d : Display) (stringMaxlength : Int) (str1 : Nat → Byte) (size i : Nat) :
    (showCut d stringMaxlength str1 size i).Counts :=
  (Printed.Counts.event _).append (.ite (counts_fprintf (by decide)) .nothing)

/-- The byte of a string at a position is zero only behind the last one. -/
theorem stringAt_ne_zero_iff {m : Nat → Byte} {t : List Byte} (h : StringAt m 0 t) {k : Nat}
    (hk : k ≤ t.length) : m k ≠ 0 ↔ k < t.length := by
  constructor
  · intro hne
    refine lt_of_le_of_ne hk fun heq => hne ?_
    simpa [heq] using h.ended
  · intro hlt hzero
    have hget := getElem?_peek m 0 hlt
    rw [h.cells] at hget
    refine h.noZero (List.mem_of_getElem? (i := k) ?_)
    simpa [hzero] using hget

end Utrace
