import Utrace.Interpretation.Copied
import Utrace.Native.Umovestr

/-!
# `umovestr` for any size of a word

The loop stores what is left of the string and a zero behind it, one byte after another. A
turn stores a part of these bytes, so that what is left at the next turn is the rest of them.
-/

namespace Utrace

open Memory

/-! ## Stores one after another -/

namespace Laddr

/-- Bytes stored from an index on. -/
def storeFrom (laddr : Laddr) (index : Nat) : List Byte → Laddr
  | [] => laddr
  | c :: bytes => (laddr.store index c).storeFrom (index + 1) bytes

/-- Storing two strings one behind the other is storing their concatenation. -/
theorem storeFrom_append (laddr : Laddr) (index : Nat) (bytes more : List Byte) :
    laddr.storeFrom index (bytes ++ more) =
      (laddr.storeFrom index bytes).storeFrom (index + bytes.length) more := by
  induction bytes generalizing laddr index with
  | nil => rfl
  | cons c bytes ih =>
    rw [List.cons_append, storeFrom, ih, List.length_cons, Nat.add_comm bytes.length,
      ← Nat.add_assoc]
    rfl

/-- Cells in front of the first index stay as they are. -/
theorem cells_storeFrom_of_lt (laddr : Laddr) {index k : Nat} (hk : k < index)
    (bytes : List Byte) : (laddr.storeFrom index bytes).cells k = laddr.cells k := by
  induction bytes generalizing laddr index with
  | nil => rfl
  | cons c bytes ih =>
    rw [storeFrom, ih _ (Nat.lt_succ_of_lt hk)]
    exact Function.update_of_ne (Nat.ne_of_lt hk) _ _

/-- A cell at or behind the index holds the byte stored for it, if there is one. -/
theorem cells_storeFrom_add (laddr : Laddr) (index k : Nat) (bytes : List Byte) :
    (laddr.storeFrom index bytes).cells (index + k) =
      bytes.getD k (laddr.cells (index + k)) := by
  induction bytes generalizing laddr index k with
  | nil => rfl
  | cons c bytes ih =>
    rw [storeFrom]
    cases k with
    | zero =>
      exact (cells_storeFrom_of_lt _ (Nat.lt_add_one index) bytes).trans
        (Function.update_self _ _ _)
    | succ k =>
      have hne : index + (k + 1) ≠ index := by omega
      have hcell : (laddr.store index c).cells (index + (k + 1)) = laddr.cells (index + (k + 1)) :=
        Function.update_of_ne hne _ _
      have hrest := ih (laddr.store index c) (index + 1) k
      rw [Nat.add_right_comm, Nat.add_assoc, hcell] at hrest
      rw [hrest, List.getD_cons_succ]

/-- From its start on, the buffer is the block with these bytes. -/
theorem cells_storeFrom_zero (laddr : Laddr) (bytes : List Byte) :
    (laddr.storeFrom 0 bytes).cells = storedIn laddr.cells bytes := by
  funext k
  have hcell := cells_storeFrom_add laddr 0 k bytes
  rw [Nat.zero_add] at hcell
  exact hcell

/-- The cells stored at are those from the index on, in order. -/
theorem stored_storeFrom (laddr : Laddr) (index : Nat) (bytes : List Byte) :
    (laddr.storeFrom index bytes).stored =
      (List.range' index bytes.length).reverse ++ laddr.stored := by
  induction bytes generalizing laddr index with
  | nil => rfl
  | cons c bytes ih =>
    rw [storeFrom, ih, List.length_cons, List.range'_succ, List.reverse_cons, List.append_assoc]
    rfl

/-- A word is stored as far as the list of its bytes says. -/
theorem copyBytes_eq (laddr : Laddr) (len : Int) (offset i : Nat) (a : List Byte) :
    laddr.copyBytes len offset i a =
      (laddr.storeFrom (offset + i) (copyWord len (offset + i) a).1,
        (copyWord len (offset + i) a).2) := by
  induction a generalizing laddr i with
  | nil => rfl
  | cons c a ih =>
    rw [copyBytes, copyWord]
    split
    · rw [ih]
      rfl
    · rfl

end Laddr

/-! ## The loop -/

variable {α : Type*} [AddMonoidWithOne α] {w : Nat} {len : Int}

/-- What is left to be stored at an offset. -/
def leftAt (mem : α → Byte) (addr : α) (len : Int) (offset : Nat) : List Byte :=
  prefixOf mem (addr + (offset : α)) (len - offset).toNat ++ [0]

/-- A turn stores all that is left, or its first part while the loop goes on. -/
theorem umovestrTurn_spec (hw : 1 ≤ w) (mem : α → Byte) (addr : α) {whole : Laddr}
    (s : Nat × Laddr) (hs : s.2.storeFrom s.1 (leftAt mem addr len s.1) = whole) :
    ∃ next, umovestrTurn w mem addr len s = some next ∧
      next.elim
        (fun s' => s'.2.storeFrom s'.1 (leftAt mem addr len s'.1) = whole ∧
          (len - s'.1).toNat < (len - s.1).toNat)
        (· = whole) := by
  obtain ⟨offset, laddr⟩ := s
  rw [umovestrTurn]
  dsimp only at hs ⊢
  by_cases hlt : (offset : Int) < len
  · rw [if_pos hlt, Laddr.copyBytes_eq, Nat.add_zero]
    rcases copyWord_peek w mem (addr + (offset : α)) len offset with ⟨hword, hrest⟩ | hword
    · have hlength := length_peek w mem (addr + (offset : α))
      have hbehind : addr + ((offset + w : Nat) : α) = addr + (offset : α) + (w : α) := by
        rw [Nat.cast_add, add_assoc]
      have hsplit : leftAt mem addr len offset =
          peek w mem (addr + (offset : α)) ++ leftAt mem addr len (offset + w) := by
        rw [leftAt, hrest, List.append_assoc, leftAt, hbehind]
      rw [hsplit, Laddr.storeFrom_append, hlength] at hs
      refine ⟨.inl (offset + w, laddr.storeFrom offset (peek w mem (addr + (offset : α)))), ?_,
        hs, ?_⟩
      · rw [hword]
        rfl
      · dsimp only
        omega
    · refine ⟨.inr (laddr.storeFrom offset (leftAt mem addr len offset)), ?_, hs⟩
      rw [hword]
      rfl
  · have hend : (len - offset).toNat = 0 := by omega
    rw [leftAt, hend] at hs
    exact ⟨.inr (laddr.store offset 0), by rw [if_neg hlt], hs⟩

/-- Within one turn more than `len`, `umovestr` has stored the string, up to `len` bytes of it,
and a zero. -/
theorem umovestrWithin_eq (hw : 1 ≤ w) (mem : α → Byte) (addr : α) (laddr : Laddr) {turns : Nat}
    (hturns : len.toNat < turns) :
    umovestrWithin w mem addr len laddr turns =
      some (laddr.storeFrom 0 (prefixOf mem addr len.toNat ++ [0])) := by
  have hleft : (len - ((0 : Nat) : Int)).toNat < turns := by omega
  obtain ⟨after, hends, hafter⟩ := exists_loop_eq _ _ (fun s : Nat × Laddr => (len - s.1).toNat)
    (umovestrTurn_spec hw mem addr) (s := (0, laddr)) rfl hleft
  rw [umovestrWithin, hends, hafter, leftAt, Nat.cast_zero, Nat.cast_zero, add_zero, sub_zero]

/-- With words of four bytes, it fills the block the display functions look at. -/
theorem umovestr_refines (mem : Addr → Byte) (addr : Addr) (len : Int) (laddr : Nat → Byte)
    {turns : Nat} (hturns : len.toNat < turns) :
    ∃ after, umovestrWithin i386.sizeofLong mem addr len ⟨laddr, []⟩ turns = some after ∧
      after.cells = storedIn laddr (umovestr mem addr len) ∧
      after.stored.reverse = List.range (umovestr mem addr len).length := by
  refine ⟨_, umovestrWithin_eq (by decide) mem addr ⟨laddr, []⟩ hturns, ?_, ?_⟩
  · rw [Laddr.cells_storeFrom_zero, umovestr_eq]
  · rw [Laddr.stored_storeFrom, List.append_nil, List.reverse_reverse, umovestr_eq,
      List.range_eq_range']

/-- For every size of a word, every `len` that is not negative, every address and every
memory: `umovestr` ends, and leaves the bytes from the address on in the buffer, up to the
first zero or to `len` of them, and a zero behind them. It stores to no index above `len`. -/
theorem umovestr_copies (hw : 1 ≤ w) (hlen : 0 ≤ len) (mem : α → Byte) (addr : α)
    (laddr : Nat → Byte) :
    ∃ (after : Laddr) (m : Nat),
      (∀ turns : Nat, len < turns →
        umovestrWithin w mem addr len ⟨laddr, []⟩ turns = some after) ∧
      (m : ℕ∞) = min (zeroDistance mem addr) len.toNat ∧
      (∀ k < m, after.cells k = mem (addr + (k : α))) ∧ after.cells m = 0 ∧
      ∀ index ∈ after.stored, (index : Int) ≤ len := by
  refine ⟨_, (prefixOf mem addr len.toNat).length,
    fun turns hturns => umovestrWithin_eq hw mem addr ⟨laddr, []⟩ (by omega),
    length_prefixOf mem addr len.toNat, ?_, ?_, ?_⟩
  · intro k hk
    rw [Laddr.cells_storeFrom_zero, storedIn, List.getD_eq_getElem?_getD,
      List.getElem?_append_left hk, prefixOf_eq_peek, getElem?_peek mem addr hk]
    rfl
  · rw [Laddr.cells_storeFrom_zero, storedIn, List.getD_eq_getElem?_getD,
      List.getElem?_append_right le_rfl, Nat.sub_self]
    rfl
  · intro index hindex
    have hle := length_prefixOf_le mem addr len.toNat
    rw [Laddr.stored_storeFrom, List.append_nil, List.mem_reverse, List.mem_range'_1,
      List.length_append, List.length_singleton] at hindex
    omega

/-- Three bytes of a memory without a zero, in words of two bytes. -/
theorem umovestr_copies_three :
    ∃ after, umovestrWithin 2 (fun _ : Addr => 65) 0x5000 3 ⟨fun _ => 1, []⟩ 4 = some after ∧
      after.cells 2 = 65 ∧ after.cells 3 = 0 ∧ ∀ index ∈ after.stored, (index : Int) ≤ 3 := by
  obtain ⟨after, m, hends, hm, hbytes, hzero, hindex⟩ := @umovestr_copies Addr _ 2 3 (by decide)
    (by decide) (fun _ => 65) 0x5000 fun _ => 1
  have hnone : zeroDistance (fun _ : Addr => (65 : Byte)) 0x5000 = ⊤ := by simp [zeroDistance]
  have hthree : m = 3 := by
    rw [hnone, min_eq_right le_top] at hm
    exact Nat.cast_injective hm
  subst hthree
  exact ⟨after, hends 4 (by decide), hbytes 2 (by decide), hzero, hindex⟩

end Utrace
