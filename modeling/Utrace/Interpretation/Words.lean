import Utrace.Core.Overlay
import Utrace.Native.Breakpoint

/-!
# Planting and lifting, byte for byte

The loops over words and bytes change the bytes of the trap only, whatever the size of a word
and the length of the trap: both functions are overlays.
-/

namespace Utrace

open Memory

/-! ## One word -/

/-- Storing into a word keeps its length. -/
theorem length_foldl_set (f : Nat → Byte) (js : List Nat) (word : List Byte) :
    (js.foldl (fun a j => a.set j (f j)) word).length = word.length := by
  induction js generalizing word with
  | nil => rfl
  | cons j js ih => rw [List.foldl_cons, ih, List.length_set]

/-- The inner loops replace the first bytes of a word. -/
theorem getElem?_foldl_set (f : Nat → Byte) (t : Nat) (word : List Byte) (j : Nat) :
    ((List.range t).foldl (fun a j => a.set j (f j)) word)[j]? =
      if j < t ∧ j < word.length then some (f j) else word[j]? := by
  induction t with
  | zero => simp
  | succ t ih =>
    rw [List.range_succ, List.foldl_append, List.foldl_cons, List.foldl_nil, List.getElem?_set,
      length_foldl_set, ih]
    by_cases hj : t = j
    · subst hj
      rw [if_pos rfl]
      split
      · rename_i hin
        rw [if_pos ⟨Nat.lt_succ_self t, hin⟩]
      · rename_i hout
        rw [if_neg fun h => hout h.2, List.getElem?_eq_none (Nat.le_of_not_lt hout)]
    · rw [if_neg hj]
      have hlt : j < t ↔ j < t + 1 := by omega
      simp only [hlt]

variable {arch : Arch} {base : Nat}

/-- The loop of `enable_breakpoint` saves the bytes it replaces. -/
theorem foldl_enableByte (t : Nat) (word : List Byte) (origValue : Nat → Option Byte) :
    (List.range t).foldl (enableByte arch base) (word, origValue) =
      ((List.range t).foldl (fun a j => a.set j (arch.breakInsn.getD (base + j) 0)) word,
        fun k => if base ≤ k ∧ k < base + t then word[k - base]? else origValue k) := by
  induction t with
  | zero => exact Prod.ext rfl (funext fun k => (if_neg (by omega)).symm)
  | succ t ih =>
    rw [List.range_succ, List.foldl_append, ih, List.foldl_append]
    refine Prod.ext rfl ?_
    funext k
    -- The byte saved in this turn is not yet replaced.
    have hread := getElem?_foldl_set (fun j => arch.breakInsn.getD (base + j) 0) t word t
    rw [if_neg (by omega)] at hread
    simp only [List.foldl_cons, List.foldl_nil, enableByte, hread, Function.update_apply]
    by_cases hk : k = base + t
    · subst hk
      simp
    · have hiff : base ≤ k ∧ k < base + t ↔ base ≤ k ∧ k < base + (t + 1) := by omega
      rw [if_neg hk]
      simp only [hiff]

variable {α : Type*} [AddMonoidWithOne α] [DecidableEq α]

/-- The cells of the words a breakpoint lies in are distinct: an address space in which they do
not wrap around onto each other. -/
def Arch.Fits (arch : Arch) (α : Type*) [AddMonoidWithOne α] : Prop :=
  ∀ a : α, Set.InjOn (fun j : Nat => a + (j : α)) {j | j < arch.words * arch.sizeofLong}

/-- Unbounded addresses fit any breakpoint. -/
theorem fits_of_charZero {α : Type*} [AddMonoidWithOne α] [IsLeftCancelAdd α] [CharZero α]
    (arch : Arch) : arch.Fits α :=
  fun _ _ _ _ _ h => Nat.cast_injective (add_left_cancel h)

/-- So does the memory of i386, at every address. -/
theorem fits_i386 : i386.Fits Addr := word_cells_injOn

omit [DecidableEq α] in
/-- The cells of one of its words. -/
theorem Arch.Fits.word (h : arch.Fits α) (a : α) {i : Nat} (hi : i < arch.words) :
    Set.InjOn (fun j : Nat => a + ((i * arch.sizeofLong : Nat) : α) + (j : α))
      {j | j < arch.sizeofLong} := by
  have hle : (i + 1) * arch.sizeofLong ≤ arch.words * arch.sizeofLong :=
    Nat.mul_le_mul_right _ hi
  rw [Nat.succ_mul] at hle
  intro j hj j' hj' heq
  simp only [add_assoc, ← Nat.cast_add] at heq
  have hj : j < arch.sizeofLong := hj
  have hj' : j' < arch.sizeofLong := hj'
  have hinj := h a (show i * arch.sizeofLong + j < arch.words * arch.sizeofLong by omega)
    (show i * arch.sizeofLong + j' < arch.words * arch.sizeofLong by omega) heq
  omega

/-- The bytes of the trap that lie in the words before one. -/
theorem Arch.turns_spec (arch : Arch) {i : Nat} (hi : i < arch.words) :
    i * arch.sizeofLong ≤ arch.breakpointLength ∧
      arch.turns (i * arch.sizeofLong) ≤ arch.sizeofLong ∧
      i * arch.sizeofLong + arch.turns (i * arch.sizeofLong) =
        min ((i + 1) * arch.sizeofLong) arch.breakpointLength := by
  have hbefore : i * arch.sizeofLong ≤ arch.breakpointLength - 1 := by
    have hle : i ≤ (arch.breakpointLength - 1) / arch.sizeofLong := by
      unfold Arch.words at hi
      omega
    exact (Nat.mul_le_mul_right _ hle).trans (Nat.div_mul_le_self _ _)
  unfold Arch.turns
  rw [Nat.succ_mul]
  omega

/-! ## All words -/

/-- The entry with `n` bytes of the memory saved. -/
def Breakpoint.saving (sbp : Breakpoint α) (mem : α → Byte) (n : Nat) : Breakpoint α :=
  { sbp with
    origValue := fun k => if k < n then some (mem (sbp.addr + (k : α))) else sbp.origValue k }

/-- What the words before one leave behind. -/
theorem foldl_enableWord (hfits : arch.Fits α) (mem : α → Byte) (sbp : Breakpoint α) {n : Nat}
    (hn : n ≤ arch.words) :
    (List.range n).foldl (enableWord arch) (mem, sbp) =
      (overlay mem sbp.addr (fun k => arch.breakInsn.getD k 0)
          (min (n * arch.sizeofLong) arch.breakpointLength),
        sbp.saving mem (min (n * arch.sizeofLong) arch.breakpointLength)) := by
  induction n with
  | zero => simp [overlay, Breakpoint.saving]
  | succ n ih =>
    obtain ⟨hbefore, ht, hsum⟩ := arch.turns_spec hn
    rw [List.range_succ, List.foldl_append, ih (Nat.le_of_succ_le hn), Nat.min_eq_left hbefore]
    rw [List.foldl_cons, List.foldl_nil, enableWord]
    dsimp only
    rw [foldl_enableByte]
    dsimp only
    have hroom : (n + 1) * arch.sizeofLong ≤ arch.words * arch.sizeofLong :=
      Nat.mul_le_mul_right _ hn
    rw [Nat.succ_mul] at hroom
    have hinj := hfits.word sbp.addr hn
    generalize n * arch.sizeofLong = base at hbefore ht hsum hroom hinj ⊢
    generalize arch.turns base = t at ht hsum ⊢
    -- The bytes of this word are still those of the memory at the start.
    have hread : ∀ j < arch.sizeofLong,
        overlay mem sbp.addr (fun k => arch.breakInsn.getD k 0) base
          (sbp.addr + (base : α) + (j : α)) = mem (sbp.addr + ((base + j : Nat) : α)) := by
      intro j hj
      rw [add_assoc, ← Nat.cast_add, overlay_of_ne]
      intro i hi heq
      have hsame := hfits sbp.addr (show base + j < arch.words * arch.sizeofLong by omega)
        (show i < arch.words * arch.sizeofLong by omega) heq
      omega
    refine Prod.ext ?_ (congrArg (fun f => { sbp with origValue := f }) ?_)
    · rw [← hsum, overlay_add]
      refine poke_eq_overlay hinj ht ?_ fun j hj => ?_
      · rw [length_foldl_set, length_peek]
      · rw [getElem?_foldl_set, length_peek]
        by_cases hfirst : j < t
        · rw [if_pos ⟨hfirst, hj⟩, if_pos hfirst]
        · rw [if_neg fun h => hfirst h.1, if_neg hfirst, getElem?_peek _ _ hj]
    · funext k
      rw [← hsum]
      by_cases hnew : base ≤ k ∧ k < base + t
      · obtain ⟨j, rfl⟩ := Nat.exists_eq_add_of_le hnew.1
        rw [if_pos hnew, if_pos hnew.2, Nat.add_sub_cancel_left, getElem?_peek _ _ (by omega)]
        exact congrArg some (hread j (by omega))
      · have hiff : k < base ↔ k < base + t := by omega
        rw [if_neg hnew]
        simp only [Breakpoint.saving, hiff]

/-- What the words before one leave behind, when the trap is lifted. -/
theorem foldl_disableWord (hfits : arch.Fits α) (unset : Byte) (mem : α → Byte)
    (sbp : Breakpoint α) {n : Nat} (hn : n ≤ arch.words) :
    (List.range n).foldl (disableWord arch sbp unset) mem =
      overlay mem sbp.addr (fun k => (sbp.origValue k).getD unset)
        (min (n * arch.sizeofLong) arch.breakpointLength) := by
  induction n with
  | zero => simp [overlay]
  | succ n ih =>
    obtain ⟨hbefore, ht, hsum⟩ := arch.turns_spec hn
    rw [List.range_succ, List.foldl_append, ih (Nat.le_of_succ_le hn), Nat.min_eq_left hbefore]
    rw [List.foldl_cons, List.foldl_nil, disableWord, ← hsum, overlay_add]
    refine poke_eq_overlay (hfits.word sbp.addr hn) ht ?_ fun j hj => ?_
    · exact (length_foldl_set _ _ _).trans (length_peek _ _ _)
    · have hbyte := getElem?_foldl_set
        (fun j => (sbp.origValue (n * arch.sizeofLong + j)).getD unset)
        (arch.turns (n * arch.sizeofLong)) (peek arch.sizeofLong
          (overlay mem sbp.addr (fun k => (sbp.origValue k).getD unset) (n * arch.sizeofLong))
          (sbp.addr + ((n * arch.sizeofLong : Nat) : α))) j
      rw [length_peek, getElem?_peek _ _ hj] at hbyte
      refine hbyte.trans ?_
      by_cases hfirst : j < arch.turns (n * arch.sizeofLong)
      · rw [if_pos ⟨hfirst, hj⟩, if_pos hfirst]
      · rw [if_neg fun h => hfirst h.1, if_neg hfirst]

/-- The words reach to the end of the trap. -/
theorem Arch.breakpointLength_le (arch : Arch) (hlong : 0 < arch.sizeofLong) :
    arch.breakpointLength ≤ arch.words * arch.sizeofLong := by
  have hlt := Nat.lt_mul_div_succ (arch.breakpointLength - 1) hlong
  rw [Nat.mul_comm] at hlt
  unfold Arch.words
  rw [Nat.add_comm 1]
  omega

/-- `enable_breakpoint` saves the bytes of the trap and puts the trap in their place. -/
theorem enableBreakpoint_eq (hfits : arch.Fits α) (hlong : 0 < arch.sizeofLong)
    (mem : α → Byte) (sbp : Breakpoint α) :
    enableBreakpoint arch mem sbp =
      (overlay mem sbp.addr (fun k => arch.breakInsn.getD k 0) arch.breakpointLength,
        sbp.saving mem arch.breakpointLength) := by
  have hwords := foldl_enableWord hfits mem sbp le_rfl
  rwa [Nat.min_eq_right (arch.breakpointLength_le hlong)] at hwords

/-- `disable_breakpoint` puts the saved bytes in their place. -/
theorem disableBreakpoint_eq (hfits : arch.Fits α) (hlong : 0 < arch.sizeofLong) (unset : Byte)
    (mem : α → Byte) (sbp : Breakpoint α) :
    disableBreakpoint arch unset mem sbp =
      overlay mem sbp.addr (fun k => (sbp.origValue k).getD unset) arch.breakpointLength := by
  have hwords := foldl_disableWord hfits unset mem sbp le_rfl
  rwa [Nat.min_eq_right (arch.breakpointLength_le hlong)] at hwords

end Utrace
