import Utrace.Core.Memory
import Mathlib.Data.BitVec
import Mathlib.Tactic.Common

/-!
# Planting and lifting a trap: `sysdeps/linux-gnu/breakpoint.c`

`enable_breakpoint` and `disable_breakpoint` rewrite the tracee's memory a word at a
time. Both loops are kept for any word size and trap length; on i386 the trap is one
byte, and each call changes exactly the byte at the breakpoint's address.
-/

namespace Utrace

open Memory

abbrev Byte := BitVec 8

/-- The word of the tracer and the trap of `arch.h`. -/
structure Arch where
  /-- `sizeof(long)`. -/
  sizeofLong : Nat
  /-- `BREAKPOINT_LENGTH`. -/
  breakpointLength : Nat
  /-- `BREAKPOINT_VALUE`. -/
  breakInsn : List Byte

/-- `struct breakpoint`. A byte of `orig_value` is `none` until it is first saved: `malloc`
leaves it unset. -/
structure Breakpoint (α : Type*) where
  addr : α
  origValue : Nat → Option Byte
  enabled : Int

variable {α : Type*} [Add α] [NatCast α] [DecidableEq α]

/-- The number of turns of the inner loops: bounded by the word and by the trap's end. -/
def Arch.turns (arch : Arch) (base : Nat) : Nat :=
  min arch.sizeofLong (arch.breakpointLength - base)

/-- One turn of the inner loop of `enable_breakpoint`: save a byte, put the trap's. -/
def enableByte (arch : Arch) (base : Nat) (s : List Byte × (Nat → Option Byte)) (j : Nat) :
    List Byte × (Nat → Option Byte) :=
  (s.1.set j (arch.breakInsn.getD (base + j) 0), Function.update s.2 (base + j) s.1[j]?)

/-- One turn of the outer loop of `enable_breakpoint`. -/
def enableWord (arch : Arch) (s : (α → Byte) × Breakpoint α) (i : Nat) :
    (α → Byte) × Breakpoint α :=
  let base := i * arch.sizeofLong
  let addr := s.2.addr + (base : α)
  let a := (List.range (arch.turns base)).foldl (enableByte arch base)
    (peek arch.sizeofLong s.1 addr, s.2.origValue)
  (poke s.1 addr a.1, { s.2 with origValue := a.2 })

/-- The number of turns of the outer loops. -/
def Arch.words (arch : Arch) : Nat := 1 + (arch.breakpointLength - 1) / arch.sizeofLong

/-- `enable_breakpoint`. -/
def enableBreakpoint (arch : Arch) (mem : α → Byte) (sbp : Breakpoint α) :
    (α → Byte) × Breakpoint α :=
  (List.range arch.words).foldl (enableWord arch) (mem, sbp)

/-- One turn of the inner loop of `disable_breakpoint`; `unset` is what a byte of
`orig_value` that was never saved happens to hold. -/
def disableByte (sbp : Breakpoint α) (unset : Byte) (base : Nat) (a : List Byte) (j : Nat) :
    List Byte :=
  a.set j ((sbp.origValue (base + j)).getD unset)

/-- One turn of the outer loop of `disable_breakpoint`. -/
def disableWord (arch : Arch) (sbp : Breakpoint α) (unset : Byte) (mem : α → Byte) (i : Nat) :
    α → Byte :=
  let base := i * arch.sizeofLong
  let addr := sbp.addr + (base : α)
  poke mem addr ((List.range (arch.turns base)).foldl (disableByte sbp unset base)
    (peek arch.sizeofLong mem addr))

/-- `disable_breakpoint`. -/
def disableBreakpoint (arch : Arch) (unset : Byte) (mem : α → Byte) (sbp : Breakpoint α) :
    α → Byte :=
  (List.range arch.words).foldl (disableWord arch sbp unset) mem

/-! ## i386 -/

/-- A `void *` of the tracee. -/
abbrev Addr := BitVec 32

/-- `sysdeps/linux-gnu/i386/arch.h` and the four-byte `long`. -/
def i386 : Arch where
  sizeofLong := 4
  breakpointLength := 1
  breakInsn := [0xcc]

/-- The trap byte. -/
def trap : Byte := 0xcc

/-- `DECR_PC_AFTER_BREAK`. -/
def decrPcAfterBreak : Addr := 1

/-- The four bytes of a word are distinct cells at every address, wrapped or not. -/
theorem word_cells_injOn (a : Addr) :
    Set.InjOn (fun j : Nat => a + (j : Addr)) {j | j < i386.sizeofLong} := by
  intro i hi j hj he
  simp only [i386, Set.mem_ofPred_eq] at hi hj
  have hcast : (i : Addr) = (j : Addr) := add_left_cancel he
  have hnat := congrArg BitVec.toNat hcast
  simp only [BitVec.natCast_eq_ofNat, BitVec.toNat_ofNat] at hnat
  omega

/-- On i386, planting saves the byte at the address and replaces it by the trap. -/
theorem enableBreakpoint_i386 (mem : Addr → Byte) (sbp : Breakpoint Addr) :
    enableBreakpoint i386 mem sbp = (Function.update mem sbp.addr trap,
      { sbp with origValue := Function.update sbp.origValue 0 (some (mem sbp.addr)) }) := by
  have hpoke := poke_set_peek mem sbp.addr (word_cells_injOn sbp.addr) (i := 0) (by decide) trap
  simp only [Nat.cast_zero, add_zero] at hpoke
  have hget := getElem?_peek (w := i386.sizeofLong) mem sbp.addr (j := 0) (by decide)
  simp only [Nat.cast_zero, add_zero] at hget
  have hword : enableWord i386 (mem, sbp) 0 = (Function.update mem sbp.addr trap,
      { sbp with origValue := Function.update sbp.origValue 0 (some (mem sbp.addr)) }) := by
    rw [← hpoke, ← hget]
    simp [enableWord, enableByte, Arch.turns, i386, List.range_succ, trap]
  exact hword

/-- On i386, lifting writes back the one saved byte. -/
theorem disableBreakpoint_i386 (unset : Byte) (mem : Addr → Byte) (sbp : Breakpoint Addr) :
    disableBreakpoint i386 unset mem sbp =
      Function.update mem sbp.addr ((sbp.origValue 0).getD unset) := by
  have hpoke := poke_set_peek mem sbp.addr (word_cells_injOn sbp.addr) (i := 0) (by decide)
    ((sbp.origValue 0).getD unset)
  simp only [Nat.cast_zero, add_zero] at hpoke
  have hword : disableWord i386 sbp unset mem 0 =
      Function.update mem sbp.addr ((sbp.origValue 0).getD unset) := by
    rw [← hpoke]
    simp [disableWord, disableByte, Arch.turns, i386, List.range_succ]
  exact hword

end Utrace
