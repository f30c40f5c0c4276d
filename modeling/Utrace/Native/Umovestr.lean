import Utrace.Core.Loop
import Utrace.Core.Memory
import Utrace.Native.Breakpoint

/-!
# The copy of a string with the buffer it is stored into: `umovestr`

The size of a word and the addresses are left open: a machine whose `long` has `w` bytes, with
addresses that may be added to and may wrap around. `ptrace` reads every word asked for. A sum
`offset+i` is only computed where a byte is stored at it, so the indices bound the sums as well.
-/

namespace Utrace

/-- The buffer from `laddr` on, with the indices stored to, the last one first. -/
structure Laddr where
  cells : Nat → Byte
  stored : List Nat

namespace Laddr

/-- `*(char *)(laddr+index) = c`. -/
def store (laddr : Laddr) (index : Nat) (c : Byte) : Laddr where
  cells := Function.update laddr.cells index c
  stored := index :: laddr.stored

/-- The inner loop of `umovestr`, over what is left of the bytes of `a.c` from `i` on, and
whether it returned. -/
def copyBytes (laddr : Laddr) (len : Int) (offset i : Nat) : List Byte → Laddr × Bool
  | [] => (laddr, false)
  | c :: a =>
    if c ≠ 0 ∧ ((offset + i : Nat) : Int) < len then
      (laddr.store (offset + i) c).copyBytes len offset (i + 1) a
    else (laddr.store (offset + i) 0, true)

end Laddr

variable {α : Type*} [Add α] [NatCast α]

/-- A turn of the outer loop of `umovestr`, from an `offset` and what the buffer holds. -/
def umovestrTurn (w : Nat) (mem : α → Byte) (addr : α) (len : Int) (s : Nat × Laddr) :
    Option ((Nat × Laddr) ⊕ Laddr) :=
  if (s.1 : Int) < len then
    let copied := s.2.copyBytes len s.1 0 (Memory.peek w mem (addr + (s.1 : α)))
    if copied.2 then some (.inr copied.1) else some (.inl (s.1 + w, copied.1))
  else some (.inr (s.2.store s.1 0))

/-- `umovestr`, if its loop leaves within a number of turns. -/
def umovestrWithin (w : Nat) (mem : α → Byte) (addr : α) (len : Int) (laddr : Laddr)
    (turns : Nat) : Option Laddr :=
  loop (umovestrTurn w mem addr len) turns (0, laddr)

end Utrace
