import Utrace.Core.Loop
import Utrace.Native.Config

/-!
# `start_of_arg_sig` as it goes through the string

A pointer into the string is its distance from `str`, and every position that is read is kept
beside it. `stacked` is an `int`, which wraps around.
-/

namespace Utrace

/-- A string in the memory of utrace: the characters around `str`, with a zero at the end of
the string. It lies in an address space of 32 bits. -/
structure StrPtr where
  cells : Int → Char
  len : Nat
  noZero : ∀ i : Nat, i < len → cells i ≠ '\x00'
  ended : cells len = '\x00'
  fits : len < 2 ^ 32

/-- `pos`, with the positions read so far, the last one first. -/
structure Reading where
  pos : Int
  reads : List Int

namespace Reading

/-- `*pos` is read. -/
def read (s : Reading) : Reading := { s with reads := s.pos :: s.reads }

/-- `pos` is moved. -/
def move (s : Reading) (d : Int) : Reading := { s with pos := s.pos + d }

end Reading

/-- What `start_of_arg_sig` returns, and the positions it has read. -/
structure Found where
  ret : Option Int
  reads : List Int

/-- A turn of the loop of `strlen`. -/
def strlenTurn (str : Int → Char) (s : Reading) : Option (Reading ⊕ Reading) :=
  if str s.pos = '\x00' then some (.inr s.read) else some (.inl (s.read.move 1))

/-- A turn of `while ((pos > str) && (*pos != ')') && (*pos != '(')) pos--`. -/
def backTurn (str : Int → Char) (s : Reading) : Option (Reading ⊕ Reading) :=
  if 0 < s.pos then
    if str s.pos ≠ ')' ∧ str s.pos ≠ '(' then some (.inl (s.read.move (-1)))
    else some (.inr s.read)
  else some (.inr s)

/-- `while (stacked > 0)`, and the return behind the loop. -/
def whileStacked (s : Reading) (stacked : BitVec 32) : (Reading × BitVec 32) ⊕ Found :=
  if 0 < stacked.toInt then .inl (s, stacked)
  else .inr ⟨if stacked = 0 then some s.pos else none, s.reads⟩

/-- A turn of the `do` loop, from `pos` and `stacked`; the loop inside is allowed a number of
turns. -/
def argSigTurn (str : Int → Char) (turns : Nat) (s : Reading × BitVec 32) :
    Option ((Reading × BitVec 32) ⊕ Found) :=
  let back := s.1.move (-1)
  if back.pos < 0 then some (.inr ⟨none, back.reads⟩)
  else (loop (backTurn str) turns back).map fun s' =>
    if str s'.pos = ')' then whileStacked s'.read (s.2 + 1)
    else if str s'.pos = '(' then whileStacked s'.read (s.2 - 1)
    else .inr ⟨none, s'.read.reads⟩

/-- `start_of_arg_sig`, if each of its loops leaves within a number of turns. -/
def startOfArgSigWithin (str : Int → Char) (turns : Nat) : Option Found :=
  (loop (strlenTurn str) turns ⟨0, []⟩).bind fun length =>
    if length.pos = 0 then some ⟨none, length.reads⟩
    else (loop (strlenTurn str) turns ⟨0, length.reads⟩).bind fun s =>
      loop (argSigTurn str turns) turns (s, 0)

end Utrace
