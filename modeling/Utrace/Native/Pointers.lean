import Utrace.Native.Breakpoints

/-!
# Breakpoints under pointers of any width: `breakpoints.c`

The table and its two functions are those of i386, with keys of `n` bits. The values of the table
are pointers to entries that `malloc` returned: places in a heap that only grows.
-/

namespace Utrace

/-- `struct process`, as far as the table of breakpoints goes, and the memory of the process. -/
structure PointerProc (n : Nat) where
  pid : Pid := 0
  breakpoints : Option (Dict (BitVec n) Nat) := none
  heap : List (Breakpoint (BitVec n)) := []
  mem : BitVec n → Byte

namespace PointerProc

variable {n : Nat} {arch : Arch}

/-- The table, made where there is none. -/
def table (proc : PointerProc n) : Dict (BitVec n) Nat :=
  proc.breakpoints.getD (dictInit dictKey2hashInt dictKeyCmpInt)

/-- `address2bpstruct`. -/
def address2bpstruct (proc : PointerProc n) (addr : BitVec n) : Except Halt (Option Nat) :=
  match proc.breakpoints with
  | none => .error .nullDict
  | some d => .ok (dictFindEntry d addr)

/-- The first part of `insert_breakpoint`: the pointer found, or that of a new entry. -/
def withEntry (proc : PointerProc n) (addr : BitVec n) : PointerProc n × Nat :=
  match dictFindEntry proc.table addr with
  | some sbp => ({ proc with breakpoints := some proc.table }, sbp)
  | none =>
    ({ proc with
      breakpoints := some (dictEnter proc.table addr proc.heap.length)
      heap := proc.heap ++ [{ addr := addr, origValue := fun _ => none, enabled := 0 }] },
      proc.heap.length)

/-- `enable_breakpoint(proc->pid, sbp)`. -/
def enable (arch : Arch) (proc : PointerProc n) (sbp : Nat) : PointerProc n :=
  match proc.heap[sbp]? with
  | none => proc
  | some entry =>
    let planted := enableBreakpoint arch proc.mem entry
    { proc with mem := planted.1, heap := proc.heap.set sbp planted.2 }

/-- `sbp->enabled++`. -/
def bump (proc : PointerProc n) (sbp : Nat) : PointerProc n :=
  { proc with
    heap := proc.heap.modify sbp fun entry => { entry with enabled := entry.enabled + 1 } }

/-- `insert_breakpoint`. -/
def insertBreakpoint (arch : Arch) (proc : PointerProc n) (addr : BitVec n) : PointerProc n :=
  let entered := proc.withEntry addr
  let sbp := entered.2
  let proc : PointerProc n := entered.1.bump sbp
  if proc.heap[sbp]?.map Breakpoint.enabled = some 1 ∧ proc.pid ≠ 0 then proc.enable arch sbp
  else proc

/-- A sequence of calls. -/
def insertAll (arch : Arch) (proc : PointerProc n) (addrs : List (BitVec n)) : PointerProc n :=
  addrs.foldl (insertBreakpoint arch) proc

/-! ## The addresses in the heap -/

/-- The `addr` fields of the entries. -/
def addrs (proc : PointerProc n) : List (BitVec n) := proc.heap.map (·.addr)

/-- Every entry on the heap has an address. -/
theorem length_addrs (proc : PointerProc n) : proc.addrs.length = proc.heap.length := by
  rw [addrs, List.length_map]

/-- An address that is found gets no new entry. -/
theorem withEntry_of_some {proc : PointerProc n} {addr : BitVec n} {sbp : Nat}
    (h : dictFindEntry proc.table addr = some sbp) :
    (proc.withEntry addr).1.table = proc.table ∧ (proc.withEntry addr).1.addrs = proc.addrs := by
  rw [withEntry, h]
  exact ⟨rfl, rfl⟩

/-- One that is not gets the next. -/
theorem withEntry_of_none {proc : PointerProc n} {addr : BitVec n}
    (h : dictFindEntry proc.table addr = none) :
    (proc.withEntry addr).1.table = dictEnter proc.table addr proc.addrs.length ∧
      (proc.withEntry addr).1.addrs = proc.addrs ++ [addr] := by
  rw [withEntry, h, length_addrs]
  exact ⟨rfl, by rw [addrs, List.map_append]; rfl⟩

/-- Behind an insertion there is a table. -/
theorem breakpoints_withEntry (proc : PointerProc n) (addr : BitVec n) :
    (proc.withEntry addr).1.breakpoints ≠ none := by
  unfold withEntry
  split <;> exact Option.some_ne_none _

/-- Writing a word keeps the address of the entry. -/
theorem addr_enableWord (s : (BitVec n → Byte) × Breakpoint (BitVec n)) (i : Nat) :
    (enableWord arch s i).2.addr = s.2.addr := rfl

/-- Planting keeps the address of the entry. -/
theorem addr_enableBreakpoint (mem : BitVec n → Byte) (sbp : Breakpoint (BitVec n)) :
    (enableBreakpoint arch mem sbp).2.addr = sbp.addr := by
  have hfold : ∀ (is : List Nat) (s : (BitVec n → Byte) × Breakpoint (BitVec n)),
      (is.foldl (enableWord arch) s).2.addr = s.2.addr := by
    intro is
    induction is with
    | nil => exact fun s => rfl
    | cons i is ih => exact fun s => (ih _).trans (addr_enableWord s i)
  exact hfold _ _

/-- Enabling keeps the addresses and the table. -/
theorem addrs_enable (arch : Arch) (proc : PointerProc n) (sbp : Nat) :
    (proc.enable arch sbp).addrs = proc.addrs ∧
      (proc.enable arch sbp).breakpoints = proc.breakpoints := by
  unfold enable
  split
  · exact ⟨rfl, rfl⟩
  · rename_i entry hentry
    refine ⟨?_, rfl⟩
    have haddr : (proc.heap.map (·.addr))[sbp]? = some entry.addr := by
      rw [List.getElem?_map, hentry, Option.map_some]
    apply List.ext_getElem?
    intro i
    rw [addrs, List.map_set, addr_enableBreakpoint, List.getElem?_set]
    split
    · rename_i heq
      subst heq
      rw [if_pos (List.getElem?_eq_some_iff.mp haddr).1]
      exact haddr.symm
    · rfl

/-- So does counting. -/
theorem addrs_bump (proc : PointerProc n) (sbp : Nat) : (proc.bump sbp).addrs = proc.addrs := by
  apply List.ext_getElem?
  intro i
  rw [addrs, addrs, bump, List.getElem?_map, List.getElem?_modify, List.getElem?_map]
  cases proc.heap[i]? with
  | none => rfl
  | some entry =>
    rw [Option.map_eq_map, Option.map_some, Option.map_some, Option.map_some]
    split <;> rfl

/-- After the first part, nothing changes the table or the address of an entry. -/
theorem insertBreakpoint_spec (arch : Arch) (proc : PointerProc n) (addr : BitVec n) :
    (proc.insertBreakpoint arch addr).addrs = (proc.withEntry addr).1.addrs ∧
      (proc.insertBreakpoint arch addr).breakpoints = (proc.withEntry addr).1.breakpoints := by
  have hbump := addrs_bump (proc.withEntry addr).1 (proc.withEntry addr).2
  unfold insertBreakpoint
  dsimp only
  split
  · obtain ⟨haddrs, hbreakpoints⟩ := addrs_enable arch
      ((proc.withEntry addr).1.bump (proc.withEntry addr).2) (proc.withEntry addr).2
    exact ⟨haddrs.trans hbump, hbreakpoints⟩
  · exact ⟨hbump, rfl⟩

end PointerProc

end Utrace
