import Utrace.Native.Breakpoint

/-!
# The records of `ltrace.h`

The call stack is the list of its live elements, innermost first: `callstack[i]` is
the element with `i` others below it, and the depth is the length. The push guards
keep the depth below `MAX_CALLDEPTH`, which the record carries. A pointer to a
breakpoint entry is named by the address of that entry, its key in the table.
What the kernel and the C library answer comes in as data.
-/

namespace Utrace

/-- `pid_t`. -/
abbrev Pid := Int

/-- `MAX_CALLDEPTH`. -/
def maxCalldepth : Nat := 100

/-- `MAX_THREADS_TRACED`. -/
def maxThreadsTraced : Nat := 256

/-- `struct library_symbol`; the chain is a list. -/
structure LibrarySymbol where
  name : String
  enterAddr : Addr
  deriving DecidableEq, Repr

/-- The union `c_un`, under the tag `is_syscall`. -/
inductive CUn where
  | syscall (sysnum : Int)
  | libfunc (sym : LibrarySymbol)
  deriving DecidableEq, Repr

/-- `struct callstack_element`. -/
structure CallstackElement where
  cUn : CUn
  returnAddr : Addr
  deriving DecidableEq, Repr

/-- `is_syscall`. -/
def CallstackElement.isSyscall (elem : CallstackElement) : Bool :=
  match elem.cUn with
  | .syscall _ => true
  | .libfunc _ => false

/-- `callstack[MAX_CALLDEPTH]` below `callstack_depth`, innermost element first. -/
structure Callstack where
  elems : List CallstackElement
  /-- Both pushes stop at `MAX_CALLDEPTH - 1`. -/
  bounded : elems.length ≤ maxCalldepth - 1
  deriving DecidableEq

namespace Callstack

/-- The zero-filled stack. -/
def empty : Callstack := ⟨[], by simp⟩

/-- `callstack_depth`. -/
def depth (cs : Callstack) : Nat := cs.elems.length

/-- The guarded push shared by both kinds of element. -/
def push (cs : Callstack) (elem : CallstackElement) : Callstack :=
  if h : cs.depth = maxCalldepth - 1 then cs
  else ⟨elem :: cs.elems, by
    have hb := cs.bounded
    simp only [depth] at h
    simp only [List.length_cons]
    omega⟩

/-- `callstack_depth--`. -/
def pop (cs : Callstack) : Callstack :=
  ⟨cs.elems.tail, by
    have hb := cs.bounded
    rw [List.length_tail]
    omega⟩

/-- Nothing is on an empty stack. -/
@[simp] theorem elems_empty : empty.elems = [] := rfl

/-- A pop drops the innermost element. -/
@[simp] theorem elems_pop (cs : Callstack) : cs.pop.elems = cs.elems.tail := rfl

/-- A push adds an element where there is room. -/
theorem elems_push_of_lt {cs : Callstack} (h : cs.depth < maxCalldepth - 1)
    (elem : CallstackElement) : (cs.push elem).elems = elem :: cs.elems := by
  rw [push, dif_neg (by omega)]

/-- A full stack is left as it is. -/
theorem push_of_full {cs : Callstack} (h : cs.depth = maxCalldepth - 1)
    (elem : CallstackElement) : cs.push elem = cs := by
  rw [push, dif_pos h]

/-- A push is dropped at the limit and conses below it. -/
theorem push_cases (cs : Callstack) (elem : CallstackElement) :
    (cs.depth = maxCalldepth - 1 ∧ cs.push elem = cs) ∨
      (cs.depth < maxCalldepth - 1 ∧ (cs.push elem).elems = elem :: cs.elems) := by
  have hb := cs.bounded
  by_cases h : cs.depth = maxCalldepth - 1
  · exact Or.inl ⟨h, push_of_full h elem⟩
  · have hlt : cs.depth < maxCalldepth - 1 := lt_of_le_of_ne hb h
    exact Or.inr ⟨hlt, elems_push_of_lt hlt elem⟩

/-- A stack is its elements. -/
@[ext] theorem ext {cs cs' : Callstack} (h : cs.elems = cs'.elems) : cs = cs' := by
  cases cs
  cases cs'
  cases h
  rfl

end Callstack

/-- `struct thread`, zero-filled by default. -/
structure Thread where
  tid : Pid := 0
  callstack : Callstack := .empty
  instructionPointer : Addr := 0
  stackPointer : Addr := 0
  returnAddr : Addr := 0
  /-- The entry whose trap is lifted while this thread is stepped over it. -/
  breakpointBeingEnabled : Option Addr := none
  /-- One byte: the index of the slot. -/
  childIdx : BitVec 8 := 0

/-- `enum arg_type`. -/
inductive ArgType where
  | unknown
  | void
  | int
  | uint
  | octal
  | char
  | addr
  | file
  | format
  | string
  | string0
  | string1
  | string2
  | string3
  deriving DecidableEq, Repr

/-- `MAX_ARGS`. -/
def maxArgs : Nat := 32

/-- `struct function`; the list holds the first `num_params` elements of `arg_types`. -/
structure Function where
  name : List Char
  returnType : ArgType
  argTypes : List ArgType
  paramsRight : Nat
  bounded : argTypes.length ≤ maxArgs
  right_le : paramsRight ≤ argTypes.length
  deriving DecidableEq

/-- `num_params`. -/
def Function.numParams (func : Function) : Nat := func.argTypes.length

/-- The options and the parts of the outside world the handlers consult. -/
structure Env where
  /-- `opt_c`: count calls instead of tracing them. -/
  optc : Bool := false
  /-- `opt_S`: display system calls. -/
  optS : Bool := false
  /-- `opt_f`: trace child processes. -/
  optf : Bool := false
  /-- `opt_i`: print the instruction pointer. -/
  opti : Bool := false
  /-- `opt_L`: display library calls. -/
  optL : Bool := true
  /-- `opt_e`: the function names listed, latest first. -/
  opte : List String := []
  /-- `opt_e_enable`. -/
  opteEnable : Bool := true
  /-- `syscallent.h`. -/
  syscalent0 : List String := []
  /-- `read_elf`: the traced symbols of an executable file. -/
  readElf : String → List LibrarySymbol := fun _ => []
  /-- `pid2name`: the file a running process executes. -/
  pid2name : Pid → Option String := fun _ => none
  /-- What a byte of a fresh `malloc` block holds before it is written. -/
  unset : Byte := 0

/-- The ways utrace itself stops. -/
inductive Halt where
  /-- `exit(status)`. -/
  | exit (status : Int)
  /-- An `assert` of `delete_breakpoint` or `callstack_pop` failed. -/
  | assertion
  /-- `continue_after_breakpoint` was handed the null entry. -/
  | nullBreakpoint
  /-- `dict_find_entry` was handed the null table. -/
  | nullDict
  /-- An integer, or a freed block, was followed as a pointer. -/
  | wildPointer
  deriving DecidableEq, Repr

/-- The wait status of a stopped or dead thread. -/
inductive WaitStatus where
  | exited (status : Int)
  | signaled (signum : Int)
  | stopped (signum : Int)
  | other
  deriving DecidableEq, Repr

/-- What the kernel answers about one stop: the wait status, the registers `ptrace` reads
with `PTRACE_PEEKUSER`, and the word at the top of the stack. -/
structure Stop where
  status : WaitStatus
  /-- `ORIG_EAX`. -/
  origEax : Int := -1
  /-- `EAX`. -/
  eax : Int := 0
  /-- `EIP`. -/
  eip : Addr := 0
  /-- `UESP`. -/
  uesp : Addr := 0
  /-- The word `get_return_addr` peeks at `UESP`. -/
  stackTop : Addr := 0
  deriving DecidableEq, Repr

/-- `struct event`: the field `thing` with its payload. -/
inductive Event where
  | unknown
  | none
  | signal (signum : Int)
  | exit (retVal : Int)
  | exitSignal (signum : Int)
  | syscall (sysnum : Int)
  | sysret (sysnum : Int)
  | breakpoint (brkAddr : Addr)
  deriving DecidableEq, Repr

/-- `SIGTRAP`. -/
def sigtrap : Int := 5

/-- `SIGSTOP`. -/
def sigstop : Int := 19

/-- `fork_p`, with the i386 numbers of `fork` and `vfork`. -/
def forkP (sysnum : Int) : Bool := sysnum == 2 || sysnum == 190

/-- `clone_p`, with the i386 number of `clone`. -/
def cloneP (sysnum : Int) : Bool := sysnum == 120

/-- `exec_p`, with the i386 number of `execve`. -/
def execP (sysnum : Int) : Bool := sysnum == 11

/-- `sysname`: the table entry, or the number when the table has none. -/
def sysname (syscalent0 : List String) (sysnum : Int) : String :=
  if sysnum < 0 then s!"SYS_{sysnum}"
  else match syscalent0[sysnum.toNat]? with
    | some name => "SYS_" ++ name
    | none => s!"SYS_{sysnum}"

end Utrace
