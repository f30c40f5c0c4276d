import Utrace.Native.System

/-!
# A process under utrace

The processor and the kernel around a traced process with one thread. What the instructions and
the system calls of the program do is left open; the trap, the stops that are reported and the way
a stopped thread is resumed are those of `ptrace` on i386. No signal arrives.
-/

namespace Utrace

/-- The word at an address, as `get_return_addr` peeks it. -/
def peekWord (mem : Addr → Byte) (a : Addr) : Addr :=
  mem (a + 3) ++ mem (a + 2) ++ mem (a + 1) ++ mem a

/-- The memory after some bytes were stored. -/
def stored (mem : Addr → Byte) (stores : Addr → Option Byte) (a : Addr) : Byte :=
  (stores a).getD (mem a)

/-- A processor with registers `ρ`, and the kernel behind its system calls. -/
structure Processor (ρ : Type*) where
  eip : ρ → Addr
  setEip : ρ → Addr → ρ
  uesp : ρ → Addr
  eax : ρ → Int
  /-- The number of the system call that the instruction at `eip` makes. -/
  syscall : (Addr → Byte) → ρ → Option Int
  /-- The instruction at `eip`: the registers behind it, and what it stores. -/
  exec : (Addr → Byte) → ρ → ρ × (Addr → Option Byte)
  /-- What the kernel does for a system call. -/
  serve : Int → (Addr → Byte) → ρ → ρ × (Addr → Option Byte)
  eip_setEip : ∀ regs a, eip (setEip regs a) = a
  setEip_eip : ∀ regs, setEip regs (eip regs) = regs
  setEip_setEip : ∀ regs a b, setEip (setEip regs a) b = setEip regs b
  uesp_setEip : ∀ regs a, uesp (setEip regs a) = uesp regs

/-- A program on its own: its memory and its registers. -/
structure Cpu (ρ : Type*) where
  mem : Addr → Byte
  regs : ρ

/-- What a traced process does until its next stop. -/
inductive Phase where
  /-- It was resumed with `PTRACE_SYSCALL`. -/
  | running
  /-- It was resumed with `PTRACE_SINGLESTEP`. -/
  | stepping
  /-- It was resumed at the entry of a system call. -/
  | inside (sysnum : Int)
  /-- It is stopped, at the entry of a system call or not. -/
  | stopped (stop : Stop) (entry : Option Int)

/-- A program under utrace. Its memory is that of the tracee. -/
structure Traced (ρ : Type*) where
  sys : Sys Unit
  regs : ρ
  phase : Phase

namespace Processor

variable {ρ : Type*} (p : Processor ρ)

/-- One instruction of a program on its own; a system call is served within. -/
def next (c : Cpu ρ) : Cpu ρ :=
  let done := p.exec c.mem c.regs
  let mem := stored c.mem done.2
  match p.syscall c.mem c.regs with
  | none => ⟨mem, done.1⟩
  | some sysnum =>
    let served := p.serve sysnum mem done.1
    ⟨stored mem served.2, served.1⟩

/-- The stop that is reported; `ORIG_EAX` is negative outside of system calls. -/
def report (mem : Addr → Byte) (regs : ρ) (origEax : Int) : Stop where
  status := .stopped sigtrap
  origEax := origEax
  eax := p.eax regs
  eip := p.eip regs
  uesp := p.uesp regs
  stackTop := peekWord mem (p.uesp regs)

/-- The process writes to its memory, by an instruction or in a system call. -/
def write (s : Traced ρ) (c : Cpu ρ) (phase : Phase) : Traced ρ where
  sys := { s.sys with tracee := { s.sys.tracee with mem := c.mem } }
  regs := c.regs
  phase := phase

/-- How `ptrace` resumes the process. -/
def resume (entry : Option Int) : Request → Option Phase
  | .syscall signum =>
    if signum = 0 then
      match entry with
      | none => some .running
      | some sysnum => some (.inside sysnum)
    else none
  | .singlestep => some .stepping
  | .detach => none

/-- One turn of utrace's main loop. -/
def handled (env : Env) (s : Traced ρ) (stop : Stop) (entry : Option Int) : Option (Traced ρ) :=
  if s.sys.listed then
    (s.sys.event env () stop).toOption.bind fun f =>
      f.requests.head?.bind fun request =>
        (resume entry request.2.1).map fun phase =>
          ⟨s.sys.put () f, p.setEip s.regs request.2.2, phase⟩
  else none

/-- What happens next: the process executes an instruction, runs into a trap, enters or leaves
a system call, or utrace handles its stop. -/
def step (env : Env) (s : Traced ρ) : Option (Traced ρ) :=
  let mem := s.sys.tracee.mem
  match s.phase with
  | .running =>
    if mem (p.eip s.regs) = trap then
      let regs := p.setEip s.regs (p.eip s.regs + decrPcAfterBreak)
      some { s with regs := regs, phase := .stopped (p.report mem regs (-1)) none }
    else
      match p.syscall mem s.regs with
      | none => some (write s (p.next ⟨mem, s.regs⟩) .running)
      | some sysnum =>
        let done := p.exec mem s.regs
        let mem := stored mem done.2
        some (write s ⟨mem, done.1⟩ (.stopped (p.report mem done.1 sysnum) (some sysnum)))
  | .stepping =>
    let c := p.next ⟨mem, s.regs⟩
    some (write s c (.stopped (p.report c.mem c.regs (-1)) none))
  | .inside sysnum =>
    let served := p.serve sysnum mem s.regs
    let mem := stored mem served.2
    some (write s ⟨mem, served.1⟩ (.stopped (p.report mem served.1 sysnum) none))
  | .stopped stop entry => p.handled env s stop entry

/-- Whether an instruction of the program is completed. -/
def completes (s : Traced ρ) : Bool :=
  match s.phase with
  | .running =>
    s.sys.tracee.mem (p.eip s.regs) ≠ trap && (p.syscall s.sys.tracee.mem s.regs).isNone
  | .stepping | .inside _ => true
  | .stopped _ _ => false

/-- The first stop of a program that was just opened, before its first instruction. -/
def opened (env : Env) (filename : String) (pid : Pid) (c : Cpu ρ) : Traced ρ where
  sys := .opened env filename pid c.mem fun _ => pid
  regs := c.regs
  phase := .stopped (p.report c.mem c.regs (-1)) none

end Processor

end Utrace
