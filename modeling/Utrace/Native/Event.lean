import Utrace.Native.Breakpoints
import Utrace.Native.Output

/-!
# One event: `wait_for_something.c`, `process_event.c`, `sysdeps/linux-gnu/trace.c`

Everything an event of one thread can read or change is gathered in one record: its
process with the memory behind it, its thread slot, the trace, and the requests made
to the kernel. `get_proc` is taken to return the process that owns the slot. Timing
(`-T`, `-c`, `-r`, `-t`) and debug output are left out.
-/

namespace Utrace

/-- How `ptrace` is asked to let a stopped thread go. -/
inductive Request where
  /-- `PTRACE_SYSCALL` with a signal to deliver. -/
  | syscall (signum : Int)
  /-- `PTRACE_SINGLESTEP`. -/
  | singlestep
  /-- `PTRACE_DETACH`. -/
  | detach
  deriving DecidableEq, Repr

/-- A call into `proc.c` that concerns another process or another slot. -/
inductive Call where
  /-- `open_pid(child, 0)`. -/
  | openPid (child : Pid)
  /-- `reg_tid(event->proc, child)`. -/
  | regTid (child : Pid)
  deriving DecidableEq, Repr

/-- The state an event of one thread is handled in. -/
structure Focus where
  tracee : Tracee
  thr : Thread
  output : Output
  /-- Whether the process is in `list_of_processes`. -/
  listed : Bool := true
  exiting : Bool := false
  /-- The instruction pointer of the stopped thread. -/
  eip : Addr := 0
  /-- The requests made, newest first, each with its target and the instruction pointer
  the stopped thread has at that moment. -/
  requests : List (Pid × Request × Addr) := []
  calls : List Call := []

/-! ## `trace.c` -/

/-- One request to `ptrace`. -/
def Focus.request (f : Focus) (pid : Pid) (r : Request) : Focus :=
  { f with requests := (pid, r, f.eip) :: f.requests }

/-- `untrace_pid`. -/
def untracePid (f : Focus) (pid : Pid) : Focus := f.request pid .detach

/-- `continue_after_signal`. -/
def continueAfterSignal (f : Focus) (pid : Pid) (signum : Int) : Focus :=
  f.request pid (.syscall signum)

/-- `continue_process`. -/
def continueProcess (f : Focus) (pid : Pid) : Focus := continueAfterSignal f pid 0

/-- `continue_enabling_breakpoint`. -/
def continueEnablingBreakpoint (f : Focus) (pid : Pid) (addr : Addr) : Focus :=
  continueProcess { f with tracee := enableEntry f.tracee addr } pid

/-- `continue_after_breakpoint`; the null entry is followed at once. -/
def continueAfterBreakpoint (env : Env) (f : Focus) :
    Option (Breakpoint Addr) → Except Halt Focus
  | none => .error .nullBreakpoint
  | some sbp =>
    let f := if sbp.enabled ≠ 0 then { f with tracee := disableEntry env f.tracee sbp.addr } else f
    let f := { f with eip := sbp.addr }
    if sbp.enabled = 0 then .ok (continueProcess f f.thr.tid)
    else
      let f := { f with thr := { f.thr with breakpointBeingEnabled := some sbp.addr } }
      .ok (f.request f.thr.tid .singlestep)

/-- `continue_after_breakpoint(event->thr, address2bpstruct(event->proc, addr))`. -/
def continueAfterBreakpointAt (env : Env) (f : Focus) (addr : Addr) : Except Halt Focus :=
  (address2bpstruct f.tracee addr).bind fun sbp => continueAfterBreakpoint env f sbp

/-! ## The call stack -/

/-- `callstack_push_syscall`. -/
def callstackPushSyscall (thr : Thread) (sysnum : Int) : Thread :=
  { thr with callstack := thr.callstack.push ⟨.syscall sysnum, 0⟩ }

/-- `callstack_push_symfunc`. -/
def callstackPushSymfunc (f : Focus) (sym : LibrarySymbol) : Focus :=
  if f.thr.callstack.depth = maxCalldepth - 1 then f
  else
    { f with
      tracee := insertBreakpoint f.tracee f.thr.returnAddr
      thr := { f.thr with callstack := f.thr.callstack.push ⟨.libfunc sym, f.thr.returnAddr⟩ } }

/-- `callstack_pop`. -/
def callstackPop (env : Env) (f : Focus) : Except Halt Focus :=
  match f.thr.callstack.elems with
  | [] => .error .assertion
  | elem :: _ =>
    let tracee :=
      if elem.isSyscall then .ok f.tracee else deleteBreakpoint env f.tracee elem.returnAddr
    tracee.map fun tracee =>
      { f with tracee := tracee, thr := { f.thr with callstack := f.thr.callstack.pop } }

/-- A loop of `callstack_pop`. -/
def callstackPops (env : Env) (f : Focus) : Nat → Except Halt Focus
  | 0 => .ok f
  | n + 1 => (callstackPop env f).bind fun f => callstackPops env f n

/-! ## `process_event.c` -/

/-- `process_signal`; the record is dropped from the list before the thread is resumed. -/
def processSignal (env : Env) (f : Focus) (signum : Int) : Focus :=
  if f.exiting = true ∧ signum = sigstop then
    let f := { f with tracee := disableAllBreakpoints env f.tracee }
    let f := untracePid f f.tracee.proc.pid
    continueAfterSignal { f with listed := false } f.thr.tid signum
  else
    let f := { f with output := outputLine env f.output f.thr (.signal signum) }
    continueAfterSignal f f.thr.tid signum

/-- `process_exit`. -/
def processExit (env : Env) (f : Focus) (retVal : Int) : Focus :=
  { f with output := outputLine env f.output f.thr (.exited retVal), listed := false }

/-- `process_exit_signal`. -/
def processExitSignal (env : Env) (f : Focus) (signum : Int) : Focus :=
  { f with output := outputLine env f.output f.thr (.killed signum), listed := false }

/-- `process_syscall`. -/
def processSyscall (env : Env) (f : Focus) (sysnum : Int) : Focus :=
  let f :=
    if env.optS then
      { f with output := outputLeft env f.output f.thr (sysname env.syscalent0 sysnum) }
    else f
  let f :=
    if cloneP sysnum then f
    else if f.tracee.proc.breakpointsEnabled = 0 then
      { f with tracee := enableAllBreakpoints f.tracee }
    else f
  let f := if execP sysnum then f else { f with thr := callstackPushSyscall f.thr sysnum }
  continueProcess f f.thr.tid

/-- Write `return_addr` of `callstack[0]`. -/
def Callstack.setBottom (cs : Callstack) (addr : Addr) : Callstack where
  elems := cs.elems.modify (cs.elems.length - 1) fun elem => { elem with returnAddr := addr }
  bounded := by
    rw [List.length_modify]
    exact cs.bounded

/-- `enable_all_breakpoints(event->thr)`: a thread record read as a process record. Where
the latter has `breakpoints_enabled` and `breakpoints`, the former has `return_addr` and
`is_syscall` of `callstack[0]`, live at every exit stop. -/
def enableAllBreakpointsThread (f : Focus) : Except Halt Focus :=
  match f.thr.callstack.elems.getLast? with
  | none => .ok f
  | some elem =>
    if elem.returnAddr.toInt ≤ 0 ∧ elem.isSyscall = true then .error .wildPointer
    else .ok { f with thr := { f.thr with callstack := f.thr.callstack.setBottom 1 } }

/-- The fork branch of `process_sysret`. -/
def sysretFork (env : Env) (f : Focus) (stop : Stop) (sysnum : Int) : Except Halt Focus :=
  if forkP sysnum = true ∧ env.optf = true then
    enableAllBreakpointsThread
      (if 0 < stop.eax then { f with calls := .openPid stop.eax :: f.calls } else f)
  else .ok f

/-- The clone branch of `process_sysret`. -/
def sysretClone (env : Env) (f : Focus) (stop : Stop) (sysnum : Int) : Focus :=
  if cloneP sysnum = true ∧ env.optf = true then { f with calls := .regTid stop.eax :: f.calls }
  else f

/-- The exec branch of `process_sysret`. -/
def sysretExec (env : Env) (f : Focus) (stop : Stop) (sysnum : Int) : Focus :=
  if execP sysnum = true ∧ stop.eax = 0 then
    let proc := { f.tracee.proc with filename := env.pid2name f.tracee.proc.pid }
    { f with tracee := breakpointsInit env { f.tracee with proc := proc } }
  else f

/-- `process_sysret`. -/
def processSysret (env : Env) (f : Focus) (stop : Stop) (sysnum : Int) : Except Halt Focus :=
  (sysretFork env f stop sysnum).bind fun f =>
    let f := sysretClone env f stop sysnum
    (if execP sysnum then .ok f else callstackPop env f).map fun f =>
      let f :=
        if env.optS then
          { f with output := outputRight env f.output f.thr (sysname env.syscalent0 sysnum) }
        else f
      let f := sysretExec env f stop sysnum
      continueProcess f f.thr.tid

/-- The branch of `process_breakpoint` for a return: `n` elements lie above the one whose
`return_addr` was reached. -/
def processReturn (env : Env) (f : Focus) (brkAddr : Addr) (n : Nat) : Except Halt Focus :=
  (callstackPops env f n).bind fun f =>
    let elem : Option CallstackElement := f.thr.callstack.elems.head?
    (callstackPop env f).bind fun f =>
      let f := { f with thr := { f.thr with returnAddr := brkAddr } }
      -- `c_un.libfunc->name` follows whatever the union holds.
      match elem.map CallstackElement.cUn with
      | some (.libfunc sym) =>
        let f := { f with output := outputRight env f.output f.thr sym.name }
        continueAfterBreakpointAt env f brkAddr
      | _ => .error .wildPointer

/-- The branch of `process_breakpoint` for a function entry. -/
def processEntry (env : Env) (f : Focus) (stop : Stop) (sym : LibrarySymbol) :
    Except Halt Focus :=
  let f := { f with thr := { f.thr with stackPointer := stop.uesp, returnAddr := stop.stackTop } }
  let f := { f with output := outputLeft env f.output f.thr sym.name }
  let f := callstackPushSymfunc f sym
  continueAfterBreakpointAt env f sym.enterAddr

/-- The element a return to an address belongs to: the innermost with that `return_addr`. -/
def Callstack.returning (cs : Callstack) (brkAddr : Addr) : Option Nat :=
  cs.elems.findIdx? fun elem => elem.returnAddr = brkAddr

/-- The first symbol of the list with an entry address. -/
def symbolAt (proc : Process) (brkAddr : Addr) : Option LibrarySymbol :=
  proc.listOfSymbols.find? fun sym => sym.enterAddr = brkAddr

/-- `process_breakpoint`. -/
def processBreakpoint (env : Env) (f : Focus) (stop : Stop) (brkAddr : Addr) :
    Except Halt Focus :=
  match f.thr.breakpointBeingEnabled with
  | some addr =>
    let f := continueEnablingBreakpoint f f.thr.tid addr
    .ok { f with thr := { f.thr with breakpointBeingEnabled := none } }
  | none =>
    match f.thr.callstack.returning brkAddr with
    | some n => processReturn env f brkAddr n
    | none =>
      match symbolAt f.tracee.proc brkAddr with
      | some sym => processEntry env f stop sym
      | none =>
        let f := { f with output := outputLine env f.output f.thr (.breakpointed brkAddr) }
        .ok (continueProcess f f.thr.tid)

/-- `process_event`. -/
def processEvent (env : Env) (f : Focus) (stop : Stop) : Event → Except Halt Focus
  | .unknown => .error (.exit 1)
  | .none => .ok f
  | .signal signum => .ok (processSignal env f signum)
  | .exit retVal => .ok (processExit env f retVal)
  | .exitSignal signum => .ok (processExitSignal env f signum)
  | .syscall sysnum => .ok (processSyscall env f sysnum)
  | .sysret sysnum => processSysret env f stop sysnum
  | .breakpoint brkAddr => processBreakpoint env f stop brkAddr

/-! ## `wait_for_something.c` -/

/-- `syscall_p`: 1 for an entry, 2 for an exit, 0 otherwise; `*sysnum` is `ORIG_EAX`. -/
def syscallP (thr : Thread) (stop : Stop) : Nat :=
  if stop.status = .stopped sigtrap then
    if thr.callstack.elems.head?.map CallstackElement.cUn = some (.syscall stop.origEax) then 2
    else if 0 ≤ stop.origEax then 1
    else 0
  else 0

/-- The part of `wait_for_something` after `syscall_p` found no system call. -/
def waitStatus (f : Focus) (stop : Stop) : Focus × Event :=
  match stop.status with
  | .exited retVal => (f, .exit retVal)
  | .signaled signum => (f, .exitSignal signum)
  | .other => (f, .unknown)
  | .stopped signum =>
    if signum ≠ sigtrap then (f, .signal signum)
    else
      let eip := if f.thr.instructionPointer = 0 then f.eip else f.thr.instructionPointer
      ({ f with thr := { f.thr with instructionPointer := eip } },
        .breakpoint (eip - decrPcAfterBreak))

/-- The part of `wait_for_something` from `syscall_p` on. -/
def waitSyscall (f : Focus) (stop : Stop) : Focus × Event :=
  match syscallP f.thr stop with
  | 1 => (f, .syscall stop.origEax)
  | 2 => (f, .sysret stop.origEax)
  | _ => waitStatus f stop

/-- `wait_for_something`, from the point where the process and the thread are found. -/
def waitForSomething (env : Env) (f : Focus) (stop : Stop) : Focus × Event :=
  let f := { f with thr := { f.thr with instructionPointer := 0 } }
  if f.tracee.proc.breakpointsEnabled = -1 then
    (continueProcess { f with tracee := enableAllBreakpoints f.tracee } f.thr.tid, .none)
  else
    let f :=
      if env.opti then { f with thr := { f.thr with instructionPointer := f.eip } } else f
    waitSyscall f stop

/-- One turn of the main loop: `process_event(wait_for_something())`. -/
def handle (env : Env) (f : Focus) (stop : Stop) : Except Halt Focus :=
  let waited := waitForSomething env f stop
  processEvent env waited.1 stop waited.2

end Utrace
