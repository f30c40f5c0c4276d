import Utrace.Core.Procedure
import Utrace.Native.Event
import Utrace.Native.Printf
import Utrace.Native.Time

/-!
# The call stack as an array: `process_event.c`, `sysdeps/linux-gnu/i386/trace.c`, `output.c`

`callstack[]` is indexed here as the source does it, by any integer, and what lies at an index
that names no element is whatever was there. Every index used and every value given to
`callstack_depth` is noted, also where utrace stops in the middle of an event. `get_proc` is
taken to return the process that owns the slot, so it is never null. Signals and exits only
print, detach or drop the process, and what is printed is left out.
-/

namespace Utrace

namespace RawStack

/-- `struct callstack_element`. -/
structure Slot where
  elem : CallstackElement
  timeSpent : Timeval

/-- What is done to a call stack. -/
inductive StackEvent where
  /-- `callstack[i]` is read or written. -/
  | access (i : Int)
  /-- `callstack_depth` is set. -/
  | depth (d : Int)
  deriving DecidableEq

/-- `struct thread`, without the tid, the index of the slot and what only the output reads. -/
structure RawThread where
  callstackDepth : Int := 0
  callstack : Int → Slot
  instructionPointer : Addr := 0
  stackPointer : Addr := 0
  returnAddr : Addr := 0
  breakpointBeingEnabled : Option Addr := none

/-- What an event of a thread reads and writes. -/
structure RawFocus where
  tracee : Tracee
  thr : RawThread
  /-- `current_time_spent`. -/
  currentTimeSpent : Timeval := ⟨0, 0⟩
  /-- What was done to the stack, latest first. -/
  events : List StackEvent := []

/-- `opt_T`, and what `gettimeofday` answers. -/
structure Clock where
  optT : Bool
  time : Timeval

/-- A handler of events. -/
abbrev Handler (α : Type) := Procedure RawFocus Halt α

/-! ## Using the array -/

/-- `thr->callstack_depth`. -/
def callstackDepth : Handler Int := do
  let s ← get
  pure s.thr.callstackDepth

/-- Note something done to the stack. -/
def note (event : StackEvent) : Handler Unit :=
  modify fun s => { s with events := event :: s.events }

/-- Read `thr->callstack[i]`. -/
def element (i : Int) : Handler Slot := do
  note (.access i)
  let s ← get
  pure (s.thr.callstack i)

/-- Write `thr->callstack[i]`. -/
def setElement (i : Int) (f : Slot → Slot) : Handler Unit := do
  note (.access i)
  modify fun s => { s with thr := { s.thr with
    callstack := Function.update s.thr.callstack i (f (s.thr.callstack i)) } }

/-- `thr->callstack_depth = d`. -/
def setDepth (d : Int) : Handler Unit := do
  note (.depth d)
  modify fun s => { s with thr := { s.thr with callstackDepth := d } }

/-- Write what is no part of the stack. -/
def setTracee (f : Tracee → Tracee) : Handler Unit :=
  modify fun s => { s with tracee := f s.tracee }

variable (env : Env) (clock : Clock)

/-- `opt_T || opt_c`. -/
def timed : Bool := clock.optT || env.optc

/-- `calc_time_spent`. -/
def calcTimeSpent : Handler Unit := do
  let depth ← callstackDepth
  let elem ← element (depth - 1)
  modify fun s => { s with currentTimeSpent := Utrace.calcTimeSpent elem.timeSpent clock.time }

/-- `calc_time_spent` where an event calls it. -/
def takeTimeSpent : Handler Unit := if timed env clock then calcTimeSpent clock else pure ()

/-- The end of both pushes. -/
def stampTime (i : Int) : Handler Unit :=
  if timed env clock then setElement i fun elem => { elem with timeSpent := clock.time }
  else pure ()

/-- `callstack_push_syscall`. -/
def callstackPushSyscall (sysnum : Int) : Handler Unit := do
  let depth ← callstackDepth
  if depth = maxCalldepth - 1 then pure ()
  else do
    setElement depth fun elem => { elem with elem := ⟨.syscall sysnum, 0⟩ }
    setDepth (depth + 1)
    stampTime env clock depth

/-- `callstack_push_symfunc`. -/
def callstackPushSymfunc (sym : LibrarySymbol) : Handler Unit := do
  let depth ← callstackDepth
  if depth = maxCalldepth - 1 then pure ()
  else do
    let s ← get
    setElement depth fun elem => { elem with elem := ⟨.libfunc sym, s.thr.returnAddr⟩ }
    setTracee fun tracee => insertBreakpoint tracee s.thr.returnAddr
    setDepth (depth + 1)
    stampTime env clock depth

/-- The `delete_breakpoint` of `callstack_pop`. -/
def deleteReturn (elem : CallstackElement) : Handler Unit := do
  let s ← get
  if elem.isSyscall then pure ()
  else do
    let tracee ← Procedure.lift (deleteBreakpoint env s.tracee elem.returnAddr)
    setTracee fun _ => tracee

/-- `callstack_pop`. -/
def callstackPop : Handler Unit := do
  let depth ← callstackDepth
  if 0 < depth then do
    let elem ← element (depth - 1)
    deleteReturn env elem.elem
    setDepth (depth - 1)
  else throw .assertion

/-- A loop of `callstack_pop`. -/
def callstackPops : Nat → Handler Unit
  | 0 => pure ()
  | n + 1 => do
    callstackPop env
    callstackPops n

/-! ## `process_event.c` -/

/-- `process_syscall`. -/
def processSyscall (sysnum : Int) : Handler Unit := do
  setTracee fun tracee =>
    if cloneP sysnum then tracee
    else if tracee.proc.breakpointsEnabled = 0 then enableAllBreakpoints tracee
    else tracee
  if execP sysnum then pure () else callstackPushSyscall env clock sysnum

/-- `enable_all_breakpoints(event->thr)`: a thread record read as a process record. -/
def enableAllBreakpointsThread : Handler Unit := do
  let s ← get
  let elem := (s.thr.callstack 0).elem
  if elem.returnAddr.toInt ≤ 0 ∧ elem.isSyscall = true then throw .wildPointer
  else modify fun s => { s with thr := { s.thr with
    callstack := Function.update s.thr.callstack 0
      { s.thr.callstack 0 with elem := { elem with returnAddr := 1 } } } }

/-- The fork branch of `process_sysret`. -/
def sysretFork (sysnum : Int) : Handler Unit :=
  if forkP sysnum = true ∧ env.optf = true then enableAllBreakpointsThread else pure ()

/-- The pop of `process_sysret`. -/
def sysretPop (sysnum : Int) : Handler Unit :=
  if execP sysnum then pure () else callstackPop env

/-- The exec branch of `process_sysret`. -/
def sysretExec (stop : Stop) (sysnum : Int) : Handler Unit :=
  if execP sysnum = true ∧ stop.eax = 0 then
    setTracee fun tracee =>
      breakpointsInit env { tracee with proc := { tracee.proc with
        filename := env.pid2name tracee.proc.pid } }
  else pure ()

/-- `process_sysret`. -/
def processSysret (stop : Stop) (sysnum : Int) : Handler Unit := do
  takeTimeSpent env clock
  sysretFork env sysnum
  sysretPop env sysnum
  sysretExec env stop sysnum

/-- `continue_after_breakpoint`; the null entry is followed at once. -/
def continueAfterBreakpoint : Option (Breakpoint Addr) → Handler Unit
  | none => throw .nullBreakpoint
  | some sbp =>
    if sbp.enabled = 0 then pure ()
    else modify fun s => { s with
      tracee := disableEntry env s.tracee sbp.addr
      thr := { s.thr with breakpointBeingEnabled := some sbp.addr } }

/-- `continue_after_breakpoint(event->thr, address2bpstruct(event->proc, addr))`. -/
def continueAfterBreakpointAt (addr : Addr) : Handler Unit := do
  let s ← get
  let sbp ← Procedure.lift (address2bpstruct s.tracee addr)
  continueAfterBreakpoint env sbp

/-- The loop of `process_breakpoint` that looks for the element a return belongs to, from
`callstack[n - 1]` down. -/
def returnSearch (brkAddr : Addr) : Nat → Handler (Option Nat)
  | 0 => pure none
  | i + 1 => do
    let elem ← element i
    if brkAddr = elem.elem.returnAddr then pure (some i) else returnSearch brkAddr i

/-- The end of a return, where `c_un.libfunc->name` follows whatever the union holds. -/
def continueReturn (brkAddr : Addr) : CUn → Handler Unit
  | .libfunc _ => continueAfterBreakpointAt env brkAddr
  | .syscall _ => throw .wildPointer

/-- The branch of `process_breakpoint` for a return to `callstack[i]`. -/
def processReturn (brkAddr : Addr) (i : Nat) : Handler Unit := do
  let depth ← callstackDepth
  callstackPops env (depth - 1 - i).toNat
  takeTimeSpent env clock
  callstackPop env
  modify fun s => { s with thr := { s.thr with returnAddr := brkAddr } }
  let elem ← element i
  continueReturn env brkAddr elem.elem.cUn

/-- The branch of `process_breakpoint` for a function entry. -/
def processEntry (stop : Stop) (sym : LibrarySymbol) : Handler Unit := do
  modify fun s => { s with thr := { s.thr with
    stackPointer := stop.uesp
    returnAddr := stop.stackTop } }
  callstackPushSymfunc env clock sym
  continueAfterBreakpointAt env sym.enterAddr

/-- `process_breakpoint`. -/
def processBreakpoint (stop : Stop) (brkAddr : Addr) : Handler Unit := do
  let s ← get
  match s.thr.breakpointBeingEnabled with
  | some addr =>
    modify fun s => { s with
      tracee := enableEntry s.tracee addr
      thr := { s.thr with breakpointBeingEnabled := none } }
  | none => do
    let found ← returnSearch brkAddr s.thr.callstackDepth.toNat
    match found with
    | some i => processReturn env clock brkAddr i
    | none =>
      match symbolAt s.tracee.proc brkAddr with
      | some sym => processEntry env clock stop sym
      | none => pure ()

/-- `process_event`. -/
def processEvent (stop : Stop) : Event → Handler Unit
  | .unknown => throw (.exit 1)
  | .none => pure ()
  | .signal _ => pure ()
  | .exit _ => pure ()
  | .exitSignal _ => pure ()
  | .syscall sysnum => processSyscall env clock sysnum
  | .sysret sysnum => processSysret env clock stop sysnum
  | .breakpoint brkAddr => processBreakpoint env clock stop brkAddr

/-! ## `wait_for_something.c` -/

/-- Whether the stop is the exit of the system call on top of the stack. -/
def sysretP (stop : Stop) : Handler Bool := do
  let depth ← callstackDepth
  if 0 < depth then do
    let elem ← element (depth - 1)
    if elem.elem.isSyscall then do
      let elem ← element (depth - 1)
      pure (elem.elem.cUn = .syscall stop.origEax)
    else pure false
  else pure false

/-- `syscall_p`. -/
def syscallP (stop : Stop) : Handler Nat :=
  if stop.status = .stopped sigtrap then do
    let sysret ← sysretP stop
    pure (if sysret then 2 else if 0 ≤ stop.origEax then 1 else 0)
  else pure 0

/-- The part of `wait_for_something` after `syscall_p` found no system call. -/
def waitStatus (stop : Stop) : Handler Event :=
  match stop.status with
  | .exited retVal => pure (.exit retVal)
  | .signaled signum => pure (.exitSignal signum)
  | .other => pure .unknown
  | .stopped signum =>
    if signum ≠ sigtrap then pure (.signal signum)
    else do
      let s ← get
      let eip := if s.thr.instructionPointer = 0 then stop.eip else s.thr.instructionPointer
      modify fun s => { s with thr := { s.thr with instructionPointer := eip } }
      pure (.breakpoint (eip - decrPcAfterBreak))

/-- The part of `wait_for_something` from `syscall_p` on. -/
def waitSyscall (stop : Stop) : Handler Event := do
  let kind ← syscallP stop
  match kind with
  | 1 => pure (.syscall stop.origEax)
  | 2 => pure (.sysret stop.origEax)
  | _ => waitStatus stop

/-- `wait_for_something`, from the point where the process and the thread are found. -/
def waitForSomething (stop : Stop) : Handler Event := do
  modify fun s => { s with thr := { s.thr with instructionPointer := 0 } }
  let s ← get
  if s.tracee.proc.breakpointsEnabled = -1 then do
    setTracee enableAllBreakpoints
    pure .none
  else do
    modify fun s => if env.opti then { s with thr := { s.thr with instructionPointer := stop.eip } }
      else s
    waitSyscall stop

/-- One turn of the main loop. -/
def handle (stop : Stop) : Handler Unit := do
  let event ← waitForSomething env stop
  processEvent env clock stop event

end RawStack

/-! ## `output.c` -/

/-- The stores of `add_prefix_space` into its buffer `spaces`, in order: the index and the
character of each. -/
def prefixStores (depth : Int) (isLeft : Bool) : List (Int × Char) :=
  let i := if depth > maxCalldepth then (maxCalldepth : Int) else depth
  let text := (if isLeft then '+' else '-') :: '[' :: padded ' ' 2 (signed depth) ++ [']', '\x00']
  (List.range (maxCalldepth + 2 + 2 + 2)).map (fun k : Nat => ((k : Int), ' ')) ++
    text.zipIdx.map fun c : Char × Nat => (i + c.2, c.1)

end Utrace
