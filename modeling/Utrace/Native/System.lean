import Utrace.Core.Run
import Utrace.Native.Event

/-!
# One traced process and its threads

The state of utrace that concerns one process, with any number of threads, each in its
own slot. Three things happen to it: a thread stops and utrace handles the event, utrace
is asked to exit, or the process writes to its own memory. A process that has left
`list_of_processes` handles no further event, and a step is undefined where utrace
itself stops.
-/

namespace Utrace

/-- The process with its threads, and the globals the handlers use. -/
structure Sys (ι : Type*) where
  tracee : Tracee
  threads : ι → Thread
  output : Output := {}
  listed : Bool := true
  exiting : Bool := false
  calls : List Call := []

/-- What can happen next. -/
inductive Input (ι : Type*) where
  /-- A thread stops or ends, as the kernel reports it. -/
  | stop (i : ι) (stop : Stop)
  /-- `signal_exit`: utrace is asked to exit. -/
  | interrupt
  /-- The process changes its memory. -/
  | store (mem : Addr → Byte)

variable {ι : Type*} [DecidableEq ι]

namespace Sys

/-- The state as the event of one thread sees it. -/
def focus (s : Sys ι) (i : ι) (stop : Stop) : Focus where
  tracee := s.tracee
  thr := s.threads i
  output := s.output
  listed := s.listed
  exiting := s.exiting
  eip := stop.eip
  calls := s.calls

/-- The state after the event of one thread; the other slots are as they were. -/
def put (s : Sys ι) (i : ι) (f : Focus) : Sys ι where
  tracee := f.tracee
  threads := Function.update s.threads i f.thr
  output := f.output
  listed := f.listed
  exiting := f.exiting
  calls := f.calls

/-- One turn of the main loop for an event of thread `i`. -/
def event (env : Env) (s : Sys ι) (i : ι) (stop : Stop) : Except Halt Focus :=
  handle env (s.focus i stop) stop

/-- How `wait_for_something` classifies a stop of thread `i`. -/
def classify (env : Env) (s : Sys ι) (i : ι) (stop : Stop) : Event :=
  (waitForSomething env (s.focus i stop) stop).2

/-- One step. -/
def step (env : Env) (s : Sys ι) : Input ι → Option (Sys ι)
  | .stop i stop => if s.listed then (s.event env i stop).toOption.map (s.put i) else none
  | .interrupt => some { s with exiting := true }
  | .store mem => some { s with tracee := { s.tracee with mem := mem } }

/-- The state in which the first event is waited for: the process is opened, and each
thread owns a zero-filled slot with its tid. -/
def opened (env : Env) (filename : String) (pid : Pid) (mem : Addr → Byte) (tid : ι → Pid) :
    Sys ι where
  tracee := openTracee env filename pid mem
  threads i := { tid := tid i }

/-- The process writes none of its own text. -/
def KeepsText (text : Set Addr) (s : Sys ι) : Input ι → Prop
  | .store mem => ∀ a ∈ text, mem a = s.tracee.mem a
  | _ => True

/-- The exit stop of a `fork`, `vfork` or `execve`. -/
def forkOrExecExit (env : Env) (s : Sys ι) : Input ι → Bool
  | .stop i stop =>
    match s.classify env i stop with
    | .sysret n => forkP n || execP n
    | _ => false
  | _ => false

/-- What is there was returned. -/
theorem eq_ok_of_toOption {α : Type*} {e : Except Halt α} {a : α} (h : e.toOption = some a) :
    e = .ok a := by
  cases e with
  | error halt => cases h
  | ok b => exact congrArg Except.ok (Option.some.inj h)

omit [DecidableEq ι] in
/-- What is spared is no exit of `fork`, `vfork` or `execve`. -/
theorem sysret_of_forkOrExecExit {env : Env} {s : Sys ι} {i : ι} {stop : Stop} {n : Int}
    (h : s.forkOrExecExit env (.stop i stop) = false)
    (hclass : s.classify env i stop = .sysret n) : forkP n = false ∧ execP n = false := by
  simp only [forkOrExecExit, hclass] at h
  exact Bool.or_eq_false_iff.mp h

/-- A step on a stop is an event that was handled. -/
theorem step_stop_eq_some {env : Env} {s s' : Sys ι} {i : ι} {stop : Stop} :
    s.step env (.stop i stop) = some s' ↔
      s.listed = true ∧ ∃ f, s.event env i stop = .ok f ∧ s.put i f = s' := by
  simp only [step]
  cases hl : s.listed with
  | false => simp
  | true =>
    cases he : s.event env i stop with
    | error halt => simp [Except.toOption]
    | ok f => simp [Except.toOption]

/-- A thread is put back into its own slot. -/
@[simp] theorem threads_put_self (s : Sys ι) (i : ι) (f : Focus) :
    (s.put i f).threads i = f.thr := by
  unfold put
  exact Function.update_self ..

/-- The others stay. -/
theorem threads_put_of_ne (s : Sys ι) {i j : ι} (h : j ≠ i) (f : Focus) :
    (s.put i f).threads j = s.threads j := by
  unfold put
  exact Function.update_of_ne h ..

/-- Inputs other than writes of the process. -/
def noStore : Input ι → Bool
  | .store _ => false
  | _ => true

omit [DecidableEq ι] in
/-- A process that does not write keeps its text. -/
theorem keepsText_of_noStore (text : Set Addr) (s : Sys ι) (input : Input ι)
    (h : noStore input = true) : s.KeepsText text input := by
  cases input with
  | store mem => cases h
  | _ => trivial

end Sys

/-- The stop of a thread that executed a trap at an address, with the word on top of its
stack. -/
def trapStop (addr : Addr) (stackTop : Addr := 0) : Stop where
  status := .stopped sigtrap
  eip := addr + decrPcAfterBreak
  stackTop := stackTop

/-- A program of two functions, for the concrete runs below. -/
def twoFunctions : Env where
  optL := true
  readElf _ := [⟨"f", 0x1000⟩, ⟨"g", 0x2000⟩]

/-- The memory of that program: every byte is a `nop`. -/
def nops : Addr → Byte := fun _ => 0x90

end Utrace
