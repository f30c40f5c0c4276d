import Utrace.Native.System
import Utrace.Native.Tracer

/-!
# A whole session: `main`, `signal_exit`, `normal_exit`

Processes are started or attached to, then one turn of the main loop follows another until
utrace ends. Between the turns the processes run and may write to their own memory. A
process that was taken off the list while some of its threads live on is still traced by
the kernel, and is kept apart.
-/

namespace Utrace

/-- The tracer, and the processes off the list that are still attached. -/
structure Session where
  tracer : Tracer
  unlisted : List ProcNode

/-- What can happen next. -/
inductive Happening where
  /-- `execute_program(open_program(command), argv)`, with the pid of the child. -/
  | launch (filename : String) (pid : Pid) (mem : Addr → Byte)
  /-- `open_pid` for an option `-p`. -/
  | attach (w : Wait) (pid : Pid)
  /-- One turn of the main loop. Where it takes the process off the list, `survives` tells
  whether threads of it stay attached. -/
  | wait (w : Wait) (survives : Bool)
  /-- `signal_exit`. -/
  | interrupt
  /-- The process with the record at `addr` changes its memory. -/
  | store (addr : Nat) (mem : Addr → Byte)

/-- Replace the memory of the process with the record at an address. -/
def ProcNode.store (addr : Nat) (mem : Addr → Byte) (p : ProcNode) : ProcNode :=
  if p.addr = addr then { p with tracee := { p.tracee with mem := mem } } else p

/-- Storing text keeps the node's address. -/
@[simp] theorem ProcNode.addr_store (addr : Nat) (mem : Addr → Byte) (p : ProcNode) :
    (p.store addr mem).addr = p.addr := by
  unfold store
  split <;> rfl

/-- The processes of the list run on. -/
def Tracer.store (tr : Tracer) (addr : Nat) (mem : Addr → Byte) : Tracer :=
  { tr with
    procs := tr.procs.map (ProcNode.store addr mem)
    distinct := by
      have haddr : ProcNode.addr ∘ ProcNode.store addr mem = ProcNode.addr :=
        funext (ProcNode.addr_store addr mem)
      rw [List.map_map, haddr]
      exact tr.distinct
    below := by
      intro p hp
      obtain ⟨q, hq, rfl⟩ := List.mem_map.mp hp
      rw [ProcNode.addr_store]
      exact tr.below q hq }

namespace Session

/-- Nothing is traced yet. -/
def start : Session := ⟨.start, []⟩

/-- The processes the kernel has attached to utrace. -/
def attached (σ : Session) : List ProcNode := σ.tracer.procs ++ σ.unlisted

/-- One turn of the main loop. For every slot `get_proc` is taken to return the process it is in. -/
def turn (env : Env) (σ : Session) (w : Wait) (survives : Bool) : Except Halt Session :=
  (σ.tracer.lookup w).bind fun found =>
    (handle env (σ.tracer.focus w found.1 found.2) w.stop).bind fun f =>
      (makeCalls env w f.calls ({ σ.tracer with output := f.output }, found.1.table)).map fun s =>
        if f.listed then
          { σ with tracer := s.1.update found.1.addr f.tracee (s.2.write found.2 f.thr) }
        else
          { tracer := s.1.remove found.1.addr
            unlisted := if survives then { found.1 with tracee := f.tracee } :: σ.unlisted
              else σ.unlisted }

/-- One step. -/
def step (env : Env) (σ : Session) : Happening → Option Session
  | .launch filename pid mem =>
    some { σ with tracer := σ.tracer.add (openTracee env filename pid mem) .zeroed }
  | .attach w pid =>
    (openPid env σ.tracer w pid).toOption.map fun tracer => { σ with tracer := tracer }
  | .wait w survives => (σ.turn env w survives).toOption
  | .interrupt => some { σ with tracer := { σ.tracer with exiting := true } }
  | .store addr mem =>
    some { tracer := σ.tracer.store addr mem, unlisted := σ.unlisted.map (ProcNode.store addr mem) }

/-- `normal_exit`: `output_line(0, 0)`; the summary of `opt_c` is left out. -/
def normalExit (env : Env) (σ : Session) : Session :=
  if env.optc then σ else { σ with tracer := { σ.tracer with output := σ.tracer.output.close } }

/-- The turn in which utrace calls `exit`: its status, and what it leaves behind. Nothing was
done when no thread is found or the event is unknown; `reg_tid` in `process_sysret` comes
before the frame is popped. -/
def exits (env : Env) (σ : Session) (w : Wait) : Option (Int × Session) :=
  match σ.tracer.lookup w with
  | .error (.exit status) => some (status, σ.normalExit env)
  | .error _ => none
  | .ok (p, i) =>
    match handle env (σ.tracer.focus w p i) w.stop with
    | .error (.exit status) => some (status, σ.normalExit env)
    | .error _ => none
    | .ok f =>
      match makeCalls env w f.calls ({ σ.tracer with output := f.output }, p.table) with
      | .error (.exit status) =>
        some (status, normalExit env { σ with tracer := σ.tracer.update p.addr f.tracee p.table })
      | _ => none

/-- The tracer of a session goes through the turns of the main loop. -/
theorem turn_tracer (env : Env) (σ : Session) (w : Wait) (survives : Bool) :
    (σ.turn env w survives).map Session.tracer = σ.tracer.turn env w := by
  unfold turn Tracer.turn
  cases σ.tracer.lookup w with
  | error halt => rfl
  | ok found =>
    simp only [Except.bind]
    cases handle env (σ.tracer.focus w found.1 found.2) w.stop with
    | error halt => rfl
    | ok f =>
      simp only
      cases makeCalls env w f.calls ({ σ.tracer with output := f.output }, found.1.table) with
      | error halt => rfl
      | ok s =>
        simp only [Except.map]
        split <;> rfl

/-- utrace ends in exactly the turns that a call of `exit` stops. -/
theorem exits_iff (env : Env) (σ : Session) (w : Wait) (status : Int) :
    (∃ σ', σ.exits env w = some (status, σ')) ↔ σ.tracer.turn env w = .error (.exit status) := by
  unfold exits Tracer.turn
  cases σ.tracer.lookup w with
  | error halt => cases halt <;> simp [Except.bind]
  | ok found =>
    simp only [Except.bind]
    cases handle env (σ.tracer.focus w found.1 found.2) w.stop with
    | error halt => cases halt <;> simp
    | ok f =>
      simp only
      cases makeCalls env w f.calls ({ σ.tracer with output := f.output }, found.1.table) with
      | error halt => cases halt <;> simp [Except.map]
      | ok s => simp [Except.map]

end Session

end Utrace
