import Utrace.Core.View
import Utrace.Interpretation.Effect

/-!
# What an event sees

What is done to a process and to the thread that stopped, and what the trace says of its threads,
does not depend on the rest of the trace, nor on the index of the slot and the address the thread
record keeps: they are written before they are read, or never read. Whether a result joins the
line of its call does depend on the rest of the trace.
-/

namespace Utrace

/-- The record of a thread without the index of its slot and without the address it stopped at. -/
def Thread.bare (thr : Thread) : Thread := { thr with childIdx := 0, instructionPointer := 0 }

/-! ## What the trace says of some threads -/

/-- A record without the mark of a result that starts a line of its own. -/
def Record.plain : Record → Record
  | .right tid _ depth name => .right tid none depth name
  | r => r

/-- The records written for a thread. -/
def Output.plainLog (o : Output) (tid : Pid) : List Record := (o.log tid).map Record.plain

/-- The records written for each of some threads. -/
def Output.plainLogs (own : Set Pid) (o : Output) (tid : own) : List Record := o.plainLog tid

section
variable {own : Set Pid} {o o' : Output} {thr thr' : Thread}

/-- Equal records of a thread are equal but for where a result is joined. -/
theorem plainLog_of_log {tid : Pid} (h : o.log tid = o'.log tid) :
    o.plainLog tid = o'.plainLog tid := by
  rw [Output.plainLog, h, Output.plainLog]

/-- A diagnosis adds the same to the records of the threads. -/
theorem plainLogs_outputLine (env : Env) (hlog : o.plainLogs own = o'.plainLogs own)
    (htid : thr.tid = thr'.tid) (diag : Diag) :
    (outputLine env o thr diag).plainLogs own = (outputLine env o' thr' diag).plainLogs own := by
  ext tid : 1
  have htail : o.plainLog tid = o'.plainLog tid := congrFun hlog tid
  unfold Output.plainLogs Output.plainLog at *
  rw [log_outputLine, log_outputLine, htid]
  split
  · rw [List.map_cons, htail, List.map_cons]
  · exact htail

/-- An entered call adds the same to the records of the threads. -/
theorem plainLogs_outputLeft (env : Env) (hlog : o.plainLogs own = o'.plainLogs own)
    (htid : thr.tid = thr'.tid) (hdepth : thr.callstack.depth = thr'.callstack.depth)
    (name : String) :
    (outputLeft env o thr name).plainLogs own = (outputLeft env o' thr' name).plainLogs own := by
  ext tid : 1
  have htail : o.plainLog tid = o'.plainLog tid := congrFun hlog tid
  unfold Output.plainLogs Output.plainLog at *
  rw [log_outputLeft, log_outputLeft, htid, hdepth]
  split
  · rw [List.map_cons, htail, List.map_cons]
  · exact htail

/-- So does a returned one, whatever line is open. -/
theorem plainLogs_outputRight (env : Env) (hlog : o.plainLogs own = o'.plainLogs own)
    (htid : thr.tid = thr'.tid) (hdepth : thr.callstack.depth = thr'.callstack.depth)
    (name : String) :
    (outputRight env o thr name).plainLogs own = (outputRight env o' thr' name).plainLogs own := by
  ext tid : 1
  have htail : o.plainLog tid = o'.plainLog tid := congrFun hlog tid
  obtain ⟨resumed, hright⟩ := log_outputRight env o thr name tid
  obtain ⟨resumed', hright'⟩ := log_outputRight env o' thr' name tid
  unfold Output.plainLogs Output.plainLog at *
  rw [hright, hright', htid, hdepth]
  split
  · rw [List.map_cons, htail, List.map_cons]
    rfl
  · exact htail

end

/-! ## The view of an event -/

/-- The process and the thread, and whether utrace goes on with them. -/
def Focus.core (f : Focus) : Tracee × Thread × Bool × Bool × Addr :=
  (f.tracee, f.thr.bare, f.listed, f.exiting, f.eip)

/-- The process and the thread, with what the trace says of some threads. -/
def Focus.view (own : Set Pid) (f : Focus) :
    (Tracee × Thread × Bool × Bool × Addr) × (own → List Record) :=
  (f.core, f.output.plainLogs own)

/-- What an event that writes nothing to the trace leaves alone. -/
def Focus.kept (f : Focus) : Bool × Output := (f.exiting, f.output)

/-- Another trace, other requests and calls, another index and another address. -/
def Focus.written (f : Focus) (output : Output) (requests : List (Pid × Request × Addr))
    (calls : List Call) (childIdx : BitVec 8) (ip : Addr) : Focus :=
  { f with
    thr := { f.thr with childIdx := childIdx, instructionPointer := ip }
    output := output, requests := requests, calls := calls }

/-- A state with the same core was written in the fields outside of it only. -/
theorem Focus.eq_written {f f' : Focus} (h : f.core = f'.core) :
    f' = f.written f'.output f'.requests f'.calls f'.thr.childIdx f'.thr.instructionPointer := by
  obtain ⟨tracee, ⟨tid, cs, ip, sp, ra, being, idx⟩, output, listed, exiting, eip, requests,
    calls⟩ := f
  obtain ⟨tracee', ⟨tid', cs', ip', sp', ra', being', idx'⟩, output', listed', exiting', eip',
    requests', calls'⟩ := f'
  simp only [Focus.core, Thread.bare, Prod.mk.injEq, Thread.mk.injEq] at h
  obtain ⟨rfl, ⟨rfl, rfl, -, rfl, rfl, rfl, -⟩, rfl, rfl, rfl⟩ := h
  rfl

/-- A view is told by the core and the records of the threads. -/
theorem Focus.view_eq {own : Set Pid} {f f' : Focus} (hcore : f.core = f'.core)
    (hlog : f.output.plainLogs own = f'.output.plainLogs own) : f.view own = f'.view own := by
  rw [Focus.view, hcore, hlog, Focus.view]

/-! ## What writes nothing to the trace -/

/-- A program that sees the process and the thread only, and writes nothing to the trace. -/
structure Quiet (h : Focus → Except Halt Focus) : Prop where
  sees : Sees Focus.core h
  kept : LeavesAlone Focus.kept h

namespace Quiet

variable {h h' : Focus → Except Halt Focus}

/-- Quiet handlers in sequence are quiet. -/
theorem bind (hh : Quiet h) (hh' : Quiet h') : Quiet fun f => (h f).bind h' :=
  ⟨hh.sees.bind hh'.sees, hh.kept.bind hh'.kept⟩

/-- A program that does the same whatever was written. -/
theorem of_written
    (hh : ∀ f output requests calls childIdx ip,
      (h (f.written output requests calls childIdx ip)).map Focus.core = (h f).map Focus.core)
    (hkept : LeavesAlone Focus.kept h) : Quiet h := by
  refine ⟨?_, hkept⟩
  intro f f' heq
  rw [Focus.eq_written heq, hh]

/-- A handler that always goes through is quiet if it keeps the core and what is kept. -/
theorem of_ok {g : Focus → Focus}
    (hcore : ∀ f output requests calls childIdx ip,
      (g (f.written output requests calls childIdx ip)).core = (g f).core)
    (hkept : ∀ f, (g f).kept = f.kept) : Quiet fun f => .ok (g f) :=
  of_written (fun f output requests calls childIdx ip =>
    congrArg Except.ok (hcore f output requests calls childIdx ip)) (LeavesAlone.of_ok hkept)

/-- A quiet handler leaves the flag of the exit alone. -/
theorem exiting (hh : Quiet h) : LeavesAlone Focus.exiting h :=
  fun _ _ hs => congrArg Prod.fst (hh.kept hs)

/-- A quiet handler sees only what the view shows. -/
theorem view (hh : Quiet h) (own : Set Pid) : Sees (Focus.view own) h := by
  intro f f' heq
  have hcore : f.core = f'.core := congrArg Prod.fst heq
  have hlog : f.output.plainLogs own = f'.output.plainLogs own := congrArg Prod.snd heq
  cases hs : h f with
  | error halt =>
    have hboth := hh.sees hcore
    rw [hs] at hboth
    cases hs' : h f' with
    | error halt' =>
      rw [hs'] at hboth
      cases hboth
      rfl
    | ok t' =>
      rw [hs'] at hboth
      cases hboth
  | ok t =>
    obtain ⟨t', hs', hend⟩ := hh.sees.exists_ok hcore hs
    have houtput : t.output = f.output := congrArg Prod.snd (hh.kept hs)
    have houtput' : t'.output = f'.output := congrArg Prod.snd (hh.kept hs')
    rw [hs']
    apply congrArg Except.ok
    apply Focus.view_eq hend
    rw [houtput, houtput', hlog]

variable (env : Env) (stop : Stop)

/-- The exit of `fork` is quiet. -/
theorem sysretFork (n : Int) : Quiet fun f => Utrace.sysretFork env f stop n := by
  have hwild : ∀ f : Focus, ∀ calls, ∀ output requests calls' childIdx ip,
      (enableAllBreakpointsThread
        { f.written output requests calls' childIdx ip with calls := calls }).map Focus.core =
      (enableAllBreakpointsThread f).map Focus.core := by
    intro f calls output requests calls' childIdx ip
    unfold enableAllBreakpointsThread
    dsimp only [Focus.written]
    cases f.thr.callstack.elems.getLast? with
    | none => rfl
    | some elem =>
      dsimp only
      by_cases hwild : elem.returnAddr.toInt ≤ 0 ∧ elem.isSyscall = true
      · rw [if_pos hwild, if_pos hwild]
      · rw [if_neg hwild, if_neg hwild]
        rfl
  apply of_written
  · intro f output requests calls childIdx ip
    unfold Utrace.sysretFork
    by_cases hfork : forkP n = true ∧ env.optf = true
    · rw [if_pos hfork, if_pos hfork]
      by_cases heax : 0 < stop.eax
      · rw [if_pos heax, if_pos heax]
        exact hwild { f with calls := .openPid stop.eax :: f.calls } _ output requests calls
          childIdx ip
      · rw [if_neg heax, if_neg heax]
        exact hwild f calls output requests calls childIdx ip
    · rw [if_neg hfork, if_neg hfork]
      rfl
  · intro f f' h
    simp only [Utrace.sysretFork, enableAllBreakpointsThread] at h
    split at h
    · split at h
      · cases h
        split <;> rfl
      · split at h
        · cases h
        · cases h
          split <;> rfl
    · cases h
      rfl

/-- The exit of `clone` is quiet. -/
theorem sysretClone (n : Int) : Quiet fun f => .ok (Utrace.sysretClone env f stop n) := by
  apply of_ok
  · intro f output requests calls childIdx ip
    unfold Utrace.sysretClone
    by_cases hclone : cloneP n = true ∧ env.optf = true
    · rw [if_pos hclone, if_pos hclone]
      rfl
    · rw [if_neg hclone, if_neg hclone]
      rfl
  · intro f
    unfold Utrace.sysretClone
    split <;> rfl

/-- The exit of `execve` is quiet. -/
theorem sysretExec (n : Int) : Quiet fun f => .ok (Utrace.sysretExec env f stop n) := by
  apply of_ok
  · intro f output requests calls childIdx ip
    unfold Utrace.sysretExec
    by_cases hexec : execP n = true ∧ stop.eax = 0
    · rw [if_pos hexec, if_pos hexec]
      rfl
    · rw [if_neg hexec, if_neg hexec]
      rfl
  · intro f
    unfold Utrace.sysretExec
    split <;> rfl

/-- Popping an element is quiet. -/
theorem callstackPop : Quiet fun f => Utrace.callstackPop env f := by
  apply of_written
  · intro f output requests calls childIdx ip
    unfold Utrace.callstackPop
    dsimp only [Focus.written]
    cases f.thr.callstack.elems with
    | nil => rfl
    | cons elem rest =>
      dsimp only
      cases elem.isSyscall with
      | true => rfl
      | false => cases deleteBreakpoint env f.tracee elem.returnAddr <;> rfl
  · intro f f' h
    rw [(callstackPop_ok h).focus]
    rfl

/-- Popping elements is quiet. -/
theorem callstackPops (n : Nat) : Quiet fun f => Utrace.callstackPops env f n := by
  induction n with
  | zero => exact of_ok (fun _ _ _ _ _ _ => rfl) fun _ => rfl
  | succ n ih => exact (callstackPop env).bind ih

/-- Pushing a call is quiet. -/
theorem callstackPushSymfunc (sym : LibrarySymbol) :
    Quiet fun f => .ok (Utrace.callstackPushSymfunc f sym) := by
  apply of_ok
  · intro f output requests calls childIdx ip
    unfold Utrace.callstackPushSymfunc
    by_cases hfull : f.thr.callstack.depth = maxCalldepth - 1
    · have hwritten : (f.written output requests calls childIdx ip).thr.callstack.depth =
          maxCalldepth - 1 := hfull
      rw [if_pos hfull, if_pos hwritten]
      rfl
    · have hwritten : ¬((f.written output requests calls childIdx ip).thr.callstack.depth =
          maxCalldepth - 1) := hfull
      rw [if_neg hfull, if_neg hwritten]
      rfl
  · intro f
    unfold Utrace.callstackPushSymfunc
    split <;> rfl

/-- Going on after a breakpoint is quiet. -/
theorem continueAfterBreakpointAt (addr : Addr) :
    Quiet fun f => Utrace.continueAfterBreakpointAt env f addr := by
  apply of_written
  · intro f output requests calls childIdx ip
    unfold Utrace.continueAfterBreakpointAt
    dsimp only [Focus.written]
    cases address2bpstruct f.tracee addr with
    | error halt => rfl
    | ok found =>
      cases found with
      | none => rfl
      | some sbp =>
        dsimp only [Except.bind, continueAfterBreakpoint]
        by_cases hz : sbp.enabled = 0
        · simp only [hz, ne_eq, not_true_eq_false, if_false, if_true]
          rfl
        · simp only [hz, ne_eq, not_false_eq_true, if_true, if_false]
          rfl
  · intro f f' h
    simp only [Utrace.continueAfterBreakpointAt] at h
    cases hentry : address2bpstruct f.tracee addr with
    | error halt =>
      rw [hentry] at h
      cases h
    | ok found =>
      rw [hentry] at h
      cases found with
      | none => cases h
      | some sbp =>
        simp only [Except.bind, continueAfterBreakpoint] at h
        by_cases hz : sbp.enabled = 0
        · simp only [hz, ne_eq, not_true_eq_false, if_false, if_true, Except.ok.injEq] at h
          subst h
          rfl
        · simp only [hz, ne_eq, not_false_eq_true, if_true, if_false, Except.ok.injEq] at h
          subst h
          rfl

/-- Resuming the process is quiet. -/
theorem continueProcess : Quiet fun f => .ok (Utrace.continueProcess f f.thr.tid) :=
  of_ok (fun _ _ _ _ _ _ => rfl) fun _ => rfl

end Quiet

/-! ## The handlers -/

variable {own : Set Pid}

/-- A program sees the view if it does the same whatever was written for other threads. -/
theorem sees_of_written {h : Focus → Except Halt Focus}
    (hh : ∀ f output requests calls childIdx ip, output.plainLogs own = f.output.plainLogs own →
      (h (f.written output requests calls childIdx ip)).map (Focus.view own) =
        (h f).map (Focus.view own)) :
    Sees (Focus.view own) h := by
  intro f f' heq
  have hcore : f.core = f'.core := congrArg Prod.fst heq
  have hlog : f.output.plainLogs own = f'.output.plainLogs own := congrArg Prod.snd heq
  rw [Focus.eq_written hcore, hh f _ _ _ _ _ hlog.symm]

namespace Sees

variable (env : Env) (stop : Stop)

/-- A handler that always goes through sees only the view if its core and its records are told by
it. -/
theorem of_plain {g : Focus → Focus}
    (hcore : ∀ f output requests calls childIdx ip,
      (g (f.written output requests calls childIdx ip)).core = (g f).core)
    (hlog : ∀ f output requests calls childIdx ip,
      output.plainLogs own = f.output.plainLogs own →
        (g (f.written output requests calls childIdx ip)).output.plainLogs own =
          (g f).output.plainLogs own) :
    Sees (ε := Halt) (Focus.view own) fun f => .ok (g f) := by
  apply sees_of_written
  intro f output requests calls childIdx ip hsame
  apply congrArg Except.ok
  exact Focus.view_eq (hcore f output requests calls childIdx ip)
    (hlog f output requests calls childIdx ip hsame)

/-- `process_signal` sees only the view. -/
theorem processSignal (signum : Int) :
    Sees (ε := Halt) (Focus.view own) fun f => .ok (Utrace.processSignal env f signum) := by
  apply sees_of_written
  intro f output requests calls childIdx ip hlog
  apply congrArg Except.ok
  unfold Utrace.processSignal
  by_cases hexiting : f.exiting = true ∧ signum = sigstop
  · have hwritten : (f.written output requests calls childIdx ip).exiting = true ∧
        signum = sigstop := hexiting
    rw [if_pos hexiting, if_pos hwritten]
    exact Focus.view_eq rfl hlog
  · have hwritten : ¬((f.written output requests calls childIdx ip).exiting = true ∧
        signum = sigstop) := hexiting
    rw [if_neg hexiting, if_neg hwritten]
    exact Focus.view_eq rfl (plainLogs_outputLine env hlog rfl _)

/-- `process_syscall` sees only the view. -/
theorem processSyscall (n : Int) :
    Sees (ε := Halt) (Focus.view own) fun f => .ok (Utrace.processSyscall env f n) := by
  apply of_plain
  · intro f output requests calls childIdx ip
    rw [processSyscall_eq, processSyscall_eq]
    dsimp only [Focus.written]
    cases execP n <;> rfl
  · intro f output requests calls childIdx ip hlog
    rw [processSyscall_eq, processSyscall_eq]
    change (if env.optS then _ else _ : Output).plainLogs own =
      (if env.optS then _ else _ : Output).plainLogs own
    cases env.optS with
    | true => exact plainLogs_outputLeft env hlog rfl rfl _
    | false => exact hlog

/-! ## A trap -/

/-- The last pop of a return, and what follows. -/
def returned (env : Env) (brk : Addr) (elem : Option CallstackElement) (f : Focus) :
    Except Halt Focus :=
  (Utrace.callstackPop env f).bind fun f =>
    match elem.map CallstackElement.cUn with
    | some (.libfunc sym) => Utrace.continueAfterBreakpointAt env { f with
        thr := { f.thr with returnAddr := brk }
        output := outputRight env f.output { f.thr with returnAddr := brk } sym.name } brk
    | _ => .error .wildPointer

/-- Equal views have equal call stacks. -/
theorem elems_of_view {f f' : Focus} (h : f.view own = f'.view own) :
    f.thr.callstack.elems = f'.thr.callstack.elems := by
  have hcore : f.core = f'.core := congrArg Prod.fst h
  rw [Focus.eq_written hcore]
  rfl

/-- A return trap sees only the view. -/
theorem processReturn (brk : Addr) (n : Nat) :
    Sees (Focus.view own) fun f => Utrace.processReturn env f brk n := by
  have hreturned : ∀ elem, Sees (Focus.view own) (returned env brk elem) := by
    intro elem
    apply ((Quiet.callstackPop env).view own).bind
    cases elem.map CallstackElement.cUn with
    | none => exact fun _ _ _ => rfl
    | some cUn =>
      cases cUn with
      | syscall n => exact fun _ _ _ => rfl
      | libfunc sym =>
        have hwrite : Sees (ε := Halt) (Focus.view own) fun f => .ok { f with
            thr := { f.thr with returnAddr := brk }
            output := outputRight env f.output { f.thr with returnAddr := brk } sym.name } :=
          of_plain (fun _ _ _ _ _ _ => rfl) fun _ _ _ _ _ _ hlog =>
            plainLogs_outputRight env hlog rfl rfl _
        exact hwrite.bind ((Quiet.continueAfterBreakpointAt env brk).view own)
  have hlast : Sees (Focus.view own) fun f => returned env brk f.thr.callstack.elems.head? f :=
    of_eq hreturned fun _ _ heq => congrArg List.head? (elems_of_view heq)
  exact ((Quiet.callstackPops env n).view own).bind hlast

/-- An entry trap sees only the view. -/
theorem processEntry (sym : LibrarySymbol) :
    Sees (Focus.view own) fun f => Utrace.processEntry env f stop sym := by
  have hwrite : Sees (ε := Halt) (Focus.view own) fun f => .ok { f with
      thr := { f.thr with stackPointer := stop.uesp, returnAddr := stop.stackTop }
      output := outputLeft env f.output
        { f.thr with stackPointer := stop.uesp, returnAddr := stop.stackTop } sym.name } :=
    of_plain (fun _ _ _ _ _ _ => rfl) fun _ _ _ _ _ _ hlog =>
      plainLogs_outputLeft env hlog rfl rfl _
  have hall := hwrite.bind (((Quiet.callstackPushSymfunc sym).bind
    (Quiet.continueAfterBreakpointAt env sym.enterAddr)).view own)
  exact hall

/-- `process_breakpoint` sees only the view. -/
theorem processBreakpoint (brk : Addr) :
    Sees (Focus.view own) fun f => Utrace.processBreakpoint env f stop brk := by
  apply sees_of_written
  intro f output requests calls childIdx ip hlog
  have hview : (f.written output requests calls childIdx ip).view own = f.view own :=
    Focus.view_eq rfl hlog
  unfold Utrace.processBreakpoint
  have hbeing : (f.written output requests calls childIdx ip).thr.breakpointBeingEnabled =
      f.thr.breakpointBeingEnabled := rfl
  rw [hbeing]
  cases f.thr.breakpointBeingEnabled with
  | some addr => exact congrArg Except.ok (Focus.view_eq rfl hlog)
  | none =>
    have hreturning : (f.written output requests calls childIdx ip).thr.callstack.returning brk =
        f.thr.callstack.returning brk := rfl
    dsimp only
    rw [hreturning]
    cases f.thr.callstack.returning brk with
    | some n => exact processReturn env brk n hview
    | none =>
      have hsymbol : symbolAt (f.written output requests calls childIdx ip).tracee.proc brk =
          symbolAt f.tracee.proc brk := rfl
      dsimp only
      rw [hsymbol]
      cases symbolAt f.tracee.proc brk with
      | some sym => exact processEntry env stop sym hview
      | none =>
        exact congrArg Except.ok (Focus.view_eq rfl (plainLogs_outputLine env hlog rfl _))

/-! ## One turn of the main loop -/

/-- The branches of `process_sysret` one after the other. -/
theorem processSysret_eq (f : Focus) (n : Int) :
    Utrace.processSysret env f stop n = (Utrace.sysretFork env f stop n).bind
      fun f => (Except.ok (Utrace.sysretClone env f stop n)).bind fun f =>
        (if execP n then .ok f else Utrace.callstackPop env f).bind fun f =>
          (Except.ok (if env.optS then
            { f with output := outputRight env f.output f.thr (sysname env.syscalent0 n) }
            else f)).bind fun f => (Except.ok (Utrace.sysretExec env f stop n)).bind fun f =>
              .ok (continueProcess f f.thr.tid) :=
  rfl

/-- `process_sysret` sees only the view. -/
theorem processSysret (n : Int) :
    Sees (Focus.view own) fun f => Utrace.processSysret env f stop n := by
  have hpop : Quiet fun f : Focus => if execP n then .ok f else Utrace.callstackPop env f := by
    cases execP n with
    | true => exact Quiet.of_ok (fun _ _ _ _ _ _ => rfl) fun _ => rfl
    | false => exact Quiet.callstackPop env
  have hwrite : Sees (ε := Halt) (Focus.view own) fun f => .ok (if env.optS then
      { f with output := outputRight env f.output f.thr (sysname env.syscalent0 n) } else f) := by
    cases env.optS with
    | true =>
      exact of_plain (fun _ _ _ _ _ _ => rfl) fun _ _ _ _ _ _ hlog =>
        plainLogs_outputRight env hlog rfl rfl _
    | false => exact of_ok fun _ _ heq => heq
  have hall := ((Quiet.sysretFork env stop n).view own).bind
    (((Quiet.sysretClone env stop n).view own).bind ((hpop.view own).bind
      (hwrite.bind (((Quiet.sysretExec env stop n).bind Quiet.continueProcess).view own))))
  intro f f' heq
  dsimp only
  rw [processSysret_eq, processSysret_eq]
  exact hall heq

/-- Every event is processed on the view alone. -/
theorem processEvent (event : Event) :
    Sees (Focus.view own) fun f => Utrace.processEvent env f stop event := by
  cases event with
  | unknown => exact fun _ _ _ => rfl
  | none => exact of_ok fun _ _ heq => heq
  | signal signum => exact processSignal env signum
  | exit retVal => exact of_plain (fun _ _ _ _ _ _ => rfl) fun _ _ _ _ _ _ hlog =>
      plainLogs_outputLine env hlog rfl _
  | exitSignal signum => exact of_plain (fun _ _ _ _ _ _ => rfl) fun _ _ _ _ _ _ hlog =>
      plainLogs_outputLine env hlog rfl _
  | syscall n => exact processSyscall env n
  | sysret n => exact processSysret env stop n
  | breakpoint brk => exact processBreakpoint env stop brk

/-! ## One turn of the main loop, from the wait on -/

/-- Whatever is outside of the core, the status of a stop is read alike. -/
theorem waitStatus_written (f : Focus) (output : Output) (requests : List (Pid × Request × Addr))
    (calls : List Call) (childIdx : BitVec 8) :
    (waitStatus (f.written output requests calls childIdx f.thr.instructionPointer) stop).1.core =
        (waitStatus f stop).1.core ∧
      (waitStatus (f.written output requests calls childIdx f.thr.instructionPointer) stop).2 =
        (waitStatus f stop).2 := by
  unfold waitStatus
  cases stop.status with
  | exited _ => exact ⟨rfl, rfl⟩
  | signaled _ => exact ⟨rfl, rfl⟩
  | other => exact ⟨rfl, rfl⟩
  | stopped signum =>
    dsimp only
    by_cases htrap : signum ≠ sigtrap
    · rw [if_pos htrap, if_pos htrap]
      exact ⟨rfl, rfl⟩
    · rw [if_neg htrap, if_neg htrap]
      exact ⟨rfl, rfl⟩

/-- Whatever is outside of the core, a system call stop is told alike. -/
theorem waitSyscall_written (f : Focus) (output : Output) (requests : List (Pid × Request × Addr))
    (calls : List Call) (childIdx : BitVec 8) :
    (waitSyscall (f.written output requests calls childIdx f.thr.instructionPointer) stop).1.core =
        (waitSyscall f stop).1.core ∧
      (waitSyscall (f.written output requests calls childIdx f.thr.instructionPointer) stop).2 =
        (waitSyscall f stop).2 := by
  have hsyscall :
      syscallP (f.written output requests calls childIdx f.thr.instructionPointer).thr stop =
        syscallP f.thr stop := rfl
  unfold waitSyscall
  rw [hsyscall]
  split
  · exact ⟨rfl, rfl⟩
  · exact ⟨rfl, rfl⟩
  · exact waitStatus_written stop f output requests calls childIdx

/-- The address a thread stopped at is set before it is read. -/
theorem waitForSomething_written (f : Focus) (output : Output)
    (requests : List (Pid × Request × Addr)) (calls : List Call) (childIdx : BitVec 8)
    (ip : Addr) :
    (waitForSomething env (f.written output requests calls childIdx ip) stop).1.core =
        (waitForSomething env f stop).1.core ∧
      (waitForSomething env (f.written output requests calls childIdx ip) stop).2 =
        (waitForSomething env f stop).2 := by
  by_cases hbe : f.tracee.proc.breakpointsEnabled = -1
  · have hwritten :
        (f.written output requests calls childIdx ip).tracee.proc.breakpointsEnabled = -1 := hbe
    rw [waitForSomething_first hbe, waitForSomething_first hwritten]
    exact ⟨rfl, rfl⟩
  · have hwritten :
        ¬(f.written output requests calls childIdx ip).tracee.proc.breakpointsEnabled = -1 := hbe
    have hnext : ∃ last, waitForSomething env f stop = waitSyscall (f.withIp last) stop ∧
        waitForSomething env (f.written output requests calls childIdx ip) stop =
          waitSyscall ((f.withIp last).written output requests calls childIdx last) stop := by
      unfold waitForSomething
      simp only [if_neg hbe, if_neg hwritten]
      cases env.opti with
      | true => exact ⟨f.eip, rfl, rfl⟩
      | false => exact ⟨0, rfl, rfl⟩
    obtain ⟨last, hplain, hother⟩ := hnext
    rw [hplain, hother]
    exact waitSyscall_written stop (f.withIp last) output requests calls childIdx

/-- Classifying an event prints nothing. -/
theorem output_waitForSomething (f : Focus) :
    (waitForSomething env f stop).1.output = f.output := by
  by_cases hbe : f.tracee.proc.breakpointsEnabled = -1
  · rw [waitForSomething_first hbe]
    rfl
  · obtain ⟨ip, hwait⟩ := waitForSomething_eq env stop hbe
    rw [hwait]
    rfl

/-- States with equal views classify a stop alike. -/
theorem waitForSomething_view {f f' : Focus} (heq : f.view own = f'.view own) :
    (waitForSomething env f stop).2 = (waitForSomething env f' stop).2 := by
  have hcore : f.core = f'.core := congrArg Prod.fst heq
  rw [Focus.eq_written hcore]
  exact (waitForSomething_written env stop f _ _ _ _ _).2.symm

/-- A whole event sees only the view. -/
theorem handle : Sees (Focus.view own) fun f => Utrace.handle env f stop := by
  apply sees_of_written
  intro f output requests calls childIdx ip hlog
  obtain ⟨hcore, hevent⟩ := waitForSomething_written env stop f output requests calls childIdx ip
  unfold Utrace.handle
  dsimp only
  rw [hevent]
  apply processEvent env stop
  apply Focus.view_eq hcore
  rw [output_waitForSomething, output_waitForSomething]
  exact hlog

end Sees

/-! ## No event changes whether utrace is exiting -/

namespace LeavesAlone

variable (env : Env) (stop : Stop)

/-- `process_sysret` leaves the flag of the exit alone. -/
theorem exiting_processSysret (n : Int) :
    LeavesAlone Focus.exiting fun f => processSysret env f stop n := by
  have hpop : LeavesAlone Focus.exiting fun f : Focus =>
      if execP n then .ok f else callstackPop env f := by
    cases execP n with
    | true => exact of_ok fun _ => rfl
    | false => exact (Quiet.callstackPop env).exiting
  have hwrite : LeavesAlone (ε := Halt) Focus.exiting fun f => .ok (if env.optS then
      { f with output := outputRight env f.output f.thr (sysname env.syscalent0 n) } else f) := by
    apply of_ok
    intro f
    split <;> rfl
  exact (Quiet.sysretFork env stop n).exiting.bind
    ((Quiet.sysretClone env stop n).exiting.bind (hpop.bind
      (hwrite.bind ((Quiet.sysretExec env stop n).bind Quiet.continueProcess).exiting)))

/-- A return trap leaves it alone. -/
theorem exiting_processReturn (brk : Addr) (n : Nat) :
    LeavesAlone Focus.exiting fun f => processReturn env f brk n := by
  intro f f' h
  obtain ⟨f₂, sym, hpopped, -, hcontinue⟩ := processReturn_ok h
  have hexiting : f₂.exiting = f.exiting := by rw [hpopped.focus]
  have hcontinued := (Quiet.continueAfterBreakpointAt env brk).exiting hcontinue
  exact hcontinued.trans hexiting

/-- An entry trap leaves it alone. -/
theorem exiting_processEntry (sym : LibrarySymbol) :
    LeavesAlone Focus.exiting fun f => processEntry env f stop sym := by
  intro f f' h
  have hrest := ((Quiet.callstackPushSymfunc sym).bind
    (Quiet.continueAfterBreakpointAt env sym.enterAddr)).exiting
  exact hrest (s := { f with
    thr := { f.thr with stackPointer := stop.uesp, returnAddr := stop.stackTop }
    output := outputLeft env f.output
      { f.thr with stackPointer := stop.uesp, returnAddr := stop.stackTop } sym.name }) h

/-- `process_breakpoint` leaves it alone. -/
theorem exiting_processBreakpoint (brk : Addr) :
    LeavesAlone Focus.exiting fun f => processBreakpoint env f stop brk := by
  intro f f' h
  simp only [processBreakpoint] at h
  split at h
  · cases h
    rfl
  · split at h
    · exact exiting_processReturn env brk _ h
    · split at h
      · exact exiting_processEntry env stop _ h
      · cases h
        rfl

/-- A whole event leaves it alone. -/
theorem exiting_handle : LeavesAlone Focus.exiting fun f => handle env f stop := by
  intro f f' h
  cases handle_cases h with
  | first _ h => rw [h]; rfl
  | syscall ip _ _ _ h =>
    rw [h, processSyscall_eq]
    rfl
  | sysret ip _ _ _ h => exact exiting_processSysret env stop stop.origEax (s := f.withIp ip) h
  | exit ip _ _ _ _ h => rw [h]; rfl
  | exitSignal ip _ _ _ _ h => rw [h]; rfl
  | signal ip _ signum _ _ _ h =>
    rw [h]
    unfold processSignal
    split <;> rfl
  | breakpoint ip _ _ _ _ h => exact exiting_processBreakpoint env stop _ (s := f.withIp ip) h

end LeavesAlone

end Utrace
