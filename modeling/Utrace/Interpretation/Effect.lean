import Utrace.Interpretation.Frames

/-!
# What one event can do

Every event that is handled is one of a few effects on the call stack of its thread, on
the cells of the process, and on the trace. The effects are read off the handlers once,
with the conditions each is reached under; invariants are proved from them alone.
-/

namespace Utrace

/-- `continue_after_breakpoint` on cells `c`: the thread stands on the breakpoint again,
with the trap lifted while a reference is left. -/
structure SteppedOff (env : Env) (c : Addr → Cell) (brk : Addr) (f' : Focus) : Prop where
  found : ∃ n, (c brk).count = some n
  cell : ∀ x, f'.tracee.cell x = if x = brk then (c brk).disable env.unset else c x
  being : f'.thr.breakpointBeingEnabled = if (c brk).refs = 0 then none else some brk
  eip : f'.eip = brk
  requests : f'.requests.head? =
    some (f'.thr.tid, if (c brk).refs = 0 then .syscall 0 else .singlestep, brk)

/-- The cells after the `n` innermost frames gave their references back. -/
def Focus.popCells (env : Env) (f : Focus) (n : Nat) (x : Addr) : Cell :=
  (Cell.delete env.unset)^[frameRefs (f.thr.callstack.elems.take n) x] (f.tracee.cell x)

/-- The cells after a call with a return address was pushed: at the depth limit they are as
they were. -/
def Focus.pushCells (f : Focus) (ret x : Addr) : Cell :=
  if f.thr.callstack.depth < maxCalldepth - 1 ∧ x = ret then
    (f.tracee.cell x).insert (decide (f.tracee.proc.pid ≠ 0))
  else f.tracee.cell x

/-- What `process_breakpoint` can do about a trap at `brk`. -/
inductive Hit (env : Env) (f : Focus) (stop : Stop) (brk : Addr) (f' : Focus) : Prop
  /-- The thread was being stepped over a breakpoint: its trap is planted again. -/
  | rearm (a : Addr) (hbeing : f.thr.breakpointBeingEnabled = some a)
      (htracee : f'.tracee = enableEntry f.tracee a)
      (hcallstack : f'.thr.callstack = f.thr.callstack)
      (hafter : f'.thr.breakpointBeingEnabled = none)
      (houtput : f'.output = f.output) (heip : f'.eip = f.eip)
      (hrequests : f'.requests.head? = some (f'.thr.tid, .syscall 0, f.eip))
  /-- A call returned to `brk`: its frame and those above it are popped. -/
  | ret (n : Nat) (sym : LibrarySymbol) (hbeing : f.thr.breakpointBeingEnabled = none)
      (hreturning : f.thr.callstack.returning brk = some n)
      (hsym : f.thr.callstack.elems[n]?.map CallstackElement.cUn = some (.libfunc sym))
      (hcallstack : f'.thr.callstack = Callstack.pop^[n + 1] f.thr.callstack)
      (hcounted : ∀ x,
        (frameRefs (f.thr.callstack.elems.take (n + 1)) x : Int) ≤ (f.tracee.cell x).refs ∨
          frameRefs (f.thr.callstack.elems.take (n + 1)) x = 0)
      (hoff : SteppedOff env (f.popCells env (n + 1)) brk f')
      (hheader : f'.tracee.header = f.tracee.header)
      (houtput : ∃ thr : Thread, f'.output = outputRight env f.output thr sym.name ∧
        thr.tid = f.thr.tid ∧ thr.callstack = f'.thr.callstack)
  /-- A traced function was entered: its call is pushed, unless the stack is full. -/
  | entry (sym : LibrarySymbol) (hbeing : f.thr.breakpointBeingEnabled = none)
      (hreturning : f.thr.callstack.returning brk = none)
      (hsym : symbolAt f.tracee.proc brk = some sym)
      (hcallstack : f'.thr.callstack = f.thr.callstack.push ⟨.libfunc sym, stop.stackTop⟩)
      (hoff : SteppedOff env (f.pushCells stop.stackTop) brk f')
      (hheader : f'.tracee.header = f.tracee.header)
      (houtput : ∃ thr : Thread, f'.output = outputLeft env f.output thr sym.name ∧
        thr.tid = f.thr.tid ∧ thr.callstack = f.thr.callstack)
  /-- The trap belongs to no frame and no symbol. -/
  | stray (hbeing : f.thr.breakpointBeingEnabled = none)
      (hreturning : f.thr.callstack.returning brk = none)
      (hsym : symbolAt f.tracee.proc brk = none)
      (htracee : f'.tracee = f.tracee) (hcallstack : f'.thr.callstack = f.thr.callstack)
      (hafter : f'.thr.breakpointBeingEnabled = none)
      (houtput : f'.output = outputLine env f.output f.thr (.breakpointed brk))
      (heip : f'.eip = f.eip)
      (hrequests : f'.requests.head? = some (f'.thr.tid, .syscall 0, f.eip))

/-- What one turn of the main loop can do. -/
inductive Effect (env : Env) (f : Focus) (stop : Stop) (f' : Focus) : Prop
  /-- The first event of the process plants every breakpoint. -/
  | first (hbe : f.tracee.proc.breakpointsEnabled = -1)
      (htracee : f'.tracee = enableAllBreakpoints f.tracee)
      (hcallstack : f'.thr.callstack = f.thr.callstack)
      (hbeing : f'.thr.breakpointBeingEnabled = f.thr.breakpointBeingEnabled)
      (houtput : f'.output = f.output)
  /-- A signal, or the end of the thread. -/
  | line (diag : Diag) (hbe : f.tracee.proc.breakpointsEnabled ≠ -1)
      (htracee : f'.tracee = f.tracee) (hcallstack : f'.thr.callstack = f.thr.callstack)
      (hbeing : f'.thr.breakpointBeingEnabled = f.thr.breakpointBeingEnabled)
      (houtput : f'.output = outputLine env f.output f.thr diag)
  /-- The stop utrace asked for when it is exiting. -/
  | detach (hbe : f.tracee.proc.breakpointsEnabled ≠ -1)
      (htracee : f'.tracee = disableAllBreakpoints env f.tracee)
      (hcallstack : f'.thr.callstack = f.thr.callstack)
      (hbeing : f'.thr.breakpointBeingEnabled = f.thr.breakpointBeingEnabled)
      (houtput : f'.output = f.output) (hlisted : f'.listed = false)
  /-- A stop taken for the entry of a system call. -/
  | syscall (n : Int) (hn : 0 ≤ n) (hbe : f.tracee.proc.breakpointsEnabled ≠ -1)
      (htracee : f.tracee.proc.breakpointsEnabled ≠ 0 → f'.tracee = f.tracee)
      (hcallstack : f'.thr.callstack =
        if execP n then f.thr.callstack else f.thr.callstack.push ⟨.syscall n, 0⟩)
      (hbeing : f'.thr.breakpointBeingEnabled = f.thr.breakpointBeingEnabled)
      (houtput : f'.output = if env.optS then
        outputLeft env f.output f.thr (sysname env.syscalent0 n) else f.output)
  /-- The exit of the system call on top of the stack; after a fork the record of the thread
  was written through as if it were a process record. -/
  | sysret (n : Int) (elem : CallstackElement) (rest : List CallstackElement)
      (hbe : f.tracee.proc.breakpointsEnabled ≠ -1)
      (hframes : f.thr.callstack.elems = elem :: rest) (hsys : elem.cUn = .syscall n)
      (hclass : (waitForSomething env f stop).2 = .sysret n) (hexec : execP n = false)
      (htracee : f'.tracee = f.tracee)
      (helems : f'.thr.callstack.elems = rest ∨ forkP n = true)
      (hcUn : f'.thr.callstack.elems.map CallstackElement.cUn = rest.map CallstackElement.cUn)
      (hbeing : f'.thr.breakpointBeingEnabled = f.thr.breakpointBeingEnabled)
      (houtput : ∃ thr : Thread, f'.output = (if env.optS then
          outputRight env f.output thr (sysname env.syscalent0 n) else f.output) ∧
        thr.tid = f.thr.tid ∧ thr.callstack = f'.thr.callstack)
  /-- The exit of an `execve` pushed on the stack. -/
  | exec (n : Int) (hexec : execP n = true)
      (hsys : f.thr.callstack.elems.head?.map CallstackElement.cUn = some (.syscall n))
  /-- A trap. -/
  | breakpoint (hbe : f.tracee.proc.breakpointsEnabled ≠ -1)
      (hit : Hit env f stop (f.eip - decrPcAfterBreak) f')
      (hclass : (waitForSomething env f stop).2 = .breakpoint (f.eip - decrPcAfterBreak))

/-! ## `continue_after_breakpoint` -/

/-- A successful `continue_after_breakpoint` on the entry just looked up. -/
theorem continueAfterBreakpoint_ok {env : Env} {f f' : Focus} {brk : Addr}
    (h : continueAfterBreakpointAt env f brk = .ok f')
    (hnone : f.thr.breakpointBeingEnabled = none) :
    SteppedOff env f.tracee.cell brk f' ∧ f'.tracee.header = f.tracee.header ∧
      f'.thr.callstack = f.thr.callstack ∧ f'.thr.tid = f.thr.tid ∧ f'.output = f.output ∧
      f'.listed = f.listed ∧ f'.calls = f.calls := by
  unfold continueAfterBreakpointAt at h
  cases hentry : f.tracee.entry brk with
  | none =>
    unfold address2bpstruct at h
    cases hd : f.tracee.proc.breakpoints with
    | none => simp [hd, Except.bind] at h
    | some d =>
      have hfind : d.find brk = none := by rwa [f.tracee.entry_eq_find hd] at hentry
      simp [hd, hfind, Except.bind, continueAfterBreakpoint] at h
  | some sbp =>
    have haddr := Tracee.addr_of_entry hentry
    have hcount : (f.tracee.cell brk).count = some sbp.enabled :=
      Tracee.count_cell_eq_some.mpr ⟨sbp, hentry, rfl⟩
    have hrefs : (f.tracee.cell brk).refs = sbp.enabled := by
      rw [Cell.refs, hcount, Option.getD_some]
    rw [address2bpstruct_of_entry hentry] at h
    simp only [Except.bind, continueAfterBreakpoint, haddr] at h
    by_cases hz : sbp.enabled = 0
    · simp only [hz, ne_eq, not_true_eq_false, if_false, if_true, Except.ok.injEq] at h
      subst h
      refine ⟨⟨⟨_, hcount⟩, ?_, ?_, rfl, ?_⟩, rfl, rfl, rfl, rfl, rfl, rfl⟩
      · intro x
        by_cases hx : x = brk <;> simp [hx, Cell.disable, hrefs, hz, continueProcess,
          continueAfterSignal, Focus.request]
      · simp [hrefs, hz, hnone, continueProcess, continueAfterSignal, Focus.request]
      · simp [hrefs, hz, continueProcess, continueAfterSignal, Focus.request]
    · simp only [hz, ne_eq, not_false_eq_true, if_true, if_false, Except.ok.injEq] at h
      subst h
      refine ⟨⟨⟨_, hcount⟩, ?_, ?_, rfl, ?_⟩, header_disableEntry .., rfl, rfl, rfl, rfl, rfl⟩
      · intro x
        change (disableEntry env f.tracee brk).cell x = _
        rw [cell_disableEntry]
        simp [Cell.disable, hrefs, hz]
      · simp [hrefs, hz, Focus.request]
      · simp [hrefs, hz, Focus.request]

/-- `continue_after_breakpoint` succeeds on an address that has an entry. -/
theorem continueAfterBreakpoint_exists (env : Env) {f : Focus} {brk : Addr} {n : Int}
    (h : (f.tracee.cell brk).count = some n) :
    ∃ f', continueAfterBreakpointAt env f brk = .ok f' := by
  unfold continueAfterBreakpointAt
  obtain ⟨sbp, hentry, _⟩ := Tracee.count_cell_eq_some.mp h
  rw [address2bpstruct_of_entry hentry]
  simp only [Except.bind, continueAfterBreakpoint]
  by_cases hz : sbp.enabled = 0
  · exact ⟨_, by rw [if_pos hz]⟩
  · exact ⟨_, by rw [if_neg hz]⟩

/-! ## `process_breakpoint` -/

/-- A return that is handled: its frames are popped, the innermost of which was pushed for a
function, and the thread goes on behind its result. -/
theorem processReturn_ok {env : Env} {f f' : Focus} {brk : Addr} {n : Nat}
    (h : processReturn env f brk n = .ok f') :
    ∃ (f₂ : Focus) (sym : LibrarySymbol), Popped env f (n + 1) f₂ ∧
      f.thr.callstack.elems[n]?.map CallstackElement.cUn = some (.libfunc sym) ∧
      continueAfterBreakpointAt env { f₂ with
        thr := { f₂.thr with returnAddr := brk }
        output := outputRight env f₂.output { f₂.thr with returnAddr := brk } sym.name } brk =
          .ok f' := by
  unfold processReturn at h
  cases hp : callstackPops env f n with
  | error halt => simp [hp, Except.bind] at h
  | ok f₁ =>
    have habove := callstackPops_ok hp
    cases hq : callstackPop env f₁ with
    | error halt => simp [hp, hq, Except.bind] at h
    | ok f₂ =>
      have hhead : f₁.thr.callstack.elems.head? = f.thr.callstack.elems[n]? := by
        rw [habove.elems, List.head?_drop]
      simp only [hp, hq, Except.bind, hhead] at h
      split at h
      · rename_i sym hsym
        exact ⟨f₂, sym, habove.trans (callstackPop_ok hq), hsym, h⟩
      · cases h

/-- The branch of `process_breakpoint` for a return. -/
theorem processReturn_hit {env : Env} {f f' : Focus} {stop : Stop} {brk : Addr} {n : Nat}
    (hnone : f.thr.breakpointBeingEnabled = none)
    (hreturning : f.thr.callstack.returning brk = some n)
    (h : processReturn env f brk n = .ok f') :
    Hit env f stop brk f' ∧ f'.thr.tid = f.thr.tid ∧ f'.listed = f.listed ∧
      f'.calls = f.calls := by
  obtain ⟨f₂, sym, hpop, hsym, h⟩ := processReturn_ok h
  rw [hpop.focus] at h
  obtain ⟨hoff, hheader, hcs, htid, hout, hrest⟩ := continueAfterBreakpoint_ok h hnone
  refine ⟨Hit.ret n sym hnone hreturning hsym hcs hpop.counted ?_
    (hheader.trans hpop.header) ⟨_, hout, rfl, hcs.symm⟩, htid, hrest⟩
  have hcells : f₂.tracee.cell = f.popCells env (n + 1) := funext hpop.cell
  rw [← hcells]
  exact hoff

/-- The branch of `process_breakpoint` for a function entry. -/
theorem processEntry_hit {env : Env} {f f' : Focus} {stop : Stop} {brk : Addr}
    {sym : LibrarySymbol} (hnone : f.thr.breakpointBeingEnabled = none)
    (hreturning : f.thr.callstack.returning brk = none)
    (hsym : symbolAt f.tracee.proc brk = some sym) (h : processEntry env f stop sym = .ok f') :
    Hit env f stop brk f' ∧ f'.thr.tid = f.thr.tid ∧ f'.listed = f.listed ∧
      f'.calls = f.calls := by
  have haddr : sym.enterAddr = brk := by simpa using List.find?_some hsym
  unfold processEntry callstackPushSymfunc at h
  rw [haddr] at h
  have hb := f.thr.callstack.bounded
  by_cases hfull : f.thr.callstack.depth = maxCalldepth - 1
  · simp only [hfull, if_true] at h
    obtain ⟨hoff, hheader, hcs, htid, hout, hrest⟩ := continueAfterBreakpoint_ok h hnone
    refine ⟨Hit.entry sym hnone hreturning hsym ?_ ?_ hheader ⟨_, hout, rfl, rfl⟩, htid, hrest⟩
    · rw [hcs, Callstack.push_of_full hfull]
    · have hcells : f.pushCells stop.stackTop = f.tracee.cell := by
        funext x
        simp [Focus.pushCells, hfull]
      rw [hcells]
      exact hoff
  · simp only [hfull, if_false] at h
    obtain ⟨hoff, hheader, hcs, htid, hout, hrest⟩ := continueAfterBreakpoint_ok h hnone
    refine ⟨Hit.entry sym hnone hreturning hsym hcs ?_
      (hheader.trans (header_insertBreakpoint ..)) ⟨_, hout, rfl, rfl⟩, htid, hrest⟩
    have hcells : f.pushCells stop.stackTop = (insertBreakpoint f.tracee stop.stackTop).cell := by
      funext x
      have hroom : f.thr.callstack.depth < maxCalldepth - 1 := lt_of_le_of_ne hb hfull
      rw [cell_insertBreakpoint]
      by_cases hx : x = stop.stackTop <;> simp [Focus.pushCells, hroom, hx]
    rw [hcells]
    exact hoff

/-- Handling a trap is a hit; the thread keeps its tid, and nothing else is called. -/
theorem processBreakpoint_hit {env : Env} {f f' : Focus} {stop : Stop} {brk : Addr}
    (h : processBreakpoint env f stop brk = .ok f') :
    Hit env f stop brk f' ∧ f'.thr.tid = f.thr.tid ∧ f'.listed = f.listed ∧
      f'.calls = f.calls := by
  unfold processBreakpoint at h
  cases hbeing : f.thr.breakpointBeingEnabled with
  | some a =>
    simp only [hbeing, Except.ok.injEq] at h
    subst h
    exact ⟨Hit.rearm a hbeing rfl rfl rfl rfl rfl rfl, rfl, rfl, rfl⟩
  | none =>
    cases hreturning : f.thr.callstack.returning brk with
    | some n =>
      simp only [hbeing, hreturning] at h
      exact processReturn_hit hbeing hreturning h
    | none =>
      cases hsym : symbolAt f.tracee.proc brk with
      | some sym =>
        simp only [hbeing, hreturning, hsym] at h
        exact processEntry_hit hbeing hreturning hsym h
      | none =>
        simp only [hbeing, hreturning, hsym, Except.ok.injEq] at h
        subst h
        exact ⟨Hit.stray hbeing hreturning hsym rfl rfl hbeing rfl rfl rfl, rfl, rfl, rfl⟩

/-- A pending step or a trap nobody owns never fails. -/
theorem processBreakpoint_passed (env : Env) {f : Focus} (stop : Stop) (brk : Addr)
    (h : f.thr.breakpointBeingEnabled ≠ none ∨
      f.thr.callstack.returning brk = none ∧ symbolAt f.tracee.proc brk = none) :
    ∃ f', processBreakpoint env f stop brk = .ok f' ∧
      f'.requests.head? = some (f'.thr.tid, .syscall 0, f.eip) := by
  unfold processBreakpoint
  cases hbeing : f.thr.breakpointBeingEnabled with
  | some a => exact ⟨_, rfl, rfl⟩
  | none =>
    rcases h with hne | ⟨hret, hsym⟩
    · exact (hne hbeing).elim
    · rw [hret, hsym]
      exact ⟨_, rfl, rfl⟩

/-! ## The other events -/

/-- A signal leaves the thread alone, whether it is passed on or ends the tracing. -/
theorem thr_processSignal (env : Env) (f : Focus) (signum : Int) :
    (processSignal env f signum).thr = f.thr := by
  unfold processSignal
  split <;> rfl

/-- `process_signal` resumes the thread, or stops tracing the process. -/
theorem processSignal_effect {env : Env} {f : Focus} {stop : Stop}
    (hbe : f.tracee.proc.breakpointsEnabled ≠ -1) (signum : Int) :
    Effect env f stop (processSignal env f signum) := by
  unfold processSignal
  split
  · exact .detach hbe rfl rfl rfl rfl rfl
  · exact .line (.signal signum) hbe rfl rfl rfl rfl

/-- What the entry of a system call does, part by part. -/
theorem processSyscall_eq (env : Env) (f : Focus) (n : Int) :
    processSyscall env f n = continueProcess
      { f with
        output := if env.optS then outputLeft env f.output f.thr (sysname env.syscalent0 n)
          else f.output
        tracee := if cloneP n then f.tracee
          else if f.tracee.proc.breakpointsEnabled = 0 then enableAllBreakpoints f.tracee
          else f.tracee
        thr := if execP n then f.thr else callstackPushSyscall f.thr n } f.thr.tid := by
  unfold processSyscall
  cases env.optS <;> cases cloneP n <;> cases execP n <;>
    by_cases hz : f.tracee.proc.breakpointsEnabled = 0 <;>
    simp [hz, callstackPushSyscall]

/-- While the breakpoints are not disabled, the entry of a system call leaves them alone. -/
theorem tracee_processSyscall (env : Env) {f : Focus}
    (hbe : f.tracee.proc.breakpointsEnabled ≠ 0) (n : Int) :
    (processSyscall env f n).tracee = f.tracee := by
  rw [processSyscall_eq, if_neg hbe, ite_self]
  rfl

/-- Of the thread, the entry of a system call changes the call stack only: its frame is pushed,
except for an `execve`. -/
theorem thr_processSyscall (env : Env) (f : Focus) (n : Int) :
    (processSyscall env f n).thr = { f.thr with
      callstack := if execP n then f.thr.callstack else f.thr.callstack.push ⟨.syscall n, 0⟩ } := by
  rw [processSyscall_eq]
  cases execP n <;> rfl

/-- `process_syscall` pushes the number of the system call. -/
theorem processSyscall_effect {env : Env} {f : Focus} {stop : Stop}
    (hbe : f.tracee.proc.breakpointsEnabled ≠ -1) {n : Int} (hn : 0 ≤ n) :
    Effect env f stop (processSyscall env f n) := by
  have hthr := thr_processSyscall env f n
  refine .syscall n hn hbe (fun hz => tracee_processSyscall env hz n) ?_ ?_ ?_
  · rw [hthr]
  · rw [hthr]
  · rw [processSyscall_eq]
    rfl

/-- Writing through the bottom element leaves the tags and payloads of the stack alone. -/
theorem map_cUn_setBottom (cs : Callstack) (addr : Addr) :
    (cs.setBottom addr).elems.map CallstackElement.cUn = cs.elems.map CallstackElement.cUn := by
  unfold Callstack.setBottom
  refine List.ext_getElem? fun j => ?_
  simp only [List.getElem?_map, List.getElem?_modify]
  cases cs.elems[j]? with
  | none => rfl
  | some elem => by_cases hj : cs.elems.length - 1 = j <;> simp [hj]

/-- The fork branch of an exit stop changes nothing but the return address at the bottom. -/
theorem sysretFork_ok {env : Env} {f f₁ : Focus} {stop : Stop} {n : Int}
    (h : sysretFork env f stop n = .ok f₁) :
    f₁.tracee = f.tracee ∧ f₁.output = f.output ∧ f₁.listed = f.listed ∧
      f₁.thr.tid = f.thr.tid ∧
      f₁.thr.breakpointBeingEnabled = f.thr.breakpointBeingEnabled ∧
      (f₁.thr.callstack = f.thr.callstack ∨
        forkP n = true ∧ f₁.thr.callstack = f.thr.callstack.setBottom 1) := by
  unfold sysretFork at h
  by_cases hfork : forkP n = true ∧ env.optf = true
  · rw [if_pos hfork] at h
    unfold enableAllBreakpointsThread at h
    have hcs : ∀ f₀ : Focus, f₀ = (if 0 < stop.eax then
        { f with calls := .openPid stop.eax :: f.calls } else f) →
        f₀.thr = f.thr ∧ f₀.tracee = f.tracee ∧ f₀.output = f.output ∧ f₀.listed = f.listed := by
      rintro f₀ rfl
      split <;> exact ⟨rfl, rfl, rfl, rfl⟩
    obtain ⟨hthr, htracee, hout, hlisted⟩ := hcs _ rfl
    split at h
    · simp only [Except.ok.injEq] at h
      rw [← h]
      exact ⟨htracee, hout, hlisted, by rw [hthr], by rw [hthr], Or.inl (by rw [hthr])⟩
    · split at h
      · cases h
      · simp only [Except.ok.injEq] at h
        rw [← h]
        exact ⟨htracee, hout, hlisted, by rw [hthr], by rw [hthr],
          Or.inr ⟨hfork.1, by rw [hthr]⟩⟩
  · rw [if_neg hfork, Except.ok.injEq] at h
    subst h
    exact ⟨rfl, rfl, rfl, rfl, rfl, Or.inl rfl⟩

/-- The fork branch keeps the tags and payloads of the stack. -/
theorem map_cUn_sysretFork {env : Env} {f f₁ : Focus} {stop : Stop} {n : Int}
    (h : sysretFork env f stop n = .ok f₁) :
    f₁.thr.callstack.elems.map CallstackElement.cUn =
      f.thr.callstack.elems.map CallstackElement.cUn := by
  obtain ⟨_, _, _, _, _, hcs | ⟨_, hcs⟩⟩ := sysretFork_ok h
  · rw [hcs]
  · rw [hcs, map_cUn_setBottom]

/-- The clone branch only asks for another slot. -/
@[simp] theorem thr_sysretClone (env : Env) (f : Focus) (stop : Stop) (n : Int) :
    (sysretClone env f stop n).thr = f.thr := by
  unfold sysretClone
  split <;> rfl

/-- The exit of `clone` leaves the tracee alone. -/
@[simp] theorem tracee_sysretClone (env : Env) (f : Focus) (stop : Stop) (n : Int) :
    (sysretClone env f stop n).tracee = f.tracee := by
  unfold sysretClone
  split <;> rfl

/-- It prints nothing. -/
@[simp] theorem output_sysretClone (env : Env) (f : Focus) (stop : Stop) (n : Int) :
    (sysretClone env f stop n).output = f.output := by
  unfold sysretClone
  split <;> rfl

/-- Neither branch changes which system call is on top of the stack. -/
theorem top_sysretClone {env : Env} {f f₁ : Focus} {stop : Stop} {n : Int}
    (h : sysretFork env f stop n = .ok f₁) :
    (sysretClone env f₁ stop n).thr.callstack.elems.head?.map CallstackElement.cUn =
      f.thr.callstack.elems.head?.map CallstackElement.cUn := by
  rw [thr_sysretClone, ← List.head?_map, map_cUn_sysretFork h, List.head?_map]

/-- What is left of the exit of a system call that is on top of the stack, once its fork
branch is over. -/
theorem processSysret_popped {env : Env} {f f' : Focus} {stop : Stop} {n : Int}
    (htop : f.thr.callstack.elems.head?.map CallstackElement.cUn = some (.syscall n))
    (hexec : execP n = false) (h : processSysret env f stop n = .ok f') :
    ∃ f₁, sysretFork env f stop n = .ok f₁ ∧ f'.tracee = f₁.tracee ∧
      f'.thr.callstack = f₁.thr.callstack.pop ∧
      f'.thr.breakpointBeingEnabled = f₁.thr.breakpointBeingEnabled ∧
      f'.thr.tid = f₁.thr.tid ∧ f'.output = if env.optS then outputRight env f₁.output
        { f₁.thr with callstack := f₁.thr.callstack.pop } (sysname env.syscalent0 n)
        else f₁.output := by
  unfold processSysret at h
  cases hfork : sysretFork env f stop n with
  | error halt => simp [hfork, Except.bind] at h
  | ok f₁ =>
    have htop₂ := (top_sysretClone hfork).trans htop
    simp only [hfork, Except.bind, hexec, Bool.false_eq_true, if_false,
      callstackPop_syscall env htop₂, Except.map, Except.ok.injEq, sysretExec, false_and] at h
    refine ⟨f₁, rfl, ?_⟩
    rw [← h]
    cases env.optS <;> simp [continueProcess, continueAfterSignal, Focus.request]

/-- Once the fork branch is over, the exit of a system call goes through. -/
theorem processSysret_of_sysretFork {env : Env} {f f₁ : Focus} {stop : Stop} {n : Int}
    (htop : f.thr.callstack.elems.head?.map CallstackElement.cUn = some (.syscall n))
    (hfork : sysretFork env f stop n = .ok f₁) : ∃ f', processSysret env f stop n = .ok f' := by
  unfold processSysret
  rw [hfork]
  simp only [Except.bind]
  rw [callstackPop_syscall env ((top_sysretClone hfork).trans htop)]
  cases execP n <;> exact ⟨_, rfl⟩

/-- The exit of a system call that neither forked nor was an `execve` pops its frame. -/
theorem processSysret_exists_pop (env : Env) {f : Focus} (stop : Stop) {n : Int}
    (htop : f.thr.callstack.elems.head?.map CallstackElement.cUn = some (.syscall n))
    (hfork : forkP n = false) (hexec : execP n = false) :
    ∃ f', processSysret env f stop n = .ok f' ∧ f'.thr.callstack = f.thr.callstack.pop := by
  have hsame : sysretFork env f stop n = .ok f := by
    rw [sysretFork, if_neg (by rw [hfork]; rintro ⟨hf, _⟩; cases hf)]
  obtain ⟨f', hf'⟩ := processSysret_of_sysretFork htop hsame
  obtain ⟨f₁, hf₁, _, hcs, _⟩ := processSysret_popped htop hexec hf'
  rw [hsame] at hf₁
  cases hf₁
  exact ⟨f', hf', hcs⟩

/-- The exit of a system call: its fork and clone branches, the pop unless it was an `execve`, and
then nothing but the exec branch for the process. -/
theorem processSysret_ok {env : Env} {f f' : Focus} {stop : Stop} {n : Int}
    (h : processSysret env f stop n = .ok f') :
    ∃ f₁ f₂, sysretFork env f stop n = .ok f₁ ∧
      (if execP n then .ok (sysretClone env f₁ stop n)
        else callstackPop env (sysretClone env f₁ stop n)) = .ok f₂ ∧
      f'.thr = f₂.thr ∧ f'.calls = f₂.calls ∧ f'.tracee = (sysretExec env f₂ stop n).tracee := by
  unfold processSysret at h
  cases hfork : sysretFork env f stop n with
  | error halt => simp [hfork, Except.bind] at h
  | ok f₁ =>
    simp only [hfork, Except.bind] at h
    cases hpop : (if execP n then .ok (sysretClone env f₁ stop n)
        else callstackPop env (sysretClone env f₁ stop n) : Except Halt Focus) with
    | error halt => simp [hpop, Except.map] at h
    | ok f₂ =>
      simp only [hpop, Except.map, Except.ok.injEq] at h
      refine ⟨f₁, f₂, rfl, hpop, ?_⟩
      rw [← h]
      unfold sysretExec
      cases env.optS <;> split <;> exact ⟨rfl, rfl, rfl⟩

/-- The exit of a system call leaves the tracee alone, but for an `execve` that succeeded. -/
theorem tracee_processSysret {env : Env} {f f' : Focus} {stop : Stop} {n : Int}
    (htop : f.thr.callstack.elems.head?.map CallstackElement.cUn = some (.syscall n))
    (h : processSysret env f stop n = .ok f') :
    f'.tracee = f.tracee ∨ execP n = true ∧ ∃ filename, f'.tracee = breakpointsInit env
      { f.tracee with proc := { f.tracee.proc with filename := filename } } := by
  cases hexec : execP n with
  | false =>
    obtain ⟨f₁, hfork, htracee, _⟩ := processSysret_popped htop hexec h
    exact Or.inl (htracee.trans (sysretFork_ok hfork).1)
  | true =>
    obtain ⟨f₁, f₂, hfork, hf₂, _, _, htracee⟩ := processSysret_ok h
    rw [if_pos hexec] at hf₂
    cases hf₂
    have hkept : (sysretClone env f₁ stop n).tracee = f.tracee :=
      (tracee_sysretClone ..).trans (sysretFork_ok hfork).1
    rw [htracee, sysretExec]
    by_cases heax : stop.eax = 0
    · refine Or.inr ⟨rfl, env.pid2name f.tracee.proc.pid, ?_⟩
      rw [if_pos ⟨hexec, heax⟩, hkept]
    · rw [if_neg fun hok => heax hok.2]
      exact Or.inl hkept

/-- `process_sysret` pops the number again, but for what `fork` and `execve` do. -/
theorem processSysret_effect {env : Env} {f f' : Focus} {stop : Stop} {n : Int}
    (hbe : f.tracee.proc.breakpointsEnabled ≠ -1)
    (htop : f.thr.callstack.elems.head?.map CallstackElement.cUn = some (.syscall n))
    (hclass : (waitForSomething env f stop).2 = .sysret n)
    (h : processSysret env f stop n = .ok f') :
    Effect env f stop f' ∧ f'.thr.tid = f.thr.tid := by
  cases hexec : execP n with
  | true =>
    obtain ⟨f₁, f₂, hfork, hf₂, hthr, _⟩ := processSysret_ok h
    rw [if_pos hexec] at hf₂
    cases hf₂
    obtain ⟨_, _, _, htid, _⟩ := sysretFork_ok hfork
    refine ⟨.exec n hexec htop, ?_⟩
    rw [hthr, thr_sysretClone, htid]
  | false =>
    obtain ⟨f₁, hfork, ht', hcs', hb', htid', hout'⟩ := processSysret_popped htop hexec h
    obtain ⟨htracee, hout, hlisted, htid, hbeing, hcs⟩ := sysretFork_ok hfork
    cases helems : f.thr.callstack.elems with
    | nil => simp [helems] at htop
    | cons elem rest =>
      have hcUn : elem.cUn = .syscall n := by simpa [helems] using htop
      have hpopped : (Callstack.pop f₁.thr.callstack).elems.map CallstackElement.cUn =
          rest.map CallstackElement.cUn := by
        rw [Callstack.elems_pop, List.map_tail, map_cUn_sysretFork hfork, helems]
        rfl
      refine ⟨.sysret n elem rest hbe helems hcUn hclass hexec (ht'.trans htracee) ?_ ?_
        (hb'.trans hbeing)
        ⟨{ f₁.thr with callstack := f₁.thr.callstack.pop }, hout ▸ hout', htid, hcs'.symm⟩,
        htid'.trans htid⟩
      · rcases hcs with hcs | ⟨hfork, _⟩
        · exact Or.inl (by rw [hcs', hcs, Callstack.elems_pop, helems, List.tail_cons])
        · exact Or.inr hfork
      · rw [hcs', hpopped]

/-! ## `wait_for_something` -/

/-- A stop in front of a system call reports its number. -/
theorem syscallP_eq_one {thr : Thread} {stop : Stop} (h : syscallP thr stop = 1) :
    0 ≤ stop.origEax ∧ stop.status = .stopped sigtrap := by
  unfold syscallP at h
  split at h
  · rename_i hs
    split at h
    · cases h
    · split at h
      · rename_i hn
        exact ⟨hn, hs⟩
      · cases h
  · cases h

/-- A stop behind a system call has its number on top of the stack. -/
theorem syscallP_eq_two {thr : Thread} {stop : Stop} (h : syscallP thr stop = 2) :
    thr.callstack.elems.head?.map CallstackElement.cUn = some (.syscall stop.origEax) := by
  unfold syscallP at h
  split at h
  · split at h
    · assumption
    · split at h <;> cases h
  · cases h

/-- The stop as `process_event` meets it. -/
def Focus.withIp (f : Focus) (ip : Addr) : Focus :=
  { f with thr := { f.thr with instructionPointer := ip } }

/-- How a stop is classified once the breakpoints are planted. -/
def Focus.classified (f : Focus) (stop : Stop) : Event :=
  if syscallP f.thr stop = 1 then .syscall stop.origEax
  else if syscallP f.thr stop = 2 then .sysret stop.origEax
  else
    match stop.status with
    | .exited retVal => .exit retVal
    | .signaled signum => .exitSignal signum
    | .other => .unknown
    | .stopped signum =>
      if signum ≠ sigtrap then .signal signum else .breakpoint (f.eip - decrPcAfterBreak)

/-- A stop that is no system call is classified by its status. -/
theorem waitStatus_eq {f : Focus} {stop : Stop} (h0 : syscallP f.thr stop ≠ 1)
    (h2 : syscallP f.thr stop ≠ 2)
    (hip : f.thr.instructionPointer = 0 ∨ f.thr.instructionPointer = f.eip) :
    ∃ ip, waitStatus f stop = (f.withIp ip, f.classified stop) := by
  unfold waitStatus Focus.classified
  rw [if_neg h0, if_neg h2]
  cases stop.status with
  | exited _ => exact ⟨f.thr.instructionPointer, rfl⟩
  | signaled _ => exact ⟨f.thr.instructionPointer, rfl⟩
  | other => exact ⟨f.thr.instructionPointer, rfl⟩
  | stopped signum =>
    by_cases hs : signum = sigtrap
    · refine ⟨f.eip, ?_⟩
      have heip : (if f.thr.instructionPointer = 0 then f.eip else f.thr.instructionPointer) =
          f.eip := by
        rcases hip with hip | hip
        · rw [if_pos hip]
        · rw [hip, ite_self]
      simp only [hs, ne_eq, not_true_eq_false, if_false, heip]
      rfl
    · refine ⟨f.thr.instructionPointer, ?_⟩
      simp only [hs, ne_eq, not_false_eq_true, if_true]
      rfl

/-- Behind the first event, classifying keeps everything but the instruction pointer. -/
theorem waitForSomething_eq (env : Env) {f : Focus} (stop : Stop)
    (hbe : f.tracee.proc.breakpointsEnabled ≠ -1) :
    ∃ ip, waitForSomething env f stop = (f.withIp ip, f.classified stop) := by
  have hip : ∃ ip, (ip = 0 ∨ ip = f.eip) ∧
      waitForSomething env f stop = waitSyscall (f.withIp ip) stop := by
    unfold waitForSomething
    simp only [if_neg hbe]
    cases env.opti with
    | true => exact ⟨f.eip, Or.inr rfl, rfl⟩
    | false => exact ⟨0, Or.inl rfl, rfl⟩
  obtain ⟨ip, hcases, hwait⟩ := hip
  have hclass : (f.withIp ip).classified stop = f.classified stop := rfl
  rw [hwait, ← hclass]
  unfold waitSyscall
  split
  · rename_i h1
    exact ⟨ip, by rw [Focus.classified, if_pos h1]⟩
  · rename_i h2
    exact ⟨ip, by rw [Focus.classified, if_neg (by rw [h2]; decide), if_pos h2]⟩
  · rename_i h1 h2
    exact waitStatus_eq h1 h2 hcases

/-- The first event of a process enables its breakpoints. -/
theorem waitForSomething_first {env : Env} {f : Focus} {stop : Stop}
    (hbe : f.tracee.proc.breakpointsEnabled = -1) :
    waitForSomething env f stop = (continueProcess
      { f.withIp 0 with tracee := enableAllBreakpoints f.tracee } f.thr.tid, .none) := by
  unfold waitForSomething
  simp only [if_pos hbe]
  rfl

/-- Nothing else is done at it. -/
theorem handle_first {env : Env} {f : Focus} {stop : Stop}
    (hbe : f.tracee.proc.breakpointsEnabled = -1) :
    handle env f stop = .ok (continueProcess
      { f.withIp 0 with tracee := enableAllBreakpoints f.tracee } f.thr.tid) := by
  unfold handle
  rw [waitForSomething_first hbe]
  rfl

/-- Once the breakpoints are planted, an event is handled as it is classified. -/
theorem handle_eq (env : Env) {f : Focus} (stop : Stop)
    (hbe : f.tracee.proc.breakpointsEnabled ≠ -1) :
    ∃ ip, handle env f stop = processEvent env (f.withIp ip) stop (f.classified stop) := by
  obtain ⟨ip, hwait⟩ := waitForSomething_eq env stop hbe
  refine ⟨ip, ?_⟩
  unfold handle
  rw [hwait]

/-- What is not the first event is handled as it is classified. -/
theorem handle_of_class {env : Env} {f : Focus} {stop : Stop} {event : Event}
    (hclass : (waitForSomething env f stop).2 = event) (hne : event ≠ .none) :
    f.tracee.proc.breakpointsEnabled ≠ -1 ∧
      ∃ ip, waitForSomething env f stop = (f.withIp ip, event) ∧
        handle env f stop = processEvent env (f.withIp ip) stop event := by
  have hbe : f.tracee.proc.breakpointsEnabled ≠ -1 := by
    intro hbe
    rw [waitForSomething_first hbe] at hclass
    exact hne hclass.symm
  obtain ⟨ip, hwait⟩ := waitForSomething_eq env stop hbe
  have hevent : waitForSomething env f stop = (f.withIp ip, event) := by
    rw [hwait] at hclass ⊢
    rw [← hclass]
  refine ⟨hbe, ip, hevent, ?_⟩
  unfold handle
  rw [hevent]

/-! ## One turn of the main loop -/

/-- A trap leaves the process record alone, but for its table. -/
theorem Hit.header_eq {env : Env} {f f' : Focus} {stop : Stop} {brk : Addr}
    (h : Hit env f stop brk f') : f'.tracee.header = f.tracee.header := by
  cases h with
  | rearm a _ ht => rw [ht, header_enableEntry]
  | ret _ _ _ _ _ _ _ _ hh => exact hh
  | entry _ _ _ _ _ _ hh => exact hh
  | stray _ _ _ ht => rw [ht]

/-- A hit does not depend on the instruction pointer of the thread. -/
theorem Hit.of_withIp {env : Env} {f f' : Focus} {stop : Stop} {brk ip : Addr}
    (h : Hit env (f.withIp ip) stop brk f') : Hit env f stop brk f' := by
  cases h with
  | rearm a hbeing ht hcs hafter ho heip hreq =>
    exact .rearm a hbeing ht hcs hafter ho heip hreq
  | ret n sym hbeing hret hsym hcs hcounted hoff hh ho =>
    exact .ret n sym hbeing hret hsym hcs hcounted hoff hh ho
  | entry sym hbeing hret hsym hcs hoff hh ho => exact .entry sym hbeing hret hsym hcs hoff hh ho
  | stray hbeing hret hsym ht hcs hafter ho heip hreq =>
    exact .stray hbeing hret hsym ht hcs hafter ho heip hreq

/-- The field `instruction_pointer` of the thread plays no part in an effect. -/
theorem Effect.of_withIp {env : Env} {f f' : Focus} {stop : Stop} {ip : Addr}
    (h : Effect env (f.withIp ip) stop f') : Effect env f stop f' := by
  cases h with
  | first hbe ht hcs hb ho => exact .first hbe ht hcs hb ho
  | line diag hbe ht hcs hb ho => exact .line diag hbe ht hcs hb ho
  | detach hbe ht hcs hb ho hl => exact .detach hbe ht hcs hb ho hl
  | syscall n hn hbe ht hcs hb ho => exact .syscall n hn hbe ht hcs hb ho
  | sysret n elem rest hbe hframes hsys hclass hexec ht helems hcUn hb ho =>
    exact .sysret n elem rest hbe hframes hsys hclass hexec ht helems hcUn hb ho
  | exec n hexec hsys => exact .exec n hexec hsys
  | breakpoint hbe hit hclass => exact .breakpoint hbe hit.of_withIp hclass

/-- The handler an event was given to. -/
inductive Handled (env : Env) (f : Focus) (stop : Stop) (f' : Focus) : Prop
  | first (hbe : f.tracee.proc.breakpointsEnabled = -1)
      (h : f' = continueProcess { f.withIp 0 with tracee := enableAllBreakpoints f.tracee }
        f.thr.tid)
  | syscall (ip : Addr) (hbe : f.tracee.proc.breakpointsEnabled ≠ -1)
      (hsys : syscallP f.thr stop = 1)
      (hclass : (waitForSomething env f stop).2 = .syscall stop.origEax)
      (h : f' = processSyscall env (f.withIp ip) stop.origEax)
  | sysret (ip : Addr) (hbe : f.tracee.proc.breakpointsEnabled ≠ -1)
      (hsys : syscallP f.thr stop = 2)
      (hclass : (waitForSomething env f stop).2 = .sysret stop.origEax)
      (h : processSysret env (f.withIp ip) stop stop.origEax = .ok f')
  | exit (ip : Addr) (hbe : f.tracee.proc.breakpointsEnabled ≠ -1) (retVal : Int)
      (hstatus : stop.status = .exited retVal)
      (hclass : (waitForSomething env f stop).2 = .exit retVal)
      (h : f' = processExit env (f.withIp ip) retVal)
  | exitSignal (ip : Addr) (hbe : f.tracee.proc.breakpointsEnabled ≠ -1) (signum : Int)
      (hstatus : stop.status = .signaled signum)
      (hclass : (waitForSomething env f stop).2 = .exitSignal signum)
      (h : f' = processExitSignal env (f.withIp ip) signum)
  | signal (ip : Addr) (hbe : f.tracee.proc.breakpointsEnabled ≠ -1) (signum : Int)
      (hstatus : stop.status = .stopped signum) (hne : signum ≠ sigtrap)
      (hclass : (waitForSomething env f stop).2 = .signal signum)
      (h : f' = processSignal env (f.withIp ip) signum)
  | breakpoint (ip : Addr) (hbe : f.tracee.proc.breakpointsEnabled ≠ -1)
      (hstatus : stop.status = .stopped sigtrap) (hsys : syscallP f.thr stop = 0)
      (hclass : (waitForSomething env f stop).2 = .breakpoint (f.eip - decrPcAfterBreak))
      (h : processBreakpoint env (f.withIp ip) stop (f.eip - decrPcAfterBreak) = .ok f')

/-- A stop is in front of a system call, behind one, or neither. -/
theorem syscallP_eq_zero {thr : Thread} {stop : Stop} (h1 : syscallP thr stop ≠ 1)
    (h2 : syscallP thr stop ≠ 2) : syscallP thr stop = 0 := by
  unfold syscallP at h1 h2 ⊢
  split_ifs at h1 h2 ⊢ <;> first | rfl | contradiction

/-- An event that was handled went to one of the handlers. -/
theorem handle_cases {env : Env} {f f' : Focus} {stop : Stop} (h : handle env f stop = .ok f') :
    Handled env f stop f' := by
  by_cases hbe : f.tracee.proc.breakpointsEnabled = -1
  · unfold handle at h
    rw [waitForSomething_first hbe] at h
    exact .first hbe (Except.ok.inj h).symm
  · obtain ⟨ip, hwait⟩ := waitForSomething_eq env stop hbe
    have hclass : (waitForSomething env f stop).2 = f.classified stop := by rw [hwait]
    unfold handle at h
    rw [hwait] at h
    unfold Focus.classified at h hclass
    by_cases h1 : syscallP f.thr stop = 1
    · rw [if_pos h1] at h hclass
      exact .syscall ip hbe h1 hclass (Except.ok.inj h).symm
    · by_cases h2 : syscallP f.thr stop = 2
      · rw [if_neg h1, if_pos h2] at h hclass
        exact .sysret ip hbe h2 hclass h
      · rw [if_neg h1, if_neg h2] at h hclass
        cases hstatus : stop.status with
        | exited retVal =>
          rw [hstatus] at h hclass
          exact .exit ip hbe retVal hstatus hclass (Except.ok.inj h).symm
        | signaled signum =>
          rw [hstatus] at h hclass
          exact .exitSignal ip hbe signum hstatus hclass (Except.ok.inj h).symm
        | other => simp [hstatus, processEvent] at h
        | stopped signum =>
          simp only [hstatus] at h hclass
          by_cases hs : signum = sigtrap
          · subst hs
            rw [if_neg (by simp)] at h hclass
            exact .breakpoint ip hbe hstatus (syscallP_eq_zero h1 h2) hclass h
          · rw [if_pos hs] at h hclass
            exact .signal ip hbe signum hstatus hs hclass (Except.ok.inj h).symm

/-- Whatever a handled event did is one of the effects. -/
theorem handle_effect {env : Env} {f f' : Focus} {stop : Stop} (h : handle env f stop = .ok f') :
    Effect env f stop f' ∧ f'.thr.tid = f.thr.tid := by
  cases handle_cases h with
  | first hbe h =>
    subst h
    exact ⟨.first hbe rfl rfl rfl rfl, rfl⟩
  | syscall ip hbe hsys _ h =>
    subst h
    have hbe' : (f.withIp ip).tracee.proc.breakpointsEnabled ≠ -1 := hbe
    refine ⟨(processSyscall_effect hbe' (syscallP_eq_one hsys).1).of_withIp, ?_⟩
    rw [thr_processSyscall]
    rfl
  | sysret ip hbe hsys hclass h =>
    obtain ⟨heffect, htid⟩ := processSysret_effect (f := f.withIp ip) hbe (syscallP_eq_two hsys)
      hclass h
    exact ⟨heffect.of_withIp, htid⟩
  | exit ip hbe retVal _ _ h => exact h ▸ ⟨.line (.exited retVal) hbe rfl rfl rfl rfl, rfl⟩
  | exitSignal ip hbe signum _ _ h => exact h ▸ ⟨.line (.killed signum) hbe rfl rfl rfl rfl, rfl⟩
  | signal ip hbe signum _ _ _ h =>
    subst h
    refine ⟨(processSignal_effect (f := f.withIp ip) hbe signum).of_withIp, ?_⟩
    rw [thr_processSignal]
    rfl
  | breakpoint ip hbe _ _ hclass h =>
    obtain ⟨hhit, htid, _⟩ := processBreakpoint_hit h
    exact ⟨.breakpoint hbe hhit.of_withIp hclass, htid⟩

/-- A trap outside a system call is handed to `process_breakpoint`. -/
theorem handle_breakpoint (env : Env) {f : Focus} {stop : Stop}
    (hbe : f.tracee.proc.breakpointsEnabled ≠ -1) (hstatus : stop.status = .stopped sigtrap)
    (hsys : syscallP f.thr stop = 0) :
    ∃ ip, handle env f stop =
      processBreakpoint env (f.withIp ip) stop (f.eip - decrPcAfterBreak) := by
  obtain ⟨ip, hhandle⟩ := handle_eq env stop hbe
  refine ⟨ip, ?_⟩
  rw [hhandle]
  simp only [Focus.classified, hsys, hstatus]
  rfl

/-- A stop taken for the entry of a system call is handled as one. -/
theorem handle_syscall (env : Env) {f : Focus} {stop : Stop}
    (hbe : f.tracee.proc.breakpointsEnabled ≠ -1) (hsys : syscallP f.thr stop = 1) :
    ∃ ip, handle env f stop = .ok (processSyscall env (f.withIp ip) stop.origEax) := by
  obtain ⟨ip, hhandle⟩ := handle_eq env stop hbe
  refine ⟨ip, ?_⟩
  rw [hhandle]
  simp only [Focus.classified, hsys]
  rfl

/-- A stop taken for the exit of a system call is handled as one. -/
theorem handle_sysret (env : Env) {f : Focus} {stop : Stop}
    (hbe : f.tracee.proc.breakpointsEnabled ≠ -1) (hsys : syscallP f.thr stop = 2) :
    ∃ ip, handle env f stop = processSysret env (f.withIp ip) stop stop.origEax := by
  obtain ⟨ip, hhandle⟩ := handle_eq env stop hbe
  refine ⟨ip, ?_⟩
  rw [hhandle]
  simp only [Focus.classified, hsys]
  rfl

/-- The first event, and any other stop than that of a trap, leave the call stack alone. -/
theorem callstack_of_not_trap {env : Env} {f f' : Focus} {stop : Stop}
    (hnot : stop.status ≠ .stopped sigtrap ∨ f.tracee.proc.breakpointsEnabled = -1)
    (h : handle env f stop = .ok f') : f'.thr.callstack = f.thr.callstack := by
  have hsys : f.tracee.proc.breakpointsEnabled ≠ -1 → syscallP f.thr stop = 0 := by
    intro hbe
    rw [syscallP, if_neg (hnot.resolve_right hbe)]
  cases handle_cases h with
  | first _ h => exact h ▸ rfl
  | syscall _ hbe h1 => cases h1.symm.trans (hsys hbe)
  | sysret _ hbe h2 => cases h2.symm.trans (hsys hbe)
  | exit _ _ _ _ _ h => exact h ▸ rfl
  | exitSignal _ _ _ _ _ h => exact h ▸ rfl
  | signal _ _ _ _ _ _ h =>
    rw [h, thr_processSignal]
    rfl
  | breakpoint _ hbe hstatus => exact (hnot.resolve_right hbe hstatus).elim

/-! ## The calls into `proc.c` -/

/-- At most one call is made, and a process is opened for a child only. -/
def Focus.CallsOnce (f f' : Focus) : Prop :=
  f'.calls = f.calls ∨ ∃ call, f'.calls = call :: f.calls ∧
    ∀ child, call = .openPid child → 0 < child

/-- A followed `fork` calls for opening the child, once. -/
theorem calls_sysretFork {env : Env} {f f₁ : Focus} {stop : Stop} {n : Int}
    (h : sysretFork env f stop n = .ok f₁) : f₁.calls = f.calls ∨
      (forkP n = true ∧ env.optf = true) ∧ 0 < stop.eax ∧
        f₁.calls = .openPid stop.eax :: f.calls := by
  unfold sysretFork at h
  by_cases hfork : forkP n = true ∧ env.optf = true
  · rw [if_pos hfork] at h
    have hcalls : f₁.calls =
        (if 0 < stop.eax then { f with calls := .openPid stop.eax :: f.calls } else f).calls := by
      unfold enableAllBreakpointsThread at h
      split at h
      · exact (Except.ok.inj h) ▸ rfl
      · split at h
        · cases h
        · exact (Except.ok.inj h) ▸ rfl
    by_cases heax : 0 < stop.eax
    · rw [if_pos heax] at hcalls
      exact Or.inr ⟨hfork, heax, hcalls⟩
    · rw [if_neg heax] at hcalls
      exact Or.inl hcalls
  · rw [if_neg hfork] at h
    exact Or.inl ((Except.ok.inj h) ▸ rfl)

/-- A fork is no clone. -/
theorem cloneP_of_forkP {n : Int} (h : forkP n = true) : cloneP n = false := by
  unfold forkP at h
  simp only [Bool.or_eq_true, beq_iff_eq] at h
  rcases h with rfl | rfl <;> rfl

/-- The clone branch is reached with the calls of the fork branch, and adds its own. -/
theorem callsOnce_sysretClone {env : Env} {f f₁ : Focus} {stop : Stop} {n : Int}
    (h : sysretFork env f stop n = .ok f₁) : f.CallsOnce (sysretClone env f₁ stop n) := by
  unfold Focus.CallsOnce sysretClone
  rcases calls_sysretFork h with hsame | ⟨hfork, heax, hcall⟩
  · split
    · refine Or.inr ⟨.regTid stop.eax, by rw [hsame], ?_⟩
      rintro child ⟨⟩
    · exact Or.inl hsame
  · rw [if_neg (by simp [cloneP_of_forkP hfork.1])]
    refine Or.inr ⟨.openPid stop.eax, hcall, ?_⟩
    rintro child ⟨⟩
    exact heax

/-- After its fork and clone branches the exit of a system call makes no calls. -/
theorem calls_processSysret {env : Env} {f f' : Focus} {stop : Stop} {n : Int}
    (h : processSysret env f stop n = .ok f') :
    ∃ f₁, sysretFork env f stop n = .ok f₁ ∧ f'.calls = (sysretClone env f₁ stop n).calls := by
  obtain ⟨f₁, f₂, hfork, hf₂, _, hcalls, _⟩ := processSysret_ok h
  refine ⟨f₁, hfork, hcalls.trans ?_⟩
  split at hf₂
  · rw [Except.ok.inj hf₂]
  · rw [(callstackPop_ok hf₂).focus]

/-- The exit of `execve` calls for nothing. -/
theorem calls_processSysret_exec {env : Env} {f f' : Focus} {stop : Stop} {n : Int}
    (hexec : execP n = true) (h : processSysret env f stop n = .ok f') : f'.calls = f.calls := by
  obtain ⟨f₁, hfork, hcalls⟩ := calls_processSysret h
  have hn : n = 11 := beq_iff_eq.mp hexec
  subst hn
  rcases calls_sysretFork hfork with hsame | ⟨⟨hforkP, _⟩, _⟩
  · exact hcalls.trans hsame
  · cases hforkP

/-- The exit of a system call makes the calls, and where it makes one it leaves the tracee
alone. -/
theorem handle_calls {env : Env} {f f' : Focus} {stop : Stop} (h : handle env f stop = .ok f') :
    f.CallsOnce f' ∧ (f'.calls = f.calls ∨ f'.tracee = f.tracee) := by
  suffices hcalls : f'.calls = f.calls ∨ f.CallsOnce f' ∧ f'.tracee = f.tracee by
    rcases hcalls with hsame | ⟨honce, htracee⟩
    · exact ⟨Or.inl hsame, Or.inl hsame⟩
    · exact ⟨honce, Or.inr htracee⟩
  cases handle_cases h with
  | first _ h => exact Or.inl (h ▸ rfl)
  | syscall ip _ _ _ h =>
    refine Or.inl ?_
    rw [h, processSyscall_eq]
    rfl
  | sysret ip _ hsys _ h =>
    rcases tracee_processSysret (f := f.withIp ip) (syscallP_eq_two hsys) h with
      htracee | ⟨hexec, _⟩
    · obtain ⟨f₁, hfork, hcalls⟩ := calls_processSysret h
      have honce : (f.withIp ip).CallsOnce (sysretClone env f₁ stop stop.origEax) :=
        callsOnce_sysretClone hfork
      refine Or.inr ⟨?_, htracee⟩
      unfold Focus.CallsOnce at honce ⊢
      rw [hcalls]
      exact honce
    · exact Or.inl (calls_processSysret_exec (f := f.withIp ip) hexec h)
  | exit _ _ _ _ _ h => exact Or.inl (h ▸ rfl)
  | exitSignal _ _ _ _ _ h => exact Or.inl (h ▸ rfl)
  | signal _ _ _ _ _ _ h =>
    refine Or.inl ?_
    rw [h]
    unfold processSignal
    split <;> rfl
  | breakpoint _ _ _ _ _ h => exact Or.inl (processBreakpoint_hit h).2.2.2

end Utrace
