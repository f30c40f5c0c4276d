import Utrace.Core.Run
import Utrace.Interpretation.Lines

/-!
# Entries and exits of system calls are told apart

The kernel reports the entry of a system call and its exit with the same stop; `syscall_p`
tells them apart by the top of the call stack alone. One thread is watched while the kernel
reports its system calls in order. Outside a system call its stack holds calls only; inside
one it holds the frame of that system call on top.
-/

namespace Utrace

/-- No frame of the stack is that of a system call. -/
def Callstack.OnlyCalls (cs : Callstack) : Prop := ∀ elem ∈ cs.elems, elem.isSyscall = false

/-- No system call is on top of calls only. -/
theorem Callstack.OnlyCalls.head_ne {cs : Callstack} (h : cs.OnlyCalls) (n : Int) :
    cs.elems.head?.map CallstackElement.cUn ≠ some (.syscall n) := by
  intro hhead
  obtain ⟨elem, helem, hcUn⟩ := Option.map_eq_some_iff.mp hhead
  have hcall := h elem (List.mem_of_mem_head? helem)
  rw [CallstackElement.isSyscall, hcUn] at hcall
  cases hcall

/-- Pops leave calls only. -/
theorem Callstack.OnlyCalls.iterate_pop {cs : Callstack} (h : cs.OnlyCalls) (n : Nat) :
    (Callstack.pop^[n] cs).OnlyCalls := by
  intro elem hmem
  rw [elems_iterate_pop] at hmem
  exact h elem (List.mem_of_mem_drop hmem)

/-- So does pushing a call. -/
theorem Callstack.OnlyCalls.push {cs : Callstack} (h : cs.OnlyCalls) {elem : CallstackElement}
    (helem : elem.isSyscall = false) : (cs.push elem).OnlyCalls := by
  unfold Callstack.OnlyCalls
  rcases cs.push_cases elem with ⟨_, hfull⟩ | ⟨_, hpush⟩
  · rw [hfull]
    exact h
  · rw [hpush]
    simp only [List.mem_cons, forall_eq_or_imp]
    exact ⟨helem, h⟩

/-- A trap pushes and pops calls only. -/
theorem Hit.onlyCalls {env : Env} {f f' : Focus} {stop : Stop} {brk : Addr}
    (h : Hit env f stop brk f') (hf : f.thr.callstack.OnlyCalls) :
    f'.thr.callstack.OnlyCalls := by
  cases h with
  | rearm _ _ _ hcs => exact hcs ▸ hf
  | ret n _ _ _ _ hcs => exact hcs ▸ hf.iterate_pop (n + 1)
  | entry sym _ _ _ hcs => exact hcs ▸ hf.push rfl
  | stray _ _ _ _ hcs => exact hcs ▸ hf

/-! ## What the kernel reports -/

/-- A process, and the system call the watched thread is inside of, with the call stack the
thread had before its entry stop. -/
structure Watched (ι : Type*) where
  sys : Sys ι
  inside : Option (Int × Callstack)

/-- What is reported next: the entry or the exit of a system call of the watched thread, a
trap it ran into, or anything else. -/
inductive Report (ι : Type*) where
  | entry (stop : Stop)
  | exit (stop : Stop)
  | trap (stop : Stop)
  | other (input : Input ι)

variable {ι : Type*} [DecidableEq ι]

/-- What happens to the process. -/
def Report.input (i : ι) : Report ι → Input ι
  | .entry stop | .exit stop | .trap stop => .stop i stop
  | .other input => input

namespace Watched

/-- The system call the thread is inside of after a report. -/
def insideAfter (i : ι) (w : Watched ι) : Report ι → Option (Int × Callstack)
  | .entry stop => some (stop.origEax, (w.sys.threads i).callstack)
  | .exit _ => none
  | .trap _ | .other _ => w.inside

/-- One report. -/
def step (env : Env) (i : ι) (w : Watched ι) (report : Report ι) : Option (Watched ι) :=
  (w.sys.step env (report.input i)).map fun s => ⟨s, w.insideAfter i report⟩

/-- The reports of the kernel: entries and exits alternate, an exit with the number of its
entry, and traps come between an exit and the next entry. All of them come after the first
event of the process, which resumes it for the first time and plants its breakpoints.
Meanwhile the watched thread may be stopped by signals, and everything else may happen. -/
def Reported (i : ι) (w : Watched ι) : Report ι → Prop
  | .entry stop => w.inside = none ∧ w.sys.tracee.proc.breakpointsEnabled ≠ -1 ∧
    stop.status = .stopped sigtrap ∧ 0 ≤ stop.origEax ∧ execP stop.origEax = false ∧
    forkP stop.origEax = false ∧ (w.sys.threads i).callstack.depth < maxCalldepth - 1
  | .exit stop => (∃ cs, w.inside = some (stop.origEax, cs)) ∧ stop.status = .stopped sigtrap
  | .trap stop => w.inside = none ∧ w.sys.tracee.proc.breakpointsEnabled ≠ -1 ∧
    stop.status = .stopped sigtrap ∧ stop.origEax = -1
  | .other (.stop j stop) => j = i →
    stop.status ≠ .stopped sigtrap ∨ w.sys.tracee.proc.breakpointsEnabled = -1
  | .other _ => True

omit [DecidableEq ι] in
/-- A stop reports the exit of the system call the thread is inside. -/
theorem reported_exit_iff {i : ι} {w : Watched ι} {stop : Stop} :
    w.Reported i (.exit stop) ↔
      w.inside.map Prod.fst = some stop.origEax ∧ stop.status = .stopped sigtrap := by
  unfold Reported
  cases w.inside with
  | none => simp
  | some call =>
    obtain ⟨n, cs⟩ := call
    simp

instance (i : ι) (w : Watched ι) : DecidablePred (w.Reported i)
  | .entry _ | .trap _ => inferInstanceAs (Decidable (_ ∧ _))
  | .exit _ => decidable_of_iff _ reported_exit_iff.symm
  | .other (.stop _ _) => inferInstanceAs (Decidable (_ → _))
  | .other .interrupt | .other (.store _) => inferInstanceAs (Decidable True)

/-- What the reports keep: the stack of the watched thread tells whether it is inside a
system call. -/
structure Told (pid : Pid) (symbols : List LibrarySymbol) (i : ι) (w : Watched ι) : Prop where
  steady : w.sys.Steady pid symbols
  planted : w.inside ≠ none → w.sys.tracee.proc.breakpointsEnabled ≠ -1
  outside : w.inside = none → (w.sys.threads i).callstack.OnlyCalls
  inside : ∀ n cs, w.inside = some (n, cs) → forkP n = false ∧ execP n = false ∧ cs.OnlyCalls ∧
    (w.sys.threads i).callstack.elems = ⟨.syscall n, 0⟩ :: cs.elems

section

variable {env : Env} {pid : Pid} {symbols : List LibrarySymbol} {i : ι} {w w' : Watched ι}

omit [DecidableEq ι] in
/-- `syscall_p` answers 1 at an entry stop. -/
theorem Told.entry (h : w.Told pid symbols i) {stop : Stop}
    (hreport : w.Reported i (.entry stop)) : syscallP (w.sys.threads i) stop = 1 := by
  obtain ⟨hinside, _, hstatus, hn, _⟩ := hreport
  rw [syscallP, if_pos hstatus, if_neg ((h.outside hinside).head_ne _), if_pos hn]

omit [DecidableEq ι] in
/-- `syscall_p` answers 2 at an exit stop. -/
theorem Told.exit (h : w.Told pid symbols i) {stop : Stop}
    (hreport : w.Reported i (.exit stop)) : syscallP (w.sys.threads i) stop = 2 := by
  obtain ⟨⟨cs, hinside⟩, hstatus⟩ := hreport
  obtain ⟨_, _, _, helems⟩ := h.inside _ _ hinside
  rw [syscallP, if_pos hstatus, helems]
  exact if_pos rfl

omit [DecidableEq ι] in
/-- `syscall_p` answers 0 at a trap. -/
theorem Told.trap (h : w.Told pid symbols i) {stop : Stop}
    (hreport : w.Reported i (.trap stop)) : syscallP (w.sys.threads i) stop = 0 := by
  obtain ⟨hinside, _, hstatus, hn⟩ := hreport
  rw [syscallP, if_pos hstatus, if_neg ((h.outside hinside).head_ne _), hn, if_neg (by decide)]

/-- The exit stop of a listed process is handled, and gives back the call stack the thread
had before the entry stop. -/
theorem Told.exit_step (env : Env) (h : w.Told pid symbols i) {stop : Stop}
    (hreport : w.Reported i (.exit stop)) {n : Int} {cs : Callstack}
    (hinside : w.inside = some (n, cs)) (hl : w.sys.listed = true) :
    ∃ w', w.step env i (.exit stop) = some w' ∧ (w'.sys.threads i).callstack = cs := by
  obtain ⟨⟨cs', hinside'⟩, _⟩ := id hreport
  cases hinside.symm.trans hinside'
  obtain ⟨hfork, hexec, _, helems⟩ := h.inside _ _ hinside
  have hplanted := h.planted (by rw [hinside]; exact Option.some_ne_none _)
  obtain ⟨ip, hhandle⟩ := handle_sysret env (f := w.sys.focus i stop) hplanted (h.exit hreport)
  have htop : ((w.sys.focus i stop).withIp ip).thr.callstack.elems.head?.map
      CallstackElement.cUn = some (.syscall stop.origEax) := by
    change (w.sys.threads i).callstack.elems.head?.map CallstackElement.cUn = _
    rw [helems]
    rfl
  obtain ⟨f', hf', hcs⟩ := processSysret_exists_pop env stop htop hfork hexec
  have hstep : w.sys.step env (.stop i stop) = some (w.sys.put i f') :=
    Sys.step_stop_eq_some.mpr ⟨hl, f', hhandle.trans hf', rfl⟩
  refine ⟨_, congrArg (Option.map _) hstep, ?_⟩
  change ((w.sys.put i f').threads i).callstack = cs
  rw [Sys.threads_put_self, hcs]
  apply Callstack.ext
  change (w.sys.threads i).callstack.elems.tail = cs.elems
  rw [helems, List.tail_cons]

/-- The stack of the watched thread after an entry stop. -/
theorem Told.entry_step (h : w.Told pid symbols i) {stop : Stop}
    (hreport : w.Reported i (.entry stop)) (hs : w.step env i (.entry stop) = some w') :
    (w'.sys.threads i).callstack.elems =
      ⟨.syscall stop.origEax, 0⟩ :: (w.sys.threads i).callstack.elems := by
  obtain ⟨s, hstep, rfl⟩ := Option.map_eq_some_iff.mp hs
  obtain ⟨_, f', hf, rfl⟩ := Sys.step_stop_eq_some.mp hstep
  obtain ⟨ip, hhandle⟩ := handle_syscall env (f := w.sys.focus i stop) hreport.2.1
    (h.entry hreport)
  have hok := Except.ok.inj (hf.symm.trans hhandle)
  obtain ⟨_, _, _, _, hexec, _, hroom⟩ := hreport
  change ((w.sys.put i f').threads i).callstack.elems = _
  rw [Sys.threads_put_self, hok, thr_processSyscall, if_neg (by rw [hexec]; decide)]
  exact Callstack.elems_push_of_lt hroom _

/-- A trap keeps the frames of system calls off the stack. -/
theorem Told.trap_step (h : w.Told pid symbols i) {stop : Stop}
    (hreport : w.Reported i (.trap stop)) (hs : w.step env i (.trap stop) = some w') :
    (w'.sys.threads i).callstack.OnlyCalls := by
  obtain ⟨s, hstep, rfl⟩ := Option.map_eq_some_iff.mp hs
  obtain ⟨_, f', hf, rfl⟩ := Sys.step_stop_eq_some.mp hstep
  obtain ⟨ip, hhandle⟩ := handle_breakpoint env (f := w.sys.focus i stop) hreport.2.1
    hreport.2.2.1 (h.trap hreport)
  obtain ⟨hhit, _⟩ := processBreakpoint_hit (hhandle.symm.trans hf)
  change ((w.sys.put i f').threads i).callstack.OnlyCalls
  rw [Sys.threads_put_self]
  exact hhit.onlyCalls (h.outside hreport.1)

/-- Everything else leaves the stack of the watched thread alone. -/
theorem other_step {input : Input ι}
    (hreport : w.Reported i (.other input)) (hs : w.step env i (.other input) = some w') :
    (w'.sys.threads i).callstack = (w.sys.threads i).callstack := by
  obtain ⟨s, hstep, rfl⟩ := Option.map_eq_some_iff.mp hs
  cases input with
  | interrupt =>
    cases hstep
    rfl
  | store mem =>
    cases hstep
    rfl
  | stop j stop =>
    obtain ⟨_, f', hf, rfl⟩ := Sys.step_stop_eq_some.mp hstep
    change ((w.sys.put j f').threads i).callstack = _
    by_cases hj : j = i
    · subst hj
      rw [Sys.threads_put_self]
      exact callstack_of_not_trap (f := w.sys.focus j stop) (hreport rfl) hf
    · rw [Sys.threads_put_of_ne w.sys (Ne.symm hj)]

/-- One report keeps the stack telling. -/
theorem Told.step {report : Report ι} (h : w.Told pid symbols i)
    (hreport : w.Reported i report) (hs : w.step env i report = some w') :
    w'.Told pid symbols i := by
  obtain ⟨s, hstep, hw'⟩ := Option.map_eq_some_iff.mp (id hs)
  have hsteady : w'.sys.Steady pid symbols := hw' ▸ h.steady.step hstep
  have hkept : w.sys.tracee.proc.breakpointsEnabled ≠ -1 →
      w'.sys.tracee.proc.breakpointsEnabled ≠ -1 :=
    fun hbe => hw' ▸ h.steady.enabled_step hbe hstep
  have hinside : w'.inside = w.insideAfter i report := hw' ▸ rfl
  cases report with
  | entry stop =>
    have helems := h.entry_step hreport hs
    obtain ⟨hout, hbe, _, _, hexec, hfork, _⟩ := hreport
    refine ⟨hsteady, fun _ => hkept hbe, ?_, ?_⟩
    · rw [hinside]
      rintro ⟨⟩
    · rw [hinside]
      rintro n cs ⟨⟩
      exact ⟨hfork, hexec, h.outside hout, helems⟩
  | exit stop =>
    refine ⟨hsteady, fun hin => (hin hinside).elim, fun _ => ?_, ?_⟩
    · obtain ⟨cs, hin⟩ := hreport.1
      have hl := (Sys.step_stop_eq_some.mp hstep).1
      obtain ⟨w'', hs'', hcs⟩ := h.exit_step env hreport hin hl
      cases hs.symm.trans hs''
      rw [hcs]
      exact (h.inside _ _ hin).2.2.1
    · rw [hinside]
      rintro n cs ⟨⟩
  | trap stop =>
    refine ⟨hsteady, fun _ => hkept hreport.2.1, fun _ => h.trap_step hreport hs, ?_⟩
    rw [hinside]
    intro n cs hin
    cases hreport.1.symm.trans hin
  | other input =>
    have hcs := other_step hreport hs
    refine ⟨hsteady, fun hin => hkept (h.planted fun hout => hin (hinside.trans hout)), ?_, ?_⟩
    · rw [hinside, hcs]
      exact h.outside
    · rw [hinside, hcs]
      exact h.inside

end

end Watched

/-- For every thread of a process, starting with an empty call stack, and every run of what the
kernel reports for it: `syscall_p` answers 1 at every entry stop, 2 at every exit stop and 0
at every trap, and an exit stop is handled and leaves the call stack the thread had before
the matching entry stop. -/
theorem syscalls_told_apart (env : Env) (filename : String) (pid : Pid) (mem : Addr → Byte)
    (tid : ι → Pid) {inputs : List (Input ι)} {s : Sys ι}
    (hstart : Run (Sys.step env) (fun _ _ => True) (Sys.opened env filename pid mem tid) inputs s)
    {i : ι} (hempty : (s.threads i).callstack = .empty) {reports : List (Report ι)}
    {w : Watched ι}
    (hr : Run (Watched.step env i) (Watched.Reported i) ⟨s, none⟩ reports w) :
    (∀ stop, w.Reported i (.entry stop) → syscallP (w.sys.threads i) stop = 1) ∧
    (∀ stop, w.Reported i (.exit stop) → syscallP (w.sys.threads i) stop = 2 ∧
      ∀ n cs, w.inside = some (n, cs) →
        (w.sys.listed = true → ∃ w', w.step env i (.exit stop) = some w') ∧
        ∀ w', w.step env i (.exit stop) = some w' → (w'.sys.threads i).callstack = cs) ∧
    ∀ stop, w.Reported i (.trap stop) → syscallP (w.sys.threads i) stop = 0 := by
  have hsteady : s.Steady pid (symbolsOf env (some filename)) :=
    hstart.invariant (Sys.Steady.opened ..) fun _ _ _ h _ hs => h.step hs
  have hopened : (⟨s, none⟩ : Watched ι).Told pid (symbolsOf env (some filename)) i := by
    refine ⟨hsteady, fun hin => (hin rfl).elim, fun _ => ?_, ?_⟩
    · rw [hempty]
      intro elem hmem
      cases hmem
    · rintro n cs ⟨⟩
  have htold := hr.invariant hopened fun _ _ _ h hreport hs => h.step hreport hs
  refine ⟨fun _ => htold.entry, fun stop hreport => ⟨htold.exit hreport, ?_⟩, fun _ => htold.trap⟩
  intro n cs hinside
  constructor
  · intro hl
    obtain ⟨w', hw', _⟩ := htold.exit_step env hreport hinside hl
    exact ⟨w', hw'⟩
  · intro w' hw'
    obtain ⟨s', hstep, _⟩ := Option.map_eq_some_iff.mp hw'
    obtain ⟨w'', hw'', hcs⟩ :=
      htold.exit_step env hreport hinside (Sys.step_stop_eq_some.mp hstep).1
    cases hw'.symm.trans hw''
    exact hcs

/-- A program makes one system call between two traps of a call of `f`. -/
theorem syscalls_told_apart_call :
    ∃ w : Watched Unit,
      Run (Watched.step twoFunctions ()) (Watched.Reported ())
        ⟨Sys.opened twoFunctions "a.out" 7 nops fun _ => 7, none⟩
        [.other (.stop () (trapStop 0x3000)), .trap (trapStop 0x1000 0x3000),
          .trap (trapStop 0x1000), .entry { trapStop 0x1004 with origEax := 4 }] w ∧
      syscallP (w.sys.threads ()) { trapStop 0x1004 with origEax := 4 } = 2 := by
  have hobs : (runInputs (Watched.step twoFunctions ())
      (fun w report => decide (w.Reported () report))
      ⟨Sys.opened twoFunctions "a.out" 7 nops fun _ : Unit => 7, none⟩
      [.other (.stop () (trapStop 0x3000)), .trap (trapStop 0x1000 0x3000),
        .trap (trapStop 0x1000), .entry { trapStop 0x1004 with origEax := 4 }]).any
      (fun w => w.inside.map Prod.fst == some 4) = true := by
    decide +kernel
  obtain ⟨w, hr, hw⟩ := exists_run_of_observe (fun _ _ h => of_decide_eq_true h) hobs
  obtain ⟨⟨n, cs⟩, hinside, hn⟩ := Option.map_eq_some_iff.mp (beq_iff_eq.mp hw)
  cases hn
  have htold := syscalls_told_apart twoFunctions "a.out" 7 nops (fun _ => 7) .nil
    (i := ()) rfl hr
  exact ⟨w, hr, (htold.2.1 { trapStop 0x1004 with origEax := 4 } ⟨⟨cs, hinside⟩, rfl⟩).1⟩

end Utrace
