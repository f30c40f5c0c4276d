import Utrace.Interpretation.Counted

/-!
# The table after an `execve`

`process_syscall` does not push an `execve`, so `syscall_p` takes its exit stop for an
entry, and the branch of `process_sysret` that would rebuild the table is never reached.
-/

namespace Utrace

variable {ι : Type*} [DecidableEq ι]

/-- The tracee as the exec branch of `process_sysret` leaves it. -/
def execRebuilt (env : Env) (t : Tracee) : Tracee :=
  breakpointsInit env
    { t with proc := { t.proc with filename := env.pid2name t.proc.pid } }

/-- `breakpoints_init` leaves the flag for the next stop to plant the new table. -/
theorem breakpointsEnabled_execRebuilt (env : Env) (t : Tracee) :
    (execRebuilt env t).proc.breakpointsEnabled = -1 := rfl

/-- The exit stop of an `execve`, after the first event: nothing about the process changes. -/
theorem Sys.Steady.exec_exit {env : Env} {pid : Pid} {symbols : List LibrarySymbol}
    {s s' : Sys ι} {i : ι} {stop : Stop} (h : s.Steady pid symbols)
    (hbe : s.tracee.proc.breakpointsEnabled ≠ -1) (hstatus : stop.status = .stopped sigtrap)
    (hexec : execP stop.origEax = true) (hs : s.step env (.stop i stop) = some s') :
    s'.tracee = s.tracee := by
  obtain ⟨hl, f', hf, rfl⟩ := Sys.step_stop_eq_some.mp hs
  have hnum : stop.origEax = 11 := by simpa [execP] using hexec
  have hsys : syscallP (s.threads i) stop = 1 := by
    unfold syscallP
    rw [if_pos hstatus, if_neg ((h.pushed i).not_exec hexec), if_pos (by omega)]
  obtain ⟨ip, hip⟩ := handle_syscall env (f := s.focus i stop) hbe hsys
  have hok : f' = processSyscall env ((s.focus i stop).withIp ip) stop.origEax :=
    Except.ok.inj (hf.symm.trans hip)
  rw [hok]
  exact tracee_processSyscall env (h.enabled_ne_zero hl) stop.origEax

/-- For every reachable state, every thread, and whatever happens between the entry and the
exit of its `execve`, successful or not: the exit leaves the old table in place, and never
the table `breakpoints_init` builds from the new image. -/
theorem exec_table_never_rebuilt (env : Env) (filename : String) (pid : Pid)
    (mem : Addr → Byte) (tid : ι → Pid) {inputs between : List (Input ι)}
    {s s₁ s₂ s₃ : Sys ι} {i : ι} {entry exit : Stop}
    (hr : Run (Sys.step env) (fun _ _ => True) (Sys.opened env filename pid mem tid) inputs s)
    (hentry : s.step env (.stop i entry) = some s₁) (hentered : execP entry.origEax = true)
    (hbetween : Run (Sys.step env) (fun _ input => ∀ stop, input ≠ .stop i stop) s₁ between s₂)
    (hexit : s₂.step env (.stop i exit) = some s₃) (hstatus : exit.status = .stopped sigtrap)
    (hexited : exit.origEax = entry.origEax) :
    s₃.tracee = s₂.tracee ∧ s₃.tracee ≠ execRebuilt env s₂.tracee := by
  have hsteady : s.Steady pid (symbolsOf env (some filename)) :=
    hr.invariant (Sys.Steady.opened ..) fun _ _ _ ht _ hs => ht.step hs
  obtain ⟨hsteady₂, hbe₂⟩ := hbetween.invariant
    (P := fun s => s.Steady pid (symbolsOf env (some filename)) ∧
      s.tracee.proc.breakpointsEnabled ≠ -1)
    ⟨hsteady.step hentry, hsteady.enabled_of_stop hentry⟩
    fun _ _ _ ht _ hs => ⟨ht.1.step hs, ht.1.enabled_step ht.2 hs⟩
  have hkept := hsteady₂.exec_exit hbe₂ hstatus (hexited ▸ hentered) hexit
  refine ⟨hkept, fun hrebuilt => hbe₂ ?_⟩
  rw [← hkept, hrebuilt, breakpointsEnabled_execRebuilt]

/-- A program of two functions that executes another program with one. -/
def execProgram : Env :=
  { twoFunctions with
    readElf := fun filename =>
      if filename = "b.out" then [⟨"h", 0x5000⟩] else [⟨"f", 0x1000⟩, ⟨"g", 0x2000⟩]
    pid2name := fun _ => some "b.out" }

/-- The stop at the entry or at the successful exit of an `execve`. -/
def execStop : Stop := { status := .stopped sigtrap, origEax := 11, eax := 0 }

/-- The three stops of an `execve` right after the first event, and what is left of the table. -/
theorem execProgram_steps :
    ∃ s s₁ s₃ : Sys Unit,
      Run (Sys.step execProgram) (fun _ _ => True)
        (Sys.opened execProgram "a.out" 7 nops fun _ => 7) [.stop () (trapStop 0x3000)] s ∧
      s.step execProgram (.stop () execStop) = some s₁ ∧
      s₁.step execProgram (.stop () execStop) = some s₃ ∧
      s₃.tracee.enabledAt 0x1000 = 1 ∧ s₃.tracee.enabledAt 0x5000 = 0 ∧
      (execRebuilt execProgram s₁.tracee).enabledAt 0x1000 = 0 := by
  have hobs : (runInputs (Sys.step execProgram) (fun _ _ => true)
      (Sys.opened execProgram "a.out" 7 nops fun _ : Unit => 7)
      [.stop () (trapStop 0x3000)]).any (fun s =>
        (s.step execProgram (.stop () execStop)).any fun s₁ =>
          (s₁.step execProgram (.stop () execStop)).any fun s₃ =>
            s₃.tracee.enabledAt 0x1000 == 1 && s₃.tracee.enabledAt 0x5000 == 0 &&
              (execRebuilt execProgram s₁.tracee).enabledAt 0x1000 == 0) = true := by
    decide +kernel
  obtain ⟨s, hr, hs⟩ := exists_run_of_observe (fun _ _ _ => trivial) hobs
  simp only [Option.any_eq_true, Bool.and_eq_true, beq_iff_eq] at hs
  obtain ⟨s₁, hs₁, s₃, hs₃, ⟨hold, hnew⟩, hrebuilt⟩ := hs
  exact ⟨s, s₁, s₃, hr, hs₁, hs₃, hold, hnew, hrebuilt⟩

/-- After a successful `execve` the table still has the entry of the old image at 0x1000. -/
theorem exec_table_not_rebuilt :
    ¬∀ (env : Env) (filename : String) (pid : Pid) (mem : Addr → Byte)
      (inputs between : List (Input Unit)) (s s₁ s₂ s₃ : Sys Unit) (entry exit : Stop),
      Run (Sys.step env) (fun _ _ => True)
        (Sys.opened env filename pid mem fun _ => pid) inputs s →
      s.step env (.stop () entry) = some s₁ → execP entry.origEax = true →
      Run (Sys.step env) (fun _ input => ∀ stop, input ≠ .stop () stop) s₁ between s₂ →
      s₂.step env (.stop () exit) = some s₃ → exit.status = .stopped sigtrap →
      exit.origEax = entry.origEax → exit.eax = 0 →
      s₃.tracee = execRebuilt env s₂.tracee := by
  intro hclaim
  obtain ⟨s, s₁, s₃, hr, hentry, hexit, hold, _, hrebuilt⟩ := execProgram_steps
  have heq := hclaim execProgram "a.out" 7 nops _ [] s s₁ s₁ s₃ execStop execStop hr hentry
    (by decide) .nil hexit rfl rfl rfl
  rw [heq, hrebuilt] at hold
  cases hold

/-- The same three stops, by the general result. -/
theorem exec_table_never_rebuilt_example :
    ∃ s₁ s₃ : Sys Unit, s₁.step execProgram (.stop () execStop) = some s₃ ∧
      s₃.tracee = s₁.tracee ∧ s₃.tracee ≠ execRebuilt execProgram s₁.tracee := by
  obtain ⟨s, s₁, s₃, hr, hentry, hexit, _⟩ := execProgram_steps
  exact ⟨s₁, s₃, hexit,
    exec_table_never_rebuilt _ _ _ _ _ hr hentry (by decide) .nil hexit rfl rfl⟩

end Utrace
