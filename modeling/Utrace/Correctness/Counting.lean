import Utrace.Interpretation.Counted

/-!
# The count of every breakpoint entry

In every run without forks the enabled count of an entry is the number of symbols and
live calls that name its address, so the handlers never find a count exhausted or an
entry missing.
-/

namespace Utrace

variable {ι : Type*} [Fintype ι] [DecidableEq ι]

/-- For every address the enabled count is the number of symbols at the address plus the
number of function frames, over all threads, that return to it; and no event, whatever the
stop, fails an assertion, reads a null table or hands on a null entry. -/
theorem enabled_count_eq_references (env : Env) (filename : String) (pid : Pid)
    (mem : Addr → Byte) (tid : ι → Pid) {inputs : List (Input ι)} {s : Sys ι}
    (hr : Run (Sys.step env) (fun s input => s.forkOrExecExit env input = false)
      (Sys.opened env filename pid mem tid) inputs s) :
    (∀ a, s.tracee.enabledAt a = symbolRefs s.tracee.proc.listOfSymbols a +
      ∑ i, (frameRefs (s.threads i).callstack.elems a : Int)) ∧
    ∀ i stop, s.event env i stop ≠ .error .assertion ∧
      s.event env i stop ≠ .error .nullBreakpoint ∧ s.event env i stop ≠ .error .nullDict := by
  obtain ⟨_, hcounted⟩ := hr.counted
  refine ⟨hcounted.refs, fun i stop => ?_⟩
  unfold Sys.event
  rcases handle_exists env stop (hcounted.covered i stop) with ⟨f', hok⟩ | herr | herr
  · rw [hok]
    exact ⟨nofun, nofun, nofun⟩
  · rw [herr]
    exact ⟨nofun, nofun, nofun⟩
  · rw [herr]
    exact ⟨nofun, nofun, nofun⟩

/-- Two threads call `f` from 0x3000: the entry of the return address counts both. -/
theorem enabled_count_eq_references_calls :
    ∃ s, Run (Sys.step twoFunctions) (fun s input => s.forkOrExecExit twoFunctions input = false)
        (Sys.opened twoFunctions "a.out" 7 nops fun i : Bool => if i then 8 else 7)
        [.stop false (trapStop 0x3000), .stop true (trapStop 0x1000 0x3000),
          .stop false (trapStop 0x1000 0x3000)] s ∧
      s.tracee.enabledAt 0x3000 = 2 ∧
      s.event twoFunctions true (trapStop 0x1000) ≠ .error .assertion := by
  have hobs : (runInputs (Sys.step twoFunctions)
      (fun s input => s.forkOrExecExit twoFunctions input == false)
      (Sys.opened twoFunctions "a.out" 7 nops fun i : Bool => if i then 8 else 7)
      [.stop false (trapStop 0x3000), .stop true (trapStop 0x1000 0x3000),
        .stop false (trapStop 0x1000 0x3000)]).any
      (fun s => s.tracee.enabledAt 0x3000 == 2) = true := by
    decide +kernel
  obtain ⟨s, hr, hs⟩ := exists_run_of_observe (fun _ _ h => beq_iff_eq.mp h) hobs
  exact ⟨s, hr, beq_iff_eq.mp hs, ((enabled_count_eq_references _ _ _ _ _ hr).2 true _).1⟩

end Utrace
