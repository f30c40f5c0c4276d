import Utrace.Interpretation.Counted
import Utrace.Interpretation.Planted

/-!
# Threads whose traps are handled

Once the first event of a process is over, and while the references of its symbols and of
the frames of a thread are counted, every trap of the thread outside a system call comes
to an end, and leaves the thread as it was in this respect.
-/

namespace Utrace

variable {ι : Type*} [DecidableEq ι]

/-- A trap of the processor outside every system call. -/
def Stop.IsTrap (stop : Stop) : Prop := stop.status = .stopped sigtrap ∧ stop.origEax = -1

/-- A trap leaves the list of symbols alone. -/
theorem Hit.symbols_eq {env : Env} {f f' : Focus} {stop : Stop} {brk : Addr}
    (h : Hit env f stop brk f') :
    f'.tracee.proc.listOfSymbols = f.tracee.proc.listOfSymbols := by
  change f'.tracee.header.listOfSymbols = f.tracee.header.listOfSymbols
  rw [h.header_eq]

/-- A thread whose traps are handled: the first event is over, and the references of the
symbols and of its frames are counted. -/
structure Sys.Ready (s : Sys ι) (i : ι) : Prop where
  listed : s.listed = true
  started : s.tracee.proc.breakpointsEnabled ≠ -1
  pushed : (s.threads i).callstack.Pushed
  counted : ∀ a, (symbolRefs s.tracee.proc.listOfSymbols a : Int) +
    frameRefs (s.threads i).callstack.elems a ≤ s.tracee.enabledAt a

omit [DecidableEq ι] in
/-- In every run, a thread is ready once the first event is over. -/
theorem Sys.Counted.ready [Fintype ι] {pid : Pid} {symbols : List LibrarySymbol} {s : Sys ι}
    (h : s.Counted) (hsteady : s.Steady pid symbols) (hlisted : s.listed = true)
    (hstarted : s.tracee.proc.breakpointsEnabled ≠ -1) (i : ι) : s.Ready i :=
  ⟨hlisted, hstarted, hsteady.pushed i, h.one_le i⟩

/-- A trap that is handled leaves the thread ready. -/
theorem Sys.Ready.trapped {s s' : Sys ι} {i : ι} {env : Env} {stop : Stop} (h : s.Ready i)
    (htrap : stop.IsTrap) (hs : s.step env (.stop i stop) = some s') :
    ∃ f', s' = s.put i f' ∧ s'.Ready i ∧
      Hit env (s.focus i stop) stop (stop.eip - decrPcAfterBreak) f' := by
  obtain ⟨hstatus, horig⟩ := htrap
  obtain ⟨_, f', hhandle, rfl⟩ := Sys.step_stop_eq_some.mp hs
  have hhandle : handle env (s.focus i stop) stop = .ok f' := hhandle
  have hsys := h.pushed.syscallP_eq_zero hstatus horig
  obtain ⟨ip, hevent⟩ := handle_breakpoint env (f := s.focus i stop) h.started hstatus hsys
  obtain ⟨hhit, _, hlisted, _⟩ := processBreakpoint_hit (hevent.symm.trans hhandle)
  have hhit := hhit.of_withIp
  have hpushed := (handle_effect hhandle).1.pushed h.pushed
  have hsymbols : f'.tracee.proc.listOfSymbols = s.tracee.proc.listOfSymbols := hhit.symbols_eq
  refine ⟨f', rfl, ⟨?_, ?_, ?_, ?_⟩, hhit⟩
  · exact hlisted.trans h.listed
  · change f'.tracee.proc.breakpointsEnabled ≠ -1
    rw [hhit.breakpointsEnabled]
    exact h.started
  · rw [Sys.threads_put_self]
    exact hpushed
  · intro a
    have hcounted := h.counted a
    have hbalance := hhit.balance a
    rw [Sys.threads_put_self]
    change (symbolRefs f'.tracee.proc.listOfSymbols a : Int) + _ ≤ f'.tracee.enabledAt a
    change f'.tracee.enabledAt a - _ = s.tracee.enabledAt a -
      (frameRefs (s.threads i).callstack.elems a : Int) at hbalance
    rw [hsymbols]
    omega

/-- A trap is handled and leaves the thread ready, unless the frame of a system call returns
there. -/
theorem Sys.Ready.trap {s : Sys ι} {i : ι} {stop : Stop} (h : s.Ready i) (env : Env)
    (htrap : stop.IsTrap)
    (hframe : (s.threads i).breakpointBeingEnabled ≠ none ∨ ∀ n m,
      (s.threads i).callstack.returning (stop.eip - decrPcAfterBreak) = some n →
      (s.threads i).callstack.elems[n]?.map CallstackElement.cUn ≠ some (.syscall m)) :
    ∃ f', s.step env (.stop i stop) = some (s.put i f') ∧ (s.put i f').Ready i ∧
      Hit env (s.focus i stop) stop (stop.eip - decrPcAfterBreak) f' := by
  have hsys := h.pushed.syscallP_eq_zero htrap.1 htrap.2
  obtain ⟨ip, hevent⟩ := handle_breakpoint env (f := s.focus i stop) h.started htrap.1 hsys
  have hcovered : ((s.focus i stop).withIp ip).Covered := Focus.covered_of_le h.counted
  have hok : ∃ f', processBreakpoint env ((s.focus i stop).withIp ip) stop
      (stop.eip - decrPcAfterBreak) = .ok f' := by
    rcases hframe with hbeing | hframe
    · obtain ⟨f', hok, _⟩ := processBreakpoint_passed env stop (stop.eip - decrPcAfterBreak)
        (f := (s.focus i stop).withIp ip) (Or.inl hbeing)
      exact ⟨f', hok⟩
    · rcases processBreakpoint_exists env stop (stop.eip - decrPcAfterBreak) hcovered with
        hok | ⟨_, n, m, hreturning, hsyscall⟩
      · exact hok
      · exact absurd hsyscall (hframe n m hreturning)
  obtain ⟨f', hok⟩ := hok
  have hs : s.step env (.stop i stop) = some (s.put i f') :=
    Sys.step_stop_eq_some.mpr ⟨h.listed, f', hevent.trans hok, rfl⟩
  obtain ⟨f'', hput, hready, hhit⟩ := h.trapped htrap hs
  exact ⟨f'', hput ▸ hs, hput ▸ hready, hhit⟩

end Utrace
