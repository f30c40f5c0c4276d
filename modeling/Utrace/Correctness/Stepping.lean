import Utrace.Interpretation.Counted

/-!
# A trap that was executed is executed again

A thread that ran into a planted trap has to be put back on the instruction the trap
replaced. `process_breakpoint` does so when it takes the stop for a hit; it takes any
trap for the end of a step while a step is pending, and a signal can leave one pending.
-/

namespace Utrace

variable {ι : Type*}

/-- A thread stops because it executed the trap utrace planted at `a`. -/
structure Sys.TrapHit (s : Sys ι) (a : Addr) (stop : Stop) : Prop where
  status : stop.status = .stopped sigtrap
  /-- The thread is in no system call. -/
  origEax : stop.origEax = -1
  eip : stop.eip = a + decrPcAfterBreak
  entry : ∃ sbp, s.tracee.entry a = some sbp ∧ 0 < sbp.enabled ∧ sbp.origValue 0 ≠ none
  mem : s.tracee.mem a = trap

/-- Whenever the event is handled, the thread is resumed at `a`. -/
def Sys.ResumedAt (env : Env) (s : Sys ι) (i : ι) (stop : Stop) (a : Addr) : Prop :=
  ∀ f', s.event env i stop = .ok f' → f'.requests.head?.map (fun r => r.2.2) = some a

/-- The address behind a trap is not the trap's own. -/
theorem add_decrPcAfterBreak_ne (a : Addr) : a + decrPcAfterBreak ≠ a := by
  unfold decrPcAfterBreak
  bv_omega

/-- A planted trap is handed to `process_breakpoint` with its own address. -/
theorem Sys.TrapHit.event_eq (env : Env) {pid : Pid} {symbols : List LibrarySymbol} {s : Sys ι}
    {a : Addr} {stop : Stop} (h : s.TrapHit a stop) (hsteady : s.Steady pid symbols) (i : ι) :
    ∃ ip, s.event env i stop =
      processBreakpoint env ((s.focus i stop).withIp ip) stop a := by
  have hbe : s.tracee.proc.breakpointsEnabled ≠ -1 := by
    intro hminus
    obtain ⟨sbp, hentry, _, hsaved⟩ := h.entry
    have hnone := hsteady.unplanted hminus a
    rw [Tracee.cell, hentry] at hnone
    exact hsaved (by simpa using hnone)
  obtain ⟨_, ip, hip⟩ := hsteady.breakpoint_event env hbe h.status h.origEax i
  refine ⟨ip, hip.trans ?_⟩
  rw [h.eip, add_sub_cancel_right]

/-- The thread is put back exactly when no step is pending and the trap belongs to a frame
or to a symbol. -/
theorem Sys.TrapHit.resumedAt_iff (env : Env) {pid : Pid} {symbols : List LibrarySymbol}
    {s : Sys ι} {a : Addr} {stop : Stop} (h : s.TrapHit a stop) (hsteady : s.Steady pid symbols)
    (i : ι) :
    s.ResumedAt env i stop a ↔ (s.threads i).breakpointBeingEnabled = none ∧
      ((s.threads i).callstack.returning a ≠ none ∨ symbolAt s.tracee.proc a ≠ none) := by
  obtain ⟨ip, hevent⟩ := h.event_eq env hsteady i
  constructor
  · intro hres
    by_contra hnot
    have hpassed : ((s.focus i stop).withIp ip).thr.breakpointBeingEnabled ≠ none ∨
        ((s.focus i stop).withIp ip).thr.callstack.returning a = none ∧
          symbolAt ((s.focus i stop).withIp ip).tracee.proc a = none := by
      by_cases hbeing : (s.threads i).breakpointBeingEnabled = none
      · refine Or.inr ⟨?_, ?_⟩
        · exact not_not.mp fun hret => hnot ⟨hbeing, Or.inl hret⟩
        · exact not_not.mp fun hsym => hnot ⟨hbeing, Or.inr hsym⟩
      · exact Or.inl hbeing
    obtain ⟨f', hok, hreq⟩ := processBreakpoint_passed env stop a hpassed
    have ha := hres f' (hevent.trans hok)
    rw [hreq] at ha
    change some stop.eip = some a at ha
    rw [h.eip] at ha
    exact add_decrPcAfterBreak_ne a (Option.some.inj ha)
  · rintro ⟨hbeing, hfound⟩ f' hok
    rw [hevent] at hok
    cases (processBreakpoint_hit hok).1 with
    | rearm b hsome => cases hbeing.symm.trans hsome
    | ret _ _ _ _ _ _ _ hoff => rw [hoff.requests]; rfl
    | entry _ _ _ _ _ hoff => rw [hoff.requests]; rfl
    | stray _ hret hsym =>
      rcases hfound with hne | hne
      · exact (hne hret).elim
      · exact (hne hsym).elim

/-- A counted entry in use belongs to a frame or to a symbol. -/
theorem Sys.Counted.owned {s : Sys Unit} (h : s.Counted) {a : Addr}
    (hpos : 0 < s.tracee.enabledAt a) :
    (s.threads ()).callstack.returning a ≠ none ∨ symbolAt s.tracee.proc a ≠ none := by
  have hcount := h.refs_unit a
  by_cases hsym : symbolRefs s.tracee.proc.listOfSymbols a = 0
  · have hframes : 0 < frameRefs (s.threads ()).callstack.elems a := by omega
    exact Or.inl (Callstack.returning_ne_none hframes)
  · exact Or.inr (symbolRefs_eq_zero_iff.not.mp hsym)

/-- In every run of a process with one thread, signals included, a thread that executed a
planted trap is put back exactly when no step is pending and the trap belongs to a frame or a
symbol. Outside forks every planted trap does, and the event is then always handled. -/
theorem trap_resumed_at_entry_iff (env : Env) (filename : String) (pid : Pid)
    (orig : Addr → Byte) {inputs : List (Input Unit)} {s : Sys Unit}
    (hr : Run (Sys.step env) (fun _ _ => True)
      (Sys.opened env filename pid orig fun _ => pid) inputs s)
    {a : Addr} {stop : Stop} (hhit : s.TrapHit a stop) :
    (s.ResumedAt env () stop a ↔ (s.threads ()).breakpointBeingEnabled = none ∧
      ((s.threads ()).callstack.returning a ≠ none ∨ symbolAt s.tracee.proc a ≠ none)) ∧
    (Run (Sys.step env) (fun s input => s.forkOrExecExit env input = false)
        (Sys.opened env filename pid orig fun _ => pid) inputs s →
      (s.ResumedAt env () stop a ↔ (s.threads ()).breakpointBeingEnabled = none) ∧
      (a ≠ 0 → ∃ f', s.event env () stop = .ok f')) := by
  have hsteady : s.Steady pid (symbolsOf env (some filename)) :=
    hr.invariant (Sys.Steady.opened ..) fun _ _ _ ht _ hs => ht.step hs
  have hiff := hhit.resumedAt_iff env hsteady ()
  refine ⟨hiff, fun hr' => ?_⟩
  obtain ⟨_, hcounted⟩ := hr'.counted
  constructor
  · have howned := hcounted.owned (a := a) (by
      obtain ⟨sbp, hentry, hpos, _⟩ := hhit.entry
      simpa [Tracee.enabledAt, hentry] using hpos)
    rw [hiff]
    exact ⟨And.left, fun hnone => ⟨hnone, howned⟩⟩
  · intro ha
    obtain ⟨ip, hevent⟩ := hhit.event_eq env hsteady ()
    have hcovered := hcounted.covered () stop
    rcases processBreakpoint_exists env stop a
      (f := (s.focus () stop).withIp ip) ⟨hcovered.frames, hcovered.symbols⟩ with
      ⟨f', hok⟩ | ⟨_, n, m, hret, hcUn⟩
    · exact ⟨f', hevent.trans hok⟩
    · exact (hcounted.not_syscall hret ha hcUn).elim

/-- A signal arrives while the step over the entry of `f` is pending, and its handler calls
`g`: the thread is resumed one byte into `g`. -/
theorem trap_skipped_after_signal :
    ¬∀ (env : Env) (filename : String) (pid : Pid) (orig : Addr → Byte)
      (inputs : List (Input Unit)) (s : Sys Unit) (a : Addr) (stop : Stop),
      Run (Sys.step env) (fun _ _ => True)
        (Sys.opened env filename pid orig fun _ => pid) inputs s →
      s.TrapHit a stop → s.ResumedAt env () stop a := by
  intro hclaim
  let inputs : List (Input Unit) := [.stop () (trapStop 0x3000),
    .stop () (trapStop 0x1000 0x3000), .stop () { status := .stopped 10 }]
  have hobs : (runInputs (Sys.step twoFunctions) (fun _ _ => true)
      (Sys.opened twoFunctions "a.out" 7 nops fun _ : Unit => 7) inputs).any (fun s =>
        s.tracee.mem 0x2000 == trap &&
        (s.tracee.entry 0x2000).any (fun sbp => sbp.enabled == 1 && sbp.origValue 0 != none) &&
        (s.event twoFunctions () (trapStop 0x2000)).toOption.any (fun f' =>
          f'.requests.head?.map (fun r => r.2.2) == some 0x2001)) = true := by
    decide +kernel
  obtain ⟨s, hr, hs⟩ := exists_run_of_observe (fun _ _ _ => trivial) hobs
  simp only [Bool.and_eq_true, beq_iff_eq, Option.any_eq_true, bne_iff_ne] at hs
  obtain ⟨⟨hmem, sbp, hentry, henabled, hsaved⟩, f', hf', hreq⟩ := hs
  have hhit : s.TrapHit 0x2000 (trapStop 0x2000) :=
    ⟨rfl, rfl, rfl, ⟨sbp, hentry, by omega, hsaved⟩, hmem⟩
  have hok : s.event twoFunctions () (trapStop 0x2000) = .ok f' := Sys.eq_ok_of_toOption hf'
  have hat := hclaim twoFunctions "a.out" 7 nops inputs s 0x2000 (trapStop 0x2000) hr hhit f' hok
  rw [hreq] at hat
  exact absurd (Option.some.inj hat) (by decide)

/-- Without the signal the entry of `f` is put back. -/
theorem trap_resumed_at_entry_iff_call :
    ∃ s, Run (Sys.step twoFunctions) (fun _ _ => True)
        (Sys.opened twoFunctions "a.out" 7 nops fun _ : Unit => 7)
        [.stop () (trapStop 0x3000)] s ∧
      s.TrapHit 0x1000 (trapStop 0x1000 0x3000) ∧
      s.ResumedAt twoFunctions () (trapStop 0x1000 0x3000) 0x1000 := by
  have hobs : (runInputs (Sys.step twoFunctions) (fun _ _ => true)
      (Sys.opened twoFunctions "a.out" 7 nops fun _ : Unit => 7)
      [.stop () (trapStop 0x3000)]).any (fun s =>
        s.tracee.mem 0x1000 == trap &&
        (s.tracee.entry 0x1000).any (fun sbp => sbp.enabled == 1 && sbp.origValue 0 != none) &&
        (s.threads ()).breakpointBeingEnabled == none &&
        (symbolAt s.tracee.proc 0x1000).isSome) = true := by
    decide +kernel
  obtain ⟨s, hr, hs⟩ := exists_run_of_observe (fun _ _ _ => trivial) hobs
  simp only [Bool.and_eq_true, beq_iff_eq, Option.any_eq_true, bne_iff_ne] at hs
  obtain ⟨⟨⟨hmem, sbp, hentry, henabled, hsaved⟩, hbeing⟩, hsym⟩ := hs
  have hhit : s.TrapHit 0x1000 (trapStop 0x1000 0x3000) :=
    ⟨rfl, rfl, rfl, ⟨sbp, hentry, by omega, hsaved⟩, hmem⟩
  refine ⟨s, hr, hhit, (trap_resumed_at_entry_iff _ _ _ _ hr hhit).1.mpr ⟨hbeing, Or.inr ?_⟩⟩
  exact Option.ne_none_iff_isSome.mpr hsym

end Utrace
