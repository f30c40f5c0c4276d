import Utrace.Interpretation.Effect

/-!
# Entries of traced functions, and the stack pointer

The thread keeps one stack pointer, that of its last entry of a traced function. Every event
pops frames of the call stack or pushes one.
-/

namespace Utrace

/-- `continue_after_breakpoint` leaves the stack pointer and the trace alone. -/
theorem stackPointer_continueAfterBreakpointAt {env : Env} {f f' : Focus} {brk : Addr}
    (h : continueAfterBreakpointAt env f brk = .ok f') :
    f'.thr.stackPointer = f.thr.stackPointer ∧ f'.output = f.output := by
  unfold continueAfterBreakpointAt at h
  cases hlookup : address2bpstruct f.tracee brk with
  | error halt => simp [hlookup, Except.bind] at h
  | ok found =>
    simp only [hlookup, Except.bind] at h
    cases found with
    | none => cases h
    | some sbp =>
      by_cases hz : sbp.enabled = 0
      · simp only [continueAfterBreakpoint, hz, ne_eq, not_true_eq_false, if_false, if_true,
          Except.ok.injEq] at h
        exact h ▸ ⟨rfl, rfl⟩
      · simp only [continueAfterBreakpoint, hz, ne_eq, not_false_eq_true, if_false, if_true,
          Except.ok.injEq] at h
        exact h ▸ ⟨rfl, rfl⟩

/-- The thread whose result is written when the call `n` frames down returns to an address. -/
def Thread.returned (thr : Thread) (brk : Addr) (n : Nat) : Thread :=
  { thr with callstack := Callstack.pop^[n + 1] thr.callstack, returnAddr := brk }

/-- A return writes the result of its call, and leaves the stack pointer alone. -/
theorem stackPointer_processReturn {env : Env} {f f' : Focus} {brk : Addr} {n : Nat}
    (h : processReturn env f brk n = .ok f') :
    f'.thr.stackPointer = f.thr.stackPointer ∧ ∃ sym : LibrarySymbol,
      f.thr.callstack.elems[n]?.map CallstackElement.cUn = some (.libfunc sym) ∧
      f'.output = outputRight env f.output (f.thr.returned brk n) sym.name := by
  obtain ⟨f₂, sym, hpop, hsym, h⟩ := processReturn_ok h
  obtain ⟨hsp, hout⟩ := stackPointer_continueAfterBreakpointAt h
  have hthr := congrArg Focus.thr hpop.focus
  have hbefore := congrArg Focus.output hpop.focus
  have hkept := congrArg Thread.stackPointer hthr
  refine ⟨hsp.trans hkept, sym, hsym, ?_⟩
  rw [hout]
  change outputRight env f₂.output { f₂.thr with returnAddr := brk } sym.name = _
  rw [hbefore, hthr]
  rfl

/-- The traced function that a trap at an address enters, if it enters one. -/
def Focus.enteringAt (f : Focus) (brk : Addr) : Option LibrarySymbol :=
  if f.thr.breakpointBeingEnabled = none ∧ f.thr.callstack.returning brk = none then
    symbolAt f.tracee.proc brk
  else none

/-- A trap leaves the stack pointer at which the thread entered its last traced function. -/
theorem stackPointer_processBreakpoint {env : Env} {f f' : Focus} {stop : Stop} {brk : Addr}
    (h : processBreakpoint env f stop brk = .ok f') :
    f'.thr.stackPointer =
      if (f.enteringAt brk).isSome then stop.uesp else f.thr.stackPointer := by
  unfold processBreakpoint at h
  unfold Focus.enteringAt
  cases hbeing : f.thr.breakpointBeingEnabled with
  | some a =>
    simp only [hbeing, Except.ok.injEq] at h
    rw [← h]
    simp [continueEnablingBreakpoint, continueProcess, continueAfterSignal, Focus.request]
  | none =>
    cases hreturning : f.thr.callstack.returning brk with
    | some n =>
      simp only [hbeing, hreturning] at h
      simpa using (stackPointer_processReturn h).1
    | none =>
      cases hsym : symbolAt f.tracee.proc brk with
      | some sym =>
        simp only [hbeing, hreturning, hsym, processEntry] at h
        have hsp := (stackPointer_continueAfterBreakpointAt h).1
        rw [hsp]
        unfold callstackPushSymfunc
        split <;> simp
      | none =>
        simp only [hbeing, hreturning, hsym, Except.ok.injEq] at h
        rw [← h]
        simp [continueProcess, continueAfterSignal, Focus.request]

/-- The tags and payloads of the frames of a thread, innermost first. -/
def Thread.frames (thr : Thread) : List CUn := thr.callstack.elems.map CallstackElement.cUn

/-- The fork branch of an exit stop changes nothing of the thread but a return address. -/
theorem thr_sysretFork {env : Env} {f f₁ : Focus} {stop : Stop} {n : Int}
    (h : sysretFork env f stop n = .ok f₁) :
    f₁.thr.stackPointer = f.thr.stackPointer ∧ f₁.thr.frames = f.thr.frames := by
  refine ⟨?_, map_cUn_sysretFork h⟩
  unfold sysretFork at h
  split at h
  · have hthr : ∀ calls : List Call,
        (if 0 < stop.eax then { f with calls := calls } else f).thr = f.thr := by
      intro calls
      split <;> rfl
    unfold enableAllBreakpointsThread at h
    split at h
    · rw [← Except.ok.inj h, hthr]
    · split at h
      · cases h
      · have hsp := congrArg Thread.stackPointer (hthr (.openPid stop.eax :: f.calls))
        rw [← Except.ok.inj h]
        exact hsp
  · rw [Except.ok.inj h]

/-- The exit of a system call leaves the stack pointer alone, and pops the frame of the system
call unless that was an `execve`. -/
theorem thr_processSysret {env : Env} {f f' : Focus} {stop : Stop} {n : Int}
    (h : processSysret env f stop n = .ok f') :
    f'.thr.stackPointer = f.thr.stackPointer ∧
      f'.thr.frames = if execP n then f.thr.frames else f.thr.frames.tail := by
  obtain ⟨f₁, f₂, hfork, hf₂, hthr, _⟩ := processSysret_ok h
  obtain ⟨hsp, hframes⟩ := thr_sysretFork hfork
  rw [hthr]
  split at hf₂
  · rename_i hexec
    rw [if_pos hexec, ← Except.ok.inj hf₂, thr_sysretClone]
    exact ⟨hsp, hframes⟩
  · rename_i hexec
    have hpopped : f₂.thr = { f₁.thr with callstack := f₁.thr.callstack.pop } := by
      have hfocus := congrArg Focus.thr (callstackPop_ok hf₂).focus
      rw [thr_sysretClone] at hfocus
      exact hfocus
    rw [if_neg hexec, hpopped]
    refine ⟨hsp, ?_⟩
    change f₁.thr.callstack.elems.tail.map CallstackElement.cUn = _
    rw [List.map_tail]
    exact congrArg List.tail hframes

/-- The traced function that an event enters, if it enters one. -/
def Focus.entering (env : Env) (f : Focus) (stop : Stop) : Option LibrarySymbol :=
  match (waitForSomething env f stop).2 with
  | .breakpoint brk => f.enteringAt brk
  | _ => none

/-- The stack pointer of the thread changes at the entry of a traced function only. -/
theorem stackPointer_handle {env : Env} {f f' : Focus} {stop : Stop}
    (h : handle env f stop = .ok f') :
    f'.thr.stackPointer =
      if (f.entering env stop).isSome then stop.uesp else f.thr.stackPointer := by
  unfold Focus.entering
  cases handle_cases h with
  | first hbe h =>
    rw [waitForSomething_first hbe, h]
    rfl
  | syscall ip _ _ hclass h =>
    rw [hclass, h, thr_processSyscall]
    rfl
  | sysret ip _ _ hclass h =>
    rw [hclass]
    exact (thr_processSysret h).1
  | exit _ _ _ _ hclass h =>
    rw [hclass, h]
    rfl
  | exitSignal _ _ _ _ hclass h =>
    rw [hclass, h]
    rfl
  | signal _ _ _ _ _ hclass h =>
    rw [hclass, h, thr_processSignal]
    rfl
  | breakpoint ip _ _ _ hclass h =>
    rw [hclass]
    exact stackPointer_processBreakpoint (f := f.withIp ip) h

/-- An event pops frames or pushes one. A call is pushed where its function is entered. -/
theorem frames_handle {env : Env} {f f' : Focus} {stop : Stop} (h : handle env f stop = .ok f') :
    (∃ n, f'.thr.frames = f.thr.frames.drop n) ∨
      ∃ c, f'.thr.frames = c :: f.thr.frames ∧
        ((∃ n, c = .syscall n) ∨ (f.entering env stop).isSome) := by
  have hsame : f'.thr.callstack = f.thr.callstack →
      (∃ n, f'.thr.frames = f.thr.frames.drop n) ∨ ∃ c, f'.thr.frames = c :: f.thr.frames ∧
        ((∃ n, c = .syscall n) ∨ (f.entering env stop).isSome) := by
    intro hcs
    exact Or.inl ⟨0, by rw [Thread.frames, hcs, List.drop_zero, Thread.frames]⟩
  have hpush : ∀ elem, f'.thr.callstack = f.thr.callstack.push elem →
      ((∃ n, elem.cUn = .syscall n) ∨ (f.entering env stop).isSome) →
      (∃ n, f'.thr.frames = f.thr.frames.drop n) ∨ ∃ c, f'.thr.frames = c :: f.thr.frames ∧
        ((∃ n, c = .syscall n) ∨ (f.entering env stop).isSome) := by
    intro elem hcs hwhy
    rcases f.thr.callstack.push_cases elem with ⟨_, hfull⟩ | ⟨_, helems⟩
    · exact hsame (hcs.trans hfull)
    · refine Or.inr ⟨elem.cUn, ?_, hwhy⟩
      rw [Thread.frames, hcs, helems, List.map_cons, Thread.frames]
  cases handle_cases h with
  | first _ h => exact hsame (h ▸ rfl)
  | syscall ip _ _ _ h =>
    have hcs := congrArg Thread.callstack (h ▸ thr_processSyscall env (f.withIp ip) stop.origEax)
    cases hexec : execP stop.origEax with
    | true => exact hsame (by rw [hcs, hexec, if_pos rfl]; rfl)
    | false => exact hpush _ (by rw [hcs, hexec, if_neg Bool.false_ne_true]; rfl) (Or.inl ⟨_, rfl⟩)
  | sysret ip _ _ _ h =>
    have hframes := (thr_processSysret h).2
    cases hexec : execP stop.origEax with
    | true => exact Or.inl ⟨0, by rw [hframes, hexec, if_pos rfl, List.drop_zero]; rfl⟩
    | false =>
      refine Or.inl ⟨1, ?_⟩
      rw [hframes, hexec, if_neg Bool.false_ne_true, List.drop_one]
      rfl
  | exit _ _ _ _ _ h => exact hsame (h ▸ rfl)
  | exitSignal _ _ _ _ _ h => exact hsame (h ▸ rfl)
  | signal _ _ _ _ _ _ h =>
    refine hsame ?_
    rw [h, thr_processSignal]
    rfl
  | breakpoint ip _ _ _ hclass h =>
    cases (processBreakpoint_hit h).1 with
    | rearm _ _ _ hcs => exact hsame hcs
    | stray _ _ _ _ hcs => exact hsame hcs
    | ret n _ _ _ _ hcs =>
      refine Or.inl ⟨n + 1, ?_⟩
      rw [Thread.frames, hcs, elems_iterate_pop, List.map_drop]
      rfl
    | entry sym hbeing hreturning hsym hcs =>
      refine hpush _ hcs (Or.inr ?_)
      have hentering : f.entering env stop = some sym := by
        rw [Focus.entering, hclass]
        change (if f.thr.breakpointBeingEnabled = none ∧ _ then _ else _) = _
        rw [if_pos ⟨hbeing, hreturning⟩]
        exact hsym
      rw [hentering]
      rfl

end Utrace
