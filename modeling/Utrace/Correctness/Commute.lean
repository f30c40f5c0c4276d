import Utrace.Interpretation.Counted

/-!
# Traps of two threads commute

What a trap does to the call stack of its thread is decided by that stack, the symbols and
the address alone, and it moves the count of every entry by what the stack gained or lost.
So two threads of one process may be handled in either order.
-/

namespace Utrace

/-- The call stack a trap at `brk` leaves behind. -/
def Callstack.afterTrap (cs : Callstack) (proc : Process) (brk stackTop : Addr) : Callstack :=
  match cs.returning brk with
  | some n => Callstack.pop^[n + 1] cs
  | none =>
    match symbolAt proc brk with
    | some sym => cs.push ⟨.libfunc sym, stackTop⟩
    | none => cs

/-- A breakpoint handled with none being enabled moves the callstack as the trap does. -/
theorem Hit.callstack_eq {env : Env} {f f' : Focus} {stop : Stop} {brk : Addr}
    (h : Hit env f stop brk f') (hnone : f.thr.breakpointBeingEnabled = none) :
    f'.thr.callstack = f.thr.callstack.afterTrap f.tracee.proc brk stop.stackTop := by
  unfold Callstack.afterTrap
  cases h with
  | rearm a hbeing => cases hbeing.symm.trans hnone
  | ret n _ _ hreturning _ hcs =>
    rw [hreturning]
    exact hcs
  | entry sym _ hreturning hsym hcs =>
    rw [hreturning, hsym]
    exact hcs
  | stray _ hreturning hsym _ hcs =>
    rw [hreturning, hsym]
    exact hcs

/-- Only the symbols of the process record decide about a trap. -/
theorem Callstack.afterTrap_congr {proc proc' : Process}
    (h : proc'.listOfSymbols = proc.listOfSymbols) (cs : Callstack) (brk stackTop : Addr) :
    cs.afterTrap proc' brk stackTop = cs.afterTrap proc brk stackTop := by
  unfold afterTrap symbolAt
  rw [h]

variable {ι : Type*} [DecidableEq ι]

namespace Sys

/-- `process_breakpoint` for a trap of thread `i`. -/
def processTrap (env : Env) (s : Sys ι) (i : ι) (stop : Stop) : Option (Sys ι) :=
  (processBreakpoint env (s.focus i stop) stop (stop.eip - decrPcAfterBreak)).toOption.map
    (s.put i)

/-- A trap of thread `i` that is the return of a call or the entry of a traced function. -/
def FunctionTrap (s : Sys ι) (i : ι) (stop : Stop) : Prop :=
  (∃ n sym, (s.threads i).callstack.returning (stop.eip - decrPcAfterBreak) = some n ∧
    (s.threads i).callstack.elems[n]?.map CallstackElement.cUn = some (.libfunc sym)) ∨
  (s.threads i).callstack.returning (stop.eip - decrPcAfterBreak) = none ∧
    ∃ sym, symbolAt s.tracee.proc (stop.eip - decrPcAfterBreak) = some sym

/-- What a trap of a thread without a pending step changes. -/
structure Trapped (s : Sys ι) (i : ι) (stop : Stop) (s' : Sys ι) : Prop where
  callstack : (s'.threads i).callstack = (s.threads i).callstack.afterTrap s.tracee.proc
    (stop.eip - decrPcAfterBreak) stop.stackTop
  others : ∀ j, j ≠ i → s'.threads j = s.threads j
  symbols : s'.tracee.proc.listOfSymbols = s.tracee.proc.listOfSymbols
  balance : ∀ a, s'.tracee.enabledAt a - frameRefs (s'.threads i).callstack.elems a =
    s.tracee.enabledAt a - frameRefs (s.threads i).callstack.elems a

/-- A handled trap is a `Trapped` step. -/
theorem trapped_of_processTrap {env : Env} {s s' : Sys ι} {i : ι} {stop : Stop}
    (hnone : (s.threads i).breakpointBeingEnabled = none) (h : s.processTrap env i stop = some s') :
    s.Trapped i stop s' := by
  obtain ⟨f', hf, rfl⟩ := Option.map_eq_some_iff.mp h
  obtain ⟨hhit, _⟩ := processBreakpoint_hit (Sys.eq_ok_of_toOption hf)
  refine ⟨?_, fun j hj => threads_put_of_ne s hj f', ?_, fun a => ?_⟩
  · rw [threads_put_self]
    exact hhit.callstack_eq hnone
  · have hsymbols := congrArg Process.listOfSymbols hhit.header_eq
    exact hsymbols
  · rw [threads_put_self]
    exact hhit.balance a

/-- Two traps, one after the other. -/
theorem trapped_of_traps {env : Env} {s s' : Sys ι} {i j : ι} {ti tj : Stop} (hij : i ≠ j)
    (hi : (s.threads i).breakpointBeingEnabled = none)
    (hj : (s.threads j).breakpointBeingEnabled = none)
    (h : (s.processTrap env i ti).bind (fun s => s.processTrap env j tj) = some s') :
    (s'.threads i).callstack = (s.threads i).callstack.afterTrap s.tracee.proc
      (ti.eip - decrPcAfterBreak) ti.stackTop ∧
    (s'.threads j).callstack = (s.threads j).callstack.afterTrap s.tracee.proc
      (tj.eip - decrPcAfterBreak) tj.stackTop ∧
    (∀ k, k ≠ i → k ≠ j → s'.threads k = s.threads k) ∧
    ∀ a, s'.tracee.enabledAt a - (frameRefs (s'.threads i).callstack.elems a +
        frameRefs (s'.threads j).callstack.elems a) =
      s.tracee.enabledAt a - (frameRefs (s.threads i).callstack.elems a +
        frameRefs (s.threads j).callstack.elems a) := by
  obtain ⟨s₁, h₁, h₂⟩ := Option.bind_eq_some_iff.mp h
  have hfirst := trapped_of_processTrap hi h₁
  have hother := hfirst.others j hij.symm
  have hsecond := trapped_of_processTrap (by rw [hother]; exact hj) h₂
  have hkept := hsecond.others i hij
  refine ⟨?_, ?_, fun k hki hkj => ?_, fun a => ?_⟩
  · rw [hkept]
    exact hfirst.callstack
  · rw [hsecond.callstack, hother]
    exact Callstack.afterTrap_congr hfirst.symbols _ _ _
  · rw [hsecond.others k hkj, hfirst.others k hki]
  · have hb₁ := hfirst.balance a
    have hb₂ := hsecond.balance a
    rw [hother] at hb₂
    rw [hkept]
    omega

/-- A function trap of a thread whose frames are counted is handled. -/
theorem exists_processTrap (env : Env) {s : Sys ι} {i : ι} {stop : Stop}
    (hcovered : (s.focus i stop).Covered) (htrap : s.FunctionTrap i stop) :
    ∃ s', s.processTrap env i stop = some s' := by
  unfold processTrap
  rcases processBreakpoint_exists env stop (stop.eip - decrPcAfterBreak) hcovered with
    ⟨f', hok⟩ | ⟨_, n, m, hreturning, hsys⟩
  · rw [hok]
    exact ⟨_, rfl⟩
  · rcases htrap with ⟨n', sym, hreturning', hsym⟩ | ⟨hreturning', _⟩
    · cases hreturning.symm.trans hreturning'
      cases hsys.symm.trans hsym
    · cases hreturning.symm.trans hreturning'

omit [DecidableEq ι] in
/-- The symbols and the frames of two threads are counted. -/
theorem Counted.two_le [Fintype ι] {s : Sys ι} (h : s.Counted) {i j : ι} (hij : i ≠ j)
    (a : Addr) :
    (symbolRefs s.tracee.proc.listOfSymbols a + (frameRefs (s.threads i).callstack.elems a +
      frameRefs (s.threads j).callstack.elems a) : Int) ≤ s.tracee.enabledAt a := by
  classical
  have hpair := Finset.sum_le_sum_of_subset_of_nonneg
    (f := fun k => (frameRefs (s.threads k).callstack.elems a : Int))
    (Finset.subset_univ {i, j}) fun _ _ _ => Int.natCast_nonneg _
  rw [Finset.sum_pair hij] at hpair
  rw [h.refs, references]
  omega

/-- In a counted state two function traps are handled one after the other. -/
theorem Counted.exists_traps (env : Env) [Fintype ι] {s : Sys ι} (h : s.Counted) {i j : ι}
    (hij : i ≠ j) (hi : (s.threads i).breakpointBeingEnabled = none) {ti tj : Stop}
    (hti : s.FunctionTrap i ti) (htj : s.FunctionTrap j tj) :
    ∃ s', (s.processTrap env i ti).bind (fun s => s.processTrap env j tj) = some s' := by
  obtain ⟨s₁, hs₁⟩ := exists_processTrap env (h.covered i ti) hti
  have hfirst := trapped_of_processTrap hi hs₁
  have hother := hfirst.others j hij.symm
  have hleft : ∀ a, (symbolRefs s₁.tracee.proc.listOfSymbols a +
      frameRefs (s₁.threads j).callstack.elems a : Int) ≤ s₁.tracee.enabledAt a := by
    intro a
    have htwo := h.two_le hij a
    have hbalance := hfirst.balance a
    rw [hfirst.symbols, hother]
    omega
  have hcovered : (s₁.focus j tj).Covered := Focus.covered_of_le hleft
  have htrap : s₁.FunctionTrap j tj := by
    unfold FunctionTrap symbolAt at htj ⊢
    rw [hother, hfirst.symbols]
    exact htj
  obtain ⟨s₂, hs₂⟩ := exists_processTrap env hcovered htrap
  exact ⟨s₂, by rw [hs₁]; exact hs₂⟩

end Sys

variable [Fintype ι]

/-- For every two threads of one process without a pending step and every trap of each:
handled in either order the traps end with the same call stack of every thread and the same
enabled count at every address. In every state reached without forks, the entry of a traced
function and the return of a call are handled in both orders. -/
theorem traps_commute (env : Env) (s : Sys ι) {i j : ι} (hij : i ≠ j)
    (hi : (s.threads i).breakpointBeingEnabled = none)
    (hj : (s.threads j).breakpointBeingEnabled = none) (ti tj : Stop) :
    (∀ s₁ s₂, (s.processTrap env i ti).bind (fun s => s.processTrap env j tj) = some s₁ →
      (s.processTrap env j tj).bind (fun s => s.processTrap env i ti) = some s₂ →
      (∀ k, (s₁.threads k).callstack = (s₂.threads k).callstack) ∧
        ∀ a, s₁.tracee.enabledAt a = s₂.tracee.enabledAt a) ∧
    ∀ filename pid mem tid inputs,
      Run (Sys.step env) (fun s input => s.forkOrExecExit env input = false)
        (Sys.opened env filename pid mem tid) inputs s →
      s.FunctionTrap i ti → s.FunctionTrap j tj →
      (∃ s₁, (s.processTrap env i ti).bind (fun s => s.processTrap env j tj) = some s₁) ∧
        ∃ s₂, (s.processTrap env j tj).bind (fun s => s.processTrap env i ti) = some s₂ := by
  constructor
  · intro s₁ s₂ h₁ h₂
    obtain ⟨hi₁, hj₁, hk₁, hb₁⟩ := Sys.trapped_of_traps hij hi hj h₁
    obtain ⟨hj₂, hi₂, hk₂, hb₂⟩ := Sys.trapped_of_traps hij.symm hj hi h₂
    have hi₁₂ := hi₁.trans hi₂.symm
    have hj₁₂ := hj₁.trans hj₂.symm
    constructor
    · intro k
      by_cases hki : k = i
      · rw [hki]
        exact hi₁₂
      · by_cases hkj : k = j
        · rw [hkj]
          exact hj₁₂
        · rw [hk₁ k hki hkj, hk₂ k hkj hki]
    · intro a
      have ha₁ := hb₁ a
      have ha₂ := hb₂ a
      rw [hi₁₂, hj₁₂] at ha₁
      omega
  · intro filename pid mem tid inputs hr hti htj
    obtain ⟨_, hcounted⟩ := hr.counted
    exact ⟨hcounted.exists_traps env hij hi hti htj, hcounted.exists_traps env hij.symm hj htj hti⟩

/-- One thread enters `g` from the address the other returns to. -/
theorem traps_commute_shared :
    ∃ s s₁ s₂ : Sys Bool,
      (s.processTrap twoFunctions false (trapStop 0x2000 0x3000)).bind
        (fun s => s.processTrap twoFunctions true (trapStop 0x3000)) = some s₁ ∧
      (s.processTrap twoFunctions true (trapStop 0x3000)).bind
        (fun s => s.processTrap twoFunctions false (trapStop 0x2000 0x3000)) = some s₂ ∧
      (∀ k, (s₁.threads k).callstack = (s₂.threads k).callstack) ∧
      ∀ a, s₁.tracee.enabledAt a = s₂.tracee.enabledAt a := by
  have hobs : (runInputs (Sys.step twoFunctions)
      (fun s input => s.forkOrExecExit twoFunctions input == false)
      (Sys.opened twoFunctions "a.out" 7 nops fun i : Bool => if i then 8 else 7)
      [.stop false (trapStop 0x3000), .stop true (trapStop 0x1000 0x3000),
        .stop true (trapStop 0x1000)]).any
      (fun s => decide ((s.threads false).breakpointBeingEnabled = none ∧
        (s.threads true).breakpointBeingEnabled = none ∧
        (s.threads false).callstack.returning 0x2000 = none ∧
        symbolAt s.tracee.proc 0x2000 = some ⟨"g", 0x2000⟩ ∧
        (s.threads true).callstack.returning 0x3000 = some 0 ∧
        (s.threads true).callstack.elems[0]?.map CallstackElement.cUn =
          some (.libfunc ⟨"f", 0x1000⟩))) = true := by
    decide +kernel
  obtain ⟨s, hr, hs⟩ := exists_run_of_observe (fun _ _ h => beq_iff_eq.mp h) hobs
  obtain ⟨hfalse, htrue, hnone, hsym, hreturning, hframe⟩ := of_decide_eq_true hs
  obtain ⟨hagree, hhandled⟩ := traps_commute twoFunctions s (by decide) hfalse htrue
    (trapStop 0x2000 0x3000) (trapStop 0x3000)
  obtain ⟨⟨s₁, h₁⟩, s₂, h₂⟩ := hhandled _ _ _ _ _ hr (Or.inr ⟨hnone, _, hsym⟩)
    (Or.inl ⟨0, _, hreturning, hframe⟩)
  exact ⟨s, s₁, s₂, h₁, h₂, hagree s₁ s₂ h₁ h₂⟩

end Utrace
