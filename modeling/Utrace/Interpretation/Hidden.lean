import Utrace.Correctness.Stepping
import Utrace.Interpretation.Ready
import Utrace.Native.Processor

/-!
# The memory behind the breakpoints

A process with one thread whose breakpoints all lie in a set of addresses: elsewhere its memory is
what the program left there, and in the set it is that memory once the breakpoints are lifted.
Every stop utrace handles keeps it so, and hands the thread on in one of a few ways.
-/

namespace Utrace

/-- Only the bytes of the text matter. -/
theorem TextState.congr {orig orig' : Addr → Byte} {text : Set Addr} {t : Tracee}
    {being : Option Addr} (h : TextState orig text t being) (hsame : ∀ a ∈ text, orig a = orig' a) :
    TextState orig' text t being := by
  cases h with
  | fresh hbe hbeing hcell => exact .fresh hbe hbeing fun a ha => hsame a ha ▸ hcell a ha
  | planted hbe hcell => exact .planted hbe fun a ha => hsame a ha ▸ hcell a ha
  | lifted hbe hmem => exact .lifted hbe fun a ha => (hmem a ha).trans (hsame a ha)

/-- Nothing happens to a cell that no entry and no frame is about. -/
theorem Hit.cell_of_uncounted {env : Env} {f f' : Focus} {stop : Stop} {brk x : Addr}
    (h : Hit env f stop brk f') (hnone : f.thr.breakpointBeingEnabled = none)
    (hcount : (f.tracee.cell x).count = none) (hbrk : x ≠ brk)
    (hpushed : symbolAt f.tracee.proc brk ≠ none → x ≠ stop.stackTop) :
    f'.tracee.cell x = f.tracee.cell x := by
  cases h with
  | rearm a hsome => exact absurd (hnone.symm.trans hsome) nofun
  | ret n sym _ _ _ _ hcounted hoff =>
    have hzero : frameRefs (f.thr.callstack.elems.take (n + 1)) x = 0 := by
      rcases hcounted x with hle | hz
      · rw [Cell.refs, hcount, Option.getD_none] at hle
        omega
      · exact hz
    rw [hoff.cell, if_neg hbrk, Focus.popCells, hzero]
    rfl
  | entry sym _ _ hsym _ hoff =>
    have hne := hpushed (by rw [hsym]; exact Option.some_ne_none sym)
    rw [hoff.cell, if_neg hbrk, Focus.pushCells, if_neg fun hand => hne hand.2]
  | stray _ _ _ ht => rw [ht]

/-- A thread put back on a breakpoint steps over it, or goes on if its last reference is gone. -/
theorem SteppedOff.goesOn {env : Env} {c : Addr → Cell} {brk : Addr} {f' : Focus}
    (h : SteppedOff env c brk f') :
    ∃ request, f'.requests.head? = some (f'.thr.tid, request, brk) ∧
      (request = .singlestep ∧ f'.thr.breakpointBeingEnabled = some brk ∨
        request = .syscall 0 ∧ f'.thr.breakpointBeingEnabled = none ∧
          (f'.tracee.cell brk).refs = 0) := by
  have hrefs := h.refs brk
  have hbeing := h.being
  refine ⟨_, h.requests, ?_⟩
  by_cases hz : (c brk).refs = 0
  · rw [if_pos hz] at hbeing
    exact .inr ⟨if_pos hz, hbeing, hrefs.trans hz⟩
  · rw [if_neg hz] at hbeing
    exact .inl ⟨if_neg hz, hbeing⟩

/-- A trap that belongs to a frame or a symbol. -/
theorem Hit.goesOn {env : Env} {f f' : Focus} {stop : Stop} {brk : Addr}
    (h : Hit env f stop brk f') (hnone : f.thr.breakpointBeingEnabled = none)
    (howned : f.thr.callstack.returning brk ≠ none ∨ symbolAt f.tracee.proc brk ≠ none) :
    ∃ c, SteppedOff env c brk f' := by
  cases h with
  | rearm a hsome => exact absurd (hnone.symm.trans hsome) nofun
  | ret _ _ _ _ _ _ _ hoff => exact ⟨_, hoff⟩
  | entry _ _ _ _ _ hoff => exact ⟨_, hoff⟩
  | stray _ hret hsym =>
    rcases howned with hne | hne
    · exact absurd hret hne
    · exact absurd hsym hne

/-- The exit of an ordinary system call lets the thread go on. -/
theorem processSysret_goesOn {env : Env} {f f' : Focus} {stop : Stop} {n : Int}
    (htop : f.thr.callstack.elems.head?.map CallstackElement.cUn = some (.syscall n))
    (hfork : forkP n = false) (hexec : execP n = false) (h : processSysret env f stop n = .ok f') :
    f'.requests.head? = some (f'.thr.tid, .syscall 0, f.eip) ∧ f'.listed = f.listed := by
  have hsame : sysretFork env f stop n = .ok f := by
    rw [sysretFork, if_neg (by rw [hfork]; rintro ⟨hf, _⟩; cases hf)]
  have htop' := (top_sysretClone hsame).trans htop
  unfold processSysret at h
  simp only [hsame, Except.bind, hexec, Bool.false_eq_true, if_false,
    callstackPop_syscall env htop', Except.map, Except.ok.injEq, sysretExec, false_and] at h
  have hkept : (sysretClone env f stop n).eip = f.eip ∧
      (sysretClone env f stop n).listed = f.listed := by
    unfold sysretClone
    split <;> exact ⟨rfl, rfl⟩
  obtain ⟨heip, hlisted⟩ := hkept
  rw [← h, ← heip, ← hlisted]
  cases env.optS <;> exact ⟨rfl, rfl⟩

/-- The breakpoints lie in `starts`, and hide `mem`. -/
structure Sys.Hides (pid : Pid) (symbols : List LibrarySymbol) (starts : Set Addr)
    (mem : Addr → Byte) (s : Sys Unit) : Prop where
  steady : s.Steady pid symbols
  counted : s.Counted
  listed : s.listed = true
  text : TextState mem starts s.tracee (s.threads ()).breakpointBeingEnabled
  outside : ∀ a ∉ starts, (s.tracee.cell a).count = none
  agree : ∀ a ∉ starts, s.tracee.mem a = mem a

/-- They are planted, except for the one the thread is being stepped over. -/
structure Sys.Planted (pid : Pid) (symbols : List LibrarySymbol) (starts : Set Addr)
    (mem : Addr → Byte) (being : Option Addr) (s : Sys Unit) : Prop
    extends s.Hides pid symbols starts mem where
  enabled : s.tracee.proc.breakpointsEnabled = 1
  being : (s.threads ()).breakpointBeingEnabled = being

/-- A stop is handled and the thread is resumed. -/
def Sys.Resumes (env : Env) (s : Sys Unit) (stop : Stop) (request : Request × Addr)
    (s' : Sys Unit) : Prop :=
  ∃ f tid, s.event env () stop = .ok f ∧ f.requests.head? = some (tid, request) ∧ s.put () f = s'

/-- The frames are those of functions. -/
def Callstack.Quiet (cs : Callstack) : Prop := ∀ elem ∈ cs.elems, elem.isSyscall = false

/-- Pushing a call keeps the stack without system calls. -/
theorem Callstack.Quiet.push {cs : Callstack} (h : cs.Quiet) {elem : CallstackElement}
    (helem : elem.isSyscall = false) : (cs.push elem).Quiet := by
  unfold Callstack.Quiet
  rcases cs.push_cases elem with ⟨_, hfull⟩ | ⟨_, hpush⟩
  · rw [hfull]
    exact h
  · rw [hpush]
    simp only [List.mem_cons, forall_eq_or_imp]
    exact ⟨helem, h⟩

/-- So do pops. -/
theorem Callstack.Quiet.iterate_pop {cs : Callstack} (h : cs.Quiet) (n : Nat) :
    (Callstack.pop^[n] cs).Quiet := by
  intro elem hmem
  rw [elems_iterate_pop] at hmem
  exact h elem (List.mem_of_mem_drop hmem)

/-- No element is a system call. -/
theorem Callstack.Quiet.not_syscall {cs : Callstack} (h : cs.Quiet) {k : Nat} {n : Int} :
    cs.elems[k]?.map CallstackElement.cUn ≠ some (.syscall n) := by
  intro hsome
  obtain ⟨elem, hget, hcUn⟩ := Option.map_eq_some_iff.mp hsome
  have hfalse := h elem (List.mem_of_getElem? hget)
  rw [CallstackElement.isSyscall, hcUn] at hfalse
  cases hfalse

/-- A trap pushes and pops the frames of functions only. -/
theorem Hit.quiet {env : Env} {f f' : Focus} {stop : Stop} {brk : Addr} (h : Hit env f stop brk f')
    (hquiet : f.thr.callstack.Quiet) : f'.thr.callstack.Quiet := by
  cases h with
  | rearm _ _ _ hcs => exact hcs ▸ hquiet
  | ret n _ _ _ _ hcs => exact hcs ▸ hquiet.iterate_pop (n + 1)
  | entry sym _ _ _ hcs =>
    rw [hcs]
    exact hquiet.push rfl
  | stray _ _ _ _ hcs => exact hcs ▸ hquiet

namespace Sys

variable {env : Env} {pid : Pid} {symbols : List LibrarySymbol} {starts : Set Addr}
  {mem : Addr → Byte} {s : Sys Unit} {stop : Stop} {f : Focus} {a : Addr} {n : Int}
  {being : Option Addr} {cs : Callstack}

/-! ## What is hidden -/

/-- The process writes outside of the set. -/
theorem Hides.store (h : s.Hides pid symbols starts mem) {stores : Addr → Option Byte}
    (hstores : ∀ a ∈ starts, stores a = none) :
    ({ s with tracee := { s.tracee with mem := stored s.tracee.mem stores } } : Sys Unit).Hides
      pid symbols starts (stored mem stores) := by
  have hkept : ∀ (m : Addr → Byte), ∀ a ∈ starts, stored m stores a = m a := by
    intro m a ha
    rw [stored, hstores a ha, Option.getD_none]
  have hsteady := h.steady
  refine ⟨⟨hsteady.pid, hsteady.symbols, hsteady.pushed, hsteady.enabled, hsteady.unplanted⟩,
    ⟨h.counted.refs, h.counted.nullReturns⟩, h.listed, ?_, h.outside, ?_⟩
  · exact (h.text.store (hkept _)).congr fun a ha => (hkept mem a ha).symm
  · intro a ha
    change stored s.tracee.mem stores a = stored mem stores a
    rw [stored, stored, h.agree a ha]

/-- A process that writes elsewhere leaves its breakpoints planted. -/
theorem Planted.store (h : s.Planted pid symbols starts mem being) {stores : Addr → Option Byte}
    (hstores : ∀ a ∈ starts, stores a = none) :
    ({ s with tracee := { s.tracee with mem := stored s.tracee.mem stores } } : Sys Unit).Planted
      pid symbols starts (stored mem stores) being :=
  ⟨h.toHides.store hstores, h.enabled, h.being⟩

/-- The state of `open_program`. -/
theorem Hides.opened (env : Env) (filename : String) (pid : Pid) (mem : Addr → Byte)
    (hstarts : ∀ sym ∈ symbolsOf env (some filename), sym.enterAddr ∈ starts) :
    (Sys.opened env filename pid mem fun _ : Unit => pid).Hides pid
      (symbolsOf env (some filename)) starts mem := by
  refine ⟨.opened .., .opened .., rfl, .opened .., fun a ha => ?_, fun a _ => ?_⟩
  · have hzero : symbolRefs (symbolsOf env (some filename)) a = 0 := by
      apply List.countP_eq_zero.mpr
      intro sym hsym heq
      exact ha (of_decide_eq_true heq ▸ hstarts sym hsym)
    exact (congrArg Cell.count (cell_openTracee env filename pid mem a)).trans (if_pos hzero)
  · exact congrArg Cell.byte (cell_openTracee env filename pid mem a)

namespace Planted

/-- The breakpoints are enabled where they are planted. -/
theorem enabled_ne (h : s.Planted pid symbols starts mem being) :
    s.tracee.proc.breakpointsEnabled ≠ 0 ∧ s.tracee.proc.breakpointsEnabled ≠ -1 := by
  rw [h.enabled]
  decide

/-- Lifting the breakpoints shows what they hid. -/
theorem lifted (h : s.Planted pid symbols starts mem being) :
    (disableAllBreakpoints env s.tracee).mem = mem := by
  have hne := h.enabled_ne.1
  funext a
  by_cases ha : a ∈ starts
  · cases h.text with
    | fresh hminus => exact absurd hminus h.enabled_ne.2
    | planted _ hcell => exact mem_disableAllBreakpoints hne (hcell a ha)
    | lifted hzero => exact absurd hzero hne
  · rw [← Tracee.byte_cell, cell_disableAllBreakpoints, if_pos hne, Cell.disable, if_neg]
    · exact h.agree a ha
    · rw [Cell.refs, h.outside a ha]
      exact fun hnot => hnot rfl

/-- The cells of the set. -/
theorem sound (h : s.Planted pid symbols starts mem being) (ha : a ∈ starts) :
    (s.tracee.cell a).Sound (mem a) (being = some a) := by
  rw [← h.being]
  cases h.text with
  | fresh hminus => exact absurd hminus h.enabled_ne.2
  | planted _ hcell => exact hcell a ha
  | lifted hzero => exact absurd hzero h.enabled_ne.1

/-- While no step is pending, a byte is what the program left there or that of a planted trap. -/
theorem mem_or_trap (h : s.Planted pid symbols starts mem none) (a : Addr) :
    s.tracee.mem a = mem a ∨
      a ∈ starts ∧ s.tracee.mem a = Utrace.trap ∧ 0 < s.tracee.enabledAt a := by
  by_cases ha : a ∈ starts
  · have hsound := h.sound ha
    by_cases hz : (s.tracee.cell a).refs = 0
    · exact .inl (hsound.original hz)
    · have hnonneg := hsound.nonneg
      have hpos : 0 < (s.tracee.cell a).refs := by omega
      exact .inr ⟨ha, hsound.trapped nofun hpos, hpos⟩
  · exact .inl (h.agree a ha)

end Planted

/-! ## One handled stop -/

/-- A handled stop keeps the memory hidden if it touches no cell outside of the set. -/
theorem Hides.put (h : s.Hides pid symbols starts mem) (hpid : pid ≠ 0)
    (hevent : s.event env () stop = .ok f)
    (hfork : s.forkOrExecExit env (.stop () stop) = false) (hlisted : f.listed = true)
    (hcell : ∀ a ∉ starts, f.tracee.cell a = s.tracee.cell a) :
    (s.put () f).Hides pid symbols starts mem := by
  have hstep : s.step env (.stop () stop) = some (s.put () f) :=
    Sys.step_stop_eq_some.mpr ⟨h.listed, f, hevent, rfl⟩
  have htext := (handle_effect hevent).1.textState (h.steady.pid ▸ hpid) (h.steady.pushed ())
    (h.steady.enabled_ne_zero h.listed) h.text
  refine ⟨h.steady.step hstep, h.counted.step h.steady hfork hstep, hlisted, ?_, ?_, ?_⟩
  · rw [Sys.threads_put_self]
    exact htext
  · intro a ha
    change (f.tracee.cell a).count = none
    rw [hcell a ha]
    exact h.outside a ha
  · intro a ha
    exact (congrArg Cell.byte (hcell a ha)).trans (h.agree a ha)

/-- The first stop: the breakpoints are planted. -/
theorem Hides.first (env : Env) (h : s.Hides pid symbols starts mem) (hpid : pid ≠ 0)
    (hbe : s.tracee.proc.breakpointsEnabled = -1) (stop : Stop) :
    ∃ s', s.Resumes env stop (.syscall 0, stop.eip) s' ∧
      s'.Planted pid symbols starts mem (s.threads ()).breakpointBeingEnabled ∧
      (s'.threads ()).callstack = (s.threads ()).callstack := by
  have hwait : waitForSomething env (s.focus () stop) stop = (continueProcess
      { (s.focus () stop).withIp 0 with tracee := enableAllBreakpoints s.tracee }
        (s.threads ()).tid, .none) := waitForSomething_first hbe
  have hevent : s.event env () stop = .ok (continueProcess
      { (s.focus () stop).withIp 0 with tracee := enableAllBreakpoints s.tracee }
        (s.threads ()).tid) := by
    rw [Sys.event, handle, hwait]
    rfl
  have hfork : s.forkOrExecExit env (.stop () stop) = false := by
    rw [Sys.forkOrExecExit, Sys.classify, hwait]
  have hcell : ∀ a ∉ starts, (enableAllBreakpoints s.tracee).cell a = s.tracee.cell a := by
    intro a ha
    rw [cell_enableAllBreakpoints, hbe, if_pos (by decide), Cell.enable, Cell.refs, h.outside a ha,
      if_neg fun hnot => hnot rfl]
  refine ⟨_, ⟨_, _, hevent, rfl, rfl⟩, ⟨h.put hpid hevent hfork h.listed hcell, rfl, ?_⟩, ?_⟩
  · rw [Sys.threads_put_self]
    rfl
  · rw [Sys.threads_put_self]
    rfl

namespace Planted

/-- A trap is no exit of a system call. -/
theorem forkOrExecExit_trap (h : s.Planted pid symbols starts mem being) (htrap : stop.IsTrap) :
    s.forkOrExecExit env (.stop () stop) = false := by
  have hclass := (h.steady.breakpoint_event env h.enabled_ne.2 htrap.1 htrap.2 ()).1
  rw [Sys.forkOrExecExit, hclass]

/-- A trap that was planted: the thread is put back on the instruction it hides. -/
theorem trap (env : Env) (h : s.Planted pid symbols starts mem none) (hpid : pid ≠ 0)
    (hquiet : (s.threads ()).callstack.Quiet) (htrap : stop.IsTrap)
    (heip : stop.eip = a + decrPcAfterBreak) (ha : a ∈ starts) (hpos : 0 < s.tracee.enabledAt a)
    (hcalled : ∀ sym ∈ symbols, sym.enterAddr = a → stop.stackTop ∈ starts) :
    ∃ s' request being, s.Resumes env stop (request, a) s' ∧
      s'.Planted pid symbols starts mem being ∧ (s'.threads ()).callstack.Quiet ∧
      s'.tracee.mem a = mem a ∧
      (request = .singlestep ∧ being = some a ∨ request = .syscall 0 ∧ being = none) := by
  obtain ⟨-, ip, hevent⟩ := h.steady.breakpoint_event env h.enabled_ne.2 htrap.1 htrap.2 ()
  rw [heip, add_sub_cancel_right] at hevent
  have hcovered := h.counted.covered () stop
  obtain ⟨f, hok⟩ : ∃ f, processBreakpoint env ((s.focus () stop).withIp ip) stop a = .ok f := by
    rcases processBreakpoint_exists env stop a (f := (s.focus () stop).withIp ip)
      ⟨hcovered.frames, hcovered.symbols⟩ with hok | ⟨_, k, n, _, hsyscall⟩
    · exact hok
    · exact absurd hsyscall hquiet.not_syscall
  rw [hok] at hevent
  obtain ⟨hhit, -, hlisted, -⟩ := processBreakpoint_hit hok
  have hhit := hhit.of_withIp
  have hcell : ∀ x ∉ starts, f.tracee.cell x = s.tracee.cell x := by
    intro x hx
    apply hhit.cell_of_uncounted h.being (h.outside x hx)
    · rintro rfl
      exact hx ha
    · intro hsym heq
      obtain ⟨sym, hfind⟩ := Option.ne_none_iff_exists'.mp hsym
      have hmem : sym ∈ symbols := h.steady.symbols ▸ List.mem_of_find?_eq_some hfind
      exact hx (heq ▸ hcalled sym hmem (by simpa using List.find?_some hfind))
  have hhides : (s.put () f).Planted pid symbols starts mem f.thr.breakpointBeingEnabled := by
    refine ⟨h.put hpid hevent (h.forkOrExecExit_trap htrap) (hlisted.trans h.listed) hcell,
      hhit.breakpointsEnabled.trans h.enabled, ?_⟩
    rw [Sys.threads_put_self]
  obtain ⟨c, hoff⟩ := hhit.goesOn h.being (h.counted.owned hpos)
  obtain ⟨request, hrequest, hnext⟩ := hoff.goesOn
  refine ⟨s.put () f, request, _, ⟨f, _, hevent, hrequest, rfl⟩, hhides, ?_, ?_, ?_⟩
  · rw [Sys.threads_put_self]
    exact hhit.quiet hquiet
  · rcases hnext with ⟨-, hsome⟩ | ⟨-, -, hzero⟩
    · exact ((hhides.sound ha).stepped hsome).2
    · exact (hhides.sound ha).original hzero
  · exact hnext.imp id fun hlast => ⟨hlast.1, hlast.2.1⟩

/-- The end of a step: the trap stepped over is planted again. -/
theorem stepEnd (env : Env) (h : s.Planted pid symbols starts mem (some a)) (hpid : pid ≠ 0)
    (ha : a ∈ starts) (stop : Stop) (htrap : stop.IsTrap) :
    ∃ s', s.Resumes env stop (.syscall 0, stop.eip) s' ∧
      s'.Planted pid symbols starts mem none ∧
      (s'.threads ()).callstack = (s.threads ()).callstack := by
  obtain ⟨-, ip, hevent⟩ := h.steady.breakpoint_event env h.enabled_ne.2 htrap.1 htrap.2 ()
  have hpending : ((s.focus () stop).withIp ip).thr.breakpointBeingEnabled ≠ none := by
    change (s.threads ()).breakpointBeingEnabled ≠ none
    rw [h.being]
    exact Option.some_ne_none a
  obtain ⟨f, hok, hrequest⟩ :=
    processBreakpoint_passed env stop (stop.eip - decrPcAfterBreak) (.inl hpending)
  rw [hok] at hevent
  obtain ⟨hhit, -, hlisted, -⟩ := processBreakpoint_hit hok
  have henabled := hhit.breakpointsEnabled.trans h.enabled
  cases hhit with
  | rearm b hsome ht hcs hafter =>
    obtain rfl : a = b := Option.some.inj (h.being.symm.trans hsome)
    have hcell : ∀ x ∉ starts, f.tracee.cell x = s.tracee.cell x := by
      intro x hx
      have hne : x ≠ a := fun heq => hx (heq ▸ ha)
      rw [ht, cell_enableEntry, if_neg hne]
      rfl
    refine ⟨s.put () f, ⟨f, _, hevent, hrequest, rfl⟩, ⟨h.put hpid hevent
      (h.forkOrExecExit_trap htrap) (hlisted.trans h.listed) hcell, henabled, ?_⟩, ?_⟩
    · rw [Sys.threads_put_self]
      exact hafter
    · rw [Sys.threads_put_self]
      exact hcs
  | ret _ _ hnone => exact absurd hnone hpending
  | entry _ hnone => exact absurd hnone hpending
  | stray hnone => exact absurd hnone hpending

/-- The entry of a system call, as utrace takes it: its frame is pushed. -/
theorem entered (env : Env) (h : s.Planted pid symbols starts mem being) (hpid : pid ≠ 0)
    (hquiet : (s.threads ()).callstack.Quiet) (stop : Stop)
    (hstatus : stop.status = .stopped sigtrap) (hn : 0 ≤ stop.origEax)
    (hexec : execP stop.origEax = false) :
    ∃ s', s.Resumes env stop (.syscall 0, stop.eip) s' ∧
      s'.Planted pid symbols starts mem being ∧
      (s'.threads ()).callstack = (s.threads ()).callstack.push ⟨.syscall stop.origEax, 0⟩ := by
  have hsys : syscallP (s.focus () stop).thr stop = 1 := by
    have hhead : (s.focus () stop).thr.callstack.elems.head?.map CallstackElement.cUn ≠
        some (.syscall stop.origEax) := by
      rw [List.head?_eq_getElem?]
      exact hquiet.not_syscall
    rw [syscallP, if_pos hstatus, if_neg hhead, if_pos hn]
  obtain ⟨ip, hhandle⟩ := handle_syscall env (f := s.focus () stop) h.enabled_ne.2 hsys
  have hfork : s.forkOrExecExit env (.stop () stop) = false := by
    obtain ⟨ip, hwait⟩ := waitForSomething_eq env (f := s.focus () stop) stop h.enabled_ne.2
    rw [Sys.forkOrExecExit, Sys.classify, hwait, Focus.classified, if_pos hsys]
  have htracee :=
    tracee_processSyscall env (f := (s.focus () stop).withIp ip) h.enabled_ne.1 stop.origEax
  have hthr := thr_processSyscall env ((s.focus () stop).withIp ip) stop.origEax
  rw [if_neg (by rw [hexec]; decide)] at hthr
  have hrequest : (processSyscall env ((s.focus () stop).withIp ip) stop.origEax).requests.head? =
      some ((s.threads ()).tid, .syscall 0, stop.eip) := by
    rw [processSyscall_eq]
    rfl
  have hlisted : (processSyscall env ((s.focus () stop).withIp ip) stop.origEax).listed = true := by
    rw [processSyscall_eq]
    exact h.listed
  refine ⟨_, ⟨_, _, hhandle, hrequest, rfl⟩, ⟨h.put hpid hhandle hfork hlisted fun x _ => ?_,
    ?_, ?_⟩, ?_⟩
  · rw [htracee]
    rfl
  · change (processSyscall env ((s.focus () stop).withIp ip)
      stop.origEax).tracee.proc.breakpointsEnabled = 1
    rw [htracee]
    exact h.enabled
  · rw [Sys.threads_put_self, hthr]
    exact h.being
  · rw [Sys.threads_put_self, hthr]
    rfl

/-- The exit of a system call. Where its frame found no room on the stack, it is taken for another
entry, and finds no room either. -/
theorem left (env : Env) (h : s.Planted pid symbols starts mem being) (hpid : pid ≠ 0)
    (hquiet : cs.Quiet) (stop : Stop)
    (hcs : (s.threads ()).callstack = cs.push ⟨.syscall stop.origEax, 0⟩)
    (hstatus : stop.status = .stopped sigtrap) (hn : 0 ≤ stop.origEax)
    (hfork : forkP stop.origEax = false) (hexec : execP stop.origEax = false) :
    ∃ s', s.Resumes env stop (.syscall 0, stop.eip) s' ∧
      s'.Planted pid symbols starts mem being ∧ (s'.threads ()).callstack.Quiet := by
  rcases cs.push_cases ⟨.syscall stop.origEax, 0⟩ with ⟨_, hfull⟩ | ⟨_, hpush⟩
  · rw [hfull] at hcs
    obtain ⟨s', hres, hplanted, hcs'⟩ :=
      h.entered env hpid (hcs ▸ hquiet) stop hstatus hn hexec
    refine ⟨s', hres, hplanted, ?_⟩
    rw [hcs', hcs, hfull]
    exact hquiet
  · have htop : (s.threads ()).callstack.elems.head?.map CallstackElement.cUn =
        some (.syscall stop.origEax) := by
      rw [hcs, hpush]
      rfl
    have hsys : syscallP (s.focus () stop).thr stop = 2 := by
      rw [syscallP, if_pos hstatus]
      exact if_pos htop
    obtain ⟨ip, hhandle⟩ := handle_sysret env (f := s.focus () stop) h.enabled_ne.2 hsys
    have hclass : s.forkOrExecExit env (.stop () stop) = false := by
      obtain ⟨ip, hwait⟩ := waitForSomething_eq env (f := s.focus () stop) stop h.enabled_ne.2
      rw [Sys.forkOrExecExit, Sys.classify, hwait, Focus.classified, hsys]
      simp [hfork, hexec]
    obtain ⟨f, hok, hpop⟩ := processSysret_exists_pop env
      (f := (s.focus () stop).withIp ip) stop htop hfork hexec
    obtain ⟨f₁, hfork₁, -, -, hbeing, -⟩ := processSysret_popped htop hexec hok
    obtain ⟨hrequest, hlisted⟩ := processSysret_goesOn htop hfork hexec hok
    have htracee : f.tracee = s.tracee := by
      rcases tracee_processSysret htop hok with hsame | ⟨hyes, _⟩
      · exact hsame
      · cases hexec.symm.trans hyes
    rw [hok] at hhandle
    refine ⟨s.put () f, ⟨f, _, hhandle, hrequest, rfl⟩,
      ⟨h.put hpid hhandle hclass (hlisted.trans h.listed) fun x _ => by rw [htracee], ?_, ?_⟩, ?_⟩
    · change f.tracee.proc.breakpointsEnabled = 1
      rw [htracee]
      exact h.enabled
    · rw [Sys.threads_put_self, hbeing]
      exact (sysretFork_ok hfork₁).2.2.2.2.1.trans h.being
    · rw [Sys.threads_put_self, hpop]
      intro elem hmem
      rw [Callstack.elems_pop] at hmem
      have htail : (s.threads ()).callstack.elems.tail = cs.elems := by
        rw [hcs, hpush]
        rfl
      exact hquiet elem (htail ▸ hmem)

end Planted

end Sys

end Utrace
