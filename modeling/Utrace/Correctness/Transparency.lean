import Utrace.Core.Stutter
import Utrace.Interpretation.Hidden

/-!
# Tracing is transparent

A program under utrace does what it does on its own. The breakpoints are planted at the entries of
the traced functions and at the addresses they return to; the program may call them in any way, also
by jumps out of several of them, but it neither reads nor overwrites the bytes at these addresses
except as instructions. Then utrace never fails, every instruction of the program is completed after
at most four steps, and between them the registers, and the memory but for the planted traps, are
those of the program on its own.
-/

namespace Utrace

variable {ρ : Type*} {p : Processor ρ} {env : Env} {pid : Pid} {symbols : List LibrarySymbol}
  {starts : Set Addr} {c : Cpu ρ} {s : Traced ρ} {mem : Addr → Byte}

/-- What is asked of the next instruction of a program, where breakpoints may stand at `starts`. -/
structure Processor.Behaves (p : Processor ρ) (symbols : List LibrarySymbol) (starts : Set Addr)
    (c : Cpu ρ) : Prop where
  /-- It is no trap. -/
  noTrap : c.mem (p.eip c.regs) ≠ trap
  /-- Of the bytes at `starts` it depends on its own first byte only, and it changes none. -/
  reads : ∀ mem, mem (p.eip c.regs) = c.mem (p.eip c.regs) → (∀ a ∉ starts, mem a = c.mem a) →
    p.exec mem c.regs = p.exec c.mem c.regs ∧ p.syscall mem c.regs = p.syscall c.mem c.regs
  writes : ∀ a ∈ starts, (p.exec c.mem c.regs).2 a = none
  /-- At the entry of a traced function, the return address is one of `starts`. -/
  called : ∀ sym ∈ symbols, sym.enterAddr = p.eip c.regs →
    ∀ mem, (∀ a ∉ starts, mem a = c.mem a) → peekWord mem (p.uesp c.regs) ∈ starts
  /-- A system call neither makes another process or thread nor replaces the program, and is made
  elsewhere. -/
  ordinary : ∀ n, p.syscall c.mem c.regs = some n →
    0 ≤ n ∧ forkP n = false ∧ cloneP n = false ∧ execP n = false ∧ p.eip c.regs ∉ starts
  /-- The kernel leaves the bytes at `starts` alone too. -/
  served : ∀ n, p.syscall c.mem c.regs = some n →
    ∀ mem, (∀ a ∉ starts, mem a = stored c.mem (p.exec c.mem c.regs).2 a) →
      p.serve n mem (p.exec c.mem c.regs).1 =
        p.serve n (stored c.mem (p.exec c.mem c.regs).2) (p.exec c.mem c.regs).1
  kept : ∀ n, p.syscall c.mem c.regs = some n → ∀ a ∈ starts,
    (p.serve n (stored c.mem (p.exec c.mem c.regs).2) (p.exec c.mem c.regs).1).2 a = none

/-- The registers are those of the program on its own, and so is the memory once the breakpoints
are lifted. -/
def Traced.Shows (env : Env) (s : Traced ρ) (c : Cpu ρ) : Prop :=
  s.regs = c.regs ∧ (disableAllBreakpoints env s.sys.tracee).mem = c.mem

/-! ## One instruction -/

namespace Processor

/-- An instruction that makes no system call. -/
theorem next_of_none (h : p.syscall c.mem c.regs = none) :
    p.next c = ⟨stored c.mem (p.exec c.mem c.regs).2, (p.exec c.mem c.regs).1⟩ := by
  rw [next, h]

/-- An instruction that makes one. -/
theorem next_of_some {n : Int} (h : p.syscall c.mem c.regs = some n) :
    let mem := stored c.mem (p.exec c.mem c.regs).2
    let served := p.serve n mem (p.exec c.mem c.regs).1
    p.next c = ⟨stored mem served.2, served.1⟩ := by
  rw [next, h]

/-- No system call is made where a breakpoint may stand. -/
theorem Behaves.noSyscall (h : p.Behaves symbols starts c) (hstart : p.eip c.regs ∈ starts) :
    p.syscall c.mem c.regs = none := by
  cases hsome : p.syscall c.mem c.regs with
  | none => rfl
  | some n => exact absurd hstart (h.ordinary n hsome).2.2.2.2

/-- With its first byte in place an instruction does the same on both memories. -/
theorem Behaves.next_eq (h : p.Behaves symbols starts c) (hsys : p.syscall c.mem c.regs = none)
    (hbyte : mem (p.eip c.regs) = c.mem (p.eip c.regs)) (hagree : ∀ a ∉ starts, mem a = c.mem a) :
    p.next ⟨mem, c.regs⟩ = ⟨stored mem (p.exec c.mem c.regs).2, (p.next c).regs⟩ := by
  obtain ⟨hexec, hsys'⟩ := h.reads mem hbyte hagree
  rw [next_of_none hsys, next_of_none (c := ⟨mem, c.regs⟩) (hsys'.trans hsys)]
  dsimp only
  rw [hexec]

/-- A stop is handled, and the process goes on as `ptrace` was asked. -/
theorem step_stopped {stop : Stop} {entry : Option Int} {request : Request} {a : Addr}
    {phase : Phase} {sys : Sys Unit} (hphase : s.phase = .stopped stop entry)
    (hlisted : s.sys.listed = true) (h : s.sys.Resumes env stop (request, a) sys)
    (hresume : resume entry request = some phase) :
    p.step env s = some ⟨sys, p.setEip s.regs a, phase⟩ := by
  obtain ⟨f, tid, hevent, hrequest, rfl⟩ := h
  rw [step, hphase]
  dsimp only
  rw [handled, if_pos hlisted, hevent]
  simp [Except.toOption, hrequest, hresume]

end Processor

/-! ## The process between its stops -/

/-- How far the process is with the next instruction of the program on its own. -/
inductive Traced.Mirrors (p : Processor ρ) (pid : Pid) (symbols : List LibrarySymbol)
    (starts : Set Addr) (s : Traced ρ) (c : Cpu ρ) : Prop
  | running (hphase : s.phase = .running)
      (hplanted : s.sys.Planted pid symbols starts c.mem none)
      (hquiet : (s.sys.threads ()).callstack.Quiet) (hregs : s.regs = c.regs)
  /-- The trap in its place was lifted. -/
  | stepping (hphase : s.phase = .stepping) (hstart : p.eip c.regs ∈ starts)
      (hplanted : s.sys.Planted pid symbols starts c.mem (some (p.eip c.regs)))
      (hquiet : (s.sys.threads ()).callstack.Quiet) (hregs : s.regs = c.regs)
      (hbyte : s.sys.tracee.mem (p.eip c.regs) = c.mem (p.eip c.regs))
  /-- It is a system call, which is being served. -/
  | inside (n : Int) (cs : Callstack) (hsys : p.syscall c.mem c.regs = some n)
      (hphase : s.phase = .inside n)
      (hplanted : s.sys.Planted pid symbols starts (stored c.mem (p.exec c.mem c.regs).2) none)
      (hquiet : cs.Quiet) (hcs : (s.sys.threads ()).callstack = cs.push ⟨.syscall n, 0⟩)
      (hregs : s.regs = (p.exec c.mem c.regs).1)
  /-- The first stop. -/
  | first (hphase : s.phase = .stopped (p.report s.sys.tracee.mem s.regs (-1)) none)
      (hhides : s.sys.Hides pid symbols starts c.mem)
      (hbe : s.sys.tracee.proc.breakpointsEnabled = -1)
      (hbeing : (s.sys.threads ()).breakpointBeingEnabled = none)
      (hquiet : (s.sys.threads ()).callstack.Quiet) (hregs : s.regs = c.regs)
  /-- The process ran into the trap in its place. -/
  | trapped (hphase : s.phase = .stopped (p.report s.sys.tracee.mem s.regs (-1)) none)
      (hstart : p.eip c.regs ∈ starts) (hpos : 0 < s.sys.tracee.enabledAt (p.eip c.regs))
      (hplanted : s.sys.Planted pid symbols starts c.mem none)
      (hquiet : (s.sys.threads ()).callstack.Quiet)
      (hregs : s.regs = p.setEip c.regs (p.eip c.regs + decrPcAfterBreak))
  /-- It is a system call, which the process entered. -/
  | entering (n : Int) (hsys : p.syscall c.mem c.regs = some n)
      (hphase : s.phase = .stopped (p.report s.sys.tracee.mem s.regs n) (some n))
      (hplanted : s.sys.Planted pid symbols starts (stored c.mem (p.exec c.mem c.regs).2) none)
      (hquiet : (s.sys.threads ()).callstack.Quiet) (hregs : s.regs = (p.exec c.mem c.regs).1)
  /-- The one before was stepped over at `a`. -/
  | stepped (a : Addr) (hphase : s.phase = .stopped (p.report s.sys.tracee.mem s.regs (-1)) none)
      (hstart : a ∈ starts) (hplanted : s.sys.Planted pid symbols starts c.mem (some a))
      (hquiet : (s.sys.threads ()).callstack.Quiet) (hregs : s.regs = c.regs)
  /-- The one before was a system call, which the process is leaving. -/
  | leaving (n : Int) (cs : Callstack) (hn : 0 ≤ n) (hfork : forkP n = false)
      (hexec : execP n = false)
      (hphase : s.phase = .stopped (p.report s.sys.tracee.mem s.regs n) none)
      (hplanted : s.sys.Planted pid symbols starts c.mem none)
      (hquiet : cs.Quiet) (hcs : (s.sys.threads ()).callstack = cs.push ⟨.syscall n, 0⟩)
      (hregs : s.regs = c.regs)

/-- The steps there may be until the next instruction is completed. -/
def Processor.rank (p : Processor ρ) (s : Traced ρ) : Nat :=
  match s.phase with
  | .running => if p.completes s then 0 else 2
  | .stepping | .inside _ => 0
  | .stopped _ (some _) => 1
  | .stopped stop none =>
    if stop.origEax = -1 ∧ s.sys.tracee.proc.breakpointsEnabled = 1 ∧
      (s.sys.threads ()).breakpointBeingEnabled = none then 1 else 3

/-- At most three steps pass without an instruction completed. -/
theorem Processor.rank_le (p : Processor ρ) (s : Traced ρ) : p.rank s ≤ 3 := by
  unfold rank
  split
  · split <;> decide
  · decide
  · decide
  · decide
  · split <;> decide

/-- At most two do where the process runs. -/
theorem Processor.rank_running (h : s.phase = .running) : p.rank s ≤ 2 := by
  rw [rank, h]
  dsimp only
  split <;> decide

namespace Traced.Mirrors

/-- In between two instructions, the process shows the program on its own. -/
theorem shows (h : s.Mirrors p pid symbols starts c)
    (hphase : s.phase = .running ∨ s.phase = .stepping) : s.Shows env c := by
  cases h with
  | running _ hplanted _ hregs => exact ⟨hregs, hplanted.lifted⟩
  | stepping _ _ hplanted _ hregs => exact ⟨hregs, hplanted.lifted⟩
  | inside _ _ _ hinside => rw [hinside] at hphase; simp at hphase
  | first hstopped => rw [hstopped] at hphase; simp at hphase
  | trapped hstopped => rw [hstopped] at hphase; simp at hphase
  | entering _ _ hstopped => rw [hstopped] at hphase; simp at hphase
  | stepped _ hstopped => rw [hstopped] at hphase; simp at hphase
  | leaving _ _ _ _ _ hstopped => rw [hstopped] at hphase; simp at hphase

/-- The process executes the next instruction, none of a system call. -/
theorem executed {being : Option Addr} (hc : p.Behaves symbols starts c)
    (hsys : p.syscall c.mem c.regs = none)
    (hplanted : s.sys.Planted pid symbols starts c.mem being) (hregs : s.regs = c.regs)
    (hbyte : s.sys.tracee.mem (p.eip c.regs) = c.mem (p.eip c.regs)) (phase : Phase) :
    (Processor.write s (p.next ⟨s.sys.tracee.mem, s.regs⟩) phase).sys.Planted pid symbols starts
        (p.next c).mem being ∧
      (Processor.write s (p.next ⟨s.sys.tracee.mem, s.regs⟩) phase).regs = (p.next c).regs := by
  have hnext := hc.next_eq hsys hbyte hplanted.agree
  have hmem : (p.next c).mem = stored c.mem (p.exec c.mem c.regs).2 :=
    congrArg Cpu.mem (Processor.next_of_none hsys)
  rw [hregs, hnext, hmem]
  exact ⟨hplanted.store hc.writes, rfl⟩

/-- The next instruction is completed. -/
theorem advance (env : Env) (h : s.Mirrors p pid symbols starts c) (hc : p.Behaves symbols starts c)
    (hadv : p.completes s = true) :
    ∃ s', p.step env s = some s' ∧ s'.Mirrors p pid symbols starts (p.next c) ∧
      s'.Shows env (p.next c) := by
  cases h with
  | running hphase hplanted hquiet hregs =>
    obtain ⟨hne, hnone⟩ : s.sys.tracee.mem (p.eip c.regs) ≠ trap ∧
        p.syscall s.sys.tracee.mem c.regs = none := by
      rw [Processor.completes, hphase, hregs] at hadv
      simpa using hadv
    have hbyte := (hplanted.mem_or_trap (p.eip c.regs)).resolve_right fun hand => hne hand.2.1
    have hsys := (hc.reads _ hbyte hplanted.agree).2.symm.trans hnone
    obtain ⟨hplanted', hregs'⟩ := executed hc hsys hplanted hregs hbyte .running
    refine ⟨_, ?_, .running rfl hplanted' hquiet hregs', hregs', hplanted'.lifted⟩
    rw [← hregs] at hne hnone
    rw [Processor.step, hphase]
    simp only [if_neg hne, hnone]
  | stepping hphase hstart hplanted hquiet hregs hbyte =>
    have hsys := hc.noSyscall hstart
    obtain ⟨hplanted', hregs'⟩ := executed hc hsys hplanted hregs hbyte
      (.stopped (p.report (p.next ⟨s.sys.tracee.mem, s.regs⟩).mem
        (p.next ⟨s.sys.tracee.mem, s.regs⟩).regs (-1)) none)
    refine ⟨_, ?_, .stepped _ rfl hstart hplanted' hquiet hregs', hregs', hplanted'.lifted⟩
    rw [Processor.step, hphase]
  | inside n cs hsys hphase hplanted hquiet hcs hregs =>
    have hserve := hc.served n hsys _ hplanted.agree
    have hplanted' := hplanted.store (hc.kept n hsys)
    obtain ⟨hn, hfork, -, hexec, -⟩ := hc.ordinary n hsys
    let served := p.serve n (stored c.mem (p.exec c.mem c.regs).2) (p.exec c.mem c.regs).1
    let mem := stored s.sys.tracee.mem served.2
    rw [Processor.next_of_some hsys]
    refine ⟨Processor.write s ⟨mem, served.1⟩ (.stopped (p.report mem served.1 n) none), ?_,
      .leaving n cs hn hfork hexec rfl hplanted' hquiet hcs rfl, rfl, hplanted'.lifted⟩
    rw [Processor.step, hphase]
    dsimp only
    rw [hregs, hserve]
  | first hphase => rw [Processor.completes, hphase] at hadv; cases hadv
  | trapped hphase => rw [Processor.completes, hphase] at hadv; cases hadv
  | entering _ _ hphase => rw [Processor.completes, hphase] at hadv; cases hadv
  | stepped _ hphase => rw [Processor.completes, hphase] at hadv; cases hadv
  | leaving _ _ _ _ _ hphase => rw [Processor.completes, hphase] at hadv; cases hadv

/-- The first stop is handled, and the process runs. -/
theorem started (env : Env)
    (hphase : s.phase = .stopped (p.report s.sys.tracee.mem s.regs (-1)) none)
    (hhides : s.sys.Hides pid symbols starts c.mem) (hpid : pid ≠ 0)
    (hbe : s.sys.tracee.proc.breakpointsEnabled = -1)
    (hbeing : (s.sys.threads ()).breakpointBeingEnabled = none)
    (hquiet : (s.sys.threads ()).callstack.Quiet) (hregs : s.regs = c.regs) :
    ∃ s', p.step env s = some s' ∧ s'.Mirrors p pid symbols starts c ∧ s'.phase = .running := by
  obtain ⟨sys, hresumes, hplanted, hcs⟩ := hhides.first env hpid hbe
    (p.report s.sys.tracee.mem s.regs (-1))
  rw [hbeing] at hplanted
  rw [← hcs] at hquiet
  exact ⟨_, Processor.step_stopped hphase hhides.listed hresumes rfl,
    .running rfl hplanted hquiet ((p.setEip_eip s.regs).trans hregs), rfl⟩

/-- The process stops at a trap before the next instruction, or enters a system call. -/
theorem halted (env : Env) (hc : p.Behaves symbols starts c) (hphase : s.phase = .running)
    (hplanted : s.sys.Planted pid symbols starts c.mem none)
    (hquiet : (s.sys.threads ()).callstack.Quiet) (hregs : s.regs = c.regs)
    (hadv : p.completes s = false) :
    ∃ s', p.step env s = some s' ∧ s'.Mirrors p pid symbols starts c ∧ p.rank s' < p.rank s := by
  have hrank : p.rank s = 2 := by
    rw [Processor.rank, hphase]
    exact if_neg (by rw [hadv]; decide)
  rw [hrank]
  by_cases htrap : s.sys.tracee.mem (p.eip c.regs) = trap
  · obtain ⟨hstart, -, hpos⟩ := (hplanted.mem_or_trap (p.eip c.regs)).resolve_left
      fun hbyte => hc.noTrap (hbyte.symm.trans htrap)
    let regs := p.setEip c.regs (p.eip c.regs + decrPcAfterBreak)
    refine ⟨{ s with
      regs := regs, phase := .stopped (p.report s.sys.tracee.mem regs (-1)) none }, ?_,
      .trapped rfl hstart hpos hplanted hquiet rfl, ?_⟩
    · rw [Processor.step, hphase]
      dsimp only
      rw [hregs, if_pos htrap]
    · rw [Processor.rank]
      dsimp only
      rw [if_pos ⟨rfl, hplanted.enabled, hplanted.being⟩]
      decide
  · have hbyte := (hplanted.mem_or_trap (p.eip c.regs)).resolve_right
      fun hand => htrap hand.2.1
    obtain ⟨hexec, hsame⟩ := hc.reads _ hbyte hplanted.agree
    obtain ⟨n, hsome⟩ : ∃ n, p.syscall s.sys.tracee.mem c.regs = some n := by
      rw [Processor.completes, hphase, hregs] at hadv
      apply Option.isSome_iff_exists.mp
      simpa [htrap] using hadv
    have hplanted' := hplanted.store hc.writes
    let mem := stored s.sys.tracee.mem (p.exec c.mem c.regs).2
    let regs := (p.exec c.mem c.regs).1
    refine ⟨Processor.write s ⟨mem, regs⟩ (.stopped (p.report mem regs n) (some n)), ?_,
      .entering n (hsame.symm.trans hsome) rfl hplanted' hquiet rfl, Nat.one_lt_two⟩
    rw [Processor.step, hphase]
    dsimp only
    rw [hregs, if_neg htrap, hsome, hexec]

/-- A trap is lifted for one step, or for good where it was planted for a call that is over. -/
theorem trapHandled (env : Env) (hc : p.Behaves symbols starts c) (hpid : pid ≠ 0)
    (hphase : s.phase = .stopped (p.report s.sys.tracee.mem s.regs (-1)) none)
    (hstart : p.eip c.regs ∈ starts) (hpos : 0 < s.sys.tracee.enabledAt (p.eip c.regs))
    (hplanted : s.sys.Planted pid symbols starts c.mem none)
    (hquiet : (s.sys.threads ()).callstack.Quiet)
    (hregs : s.regs = p.setEip c.regs (p.eip c.regs + decrPcAfterBreak)) :
    ∃ s', p.step env s = some s' ∧ s'.Mirrors p pid symbols starts c ∧ p.rank s' < p.rank s := by
  have heip : (p.report s.sys.tracee.mem s.regs (-1)).eip =
      p.eip c.regs + decrPcAfterBreak := by
    change p.eip s.regs = _
    rw [hregs, p.eip_setEip]
  have hcalled : ∀ sym ∈ symbols, sym.enterAddr = p.eip c.regs →
      (p.report s.sys.tracee.mem s.regs (-1)).stackTop ∈ starts := by
    intro sym hsym haddr
    change peekWord s.sys.tracee.mem (p.uesp s.regs) ∈ starts
    rw [hregs, p.uesp_setEip]
    exact hc.called sym hsym haddr _ hplanted.agree
  obtain ⟨sys, request, being, hresumes, hplanted', hquiet', hbyte, hnext⟩ :=
    hplanted.trap env hpid hquiet ⟨rfl, rfl⟩ heip hstart hpos hcalled
  have hregs' : p.setEip s.regs (p.eip c.regs) = c.regs := by
    rw [hregs, p.setEip_setEip, p.setEip_eip]
  have hrank : p.rank s = 1 := by
    rw [Processor.rank, hphase]
    exact if_pos ⟨rfl, hplanted.enabled, hplanted.being⟩
  rw [hrank]
  rcases hnext with ⟨rfl, rfl⟩ | ⟨rfl, rfl⟩
  · exact ⟨_, Processor.step_stopped hphase hplanted.listed hresumes rfl,
      .stepping rfl hstart hplanted' hquiet' hregs' hbyte, Nat.one_pos⟩
  · refine ⟨_, Processor.step_stopped hphase hplanted.listed hresumes rfl,
      .running rfl hplanted' hquiet' hregs', ?_⟩
    have hsys : p.syscall sys.tracee.mem c.regs = none :=
      (hc.reads _ hbyte hplanted'.agree).2.trans (hc.noSyscall hstart)
    have hcompletes : p.completes ⟨sys, p.setEip s.regs (p.eip c.regs), .running⟩ = true := by
      rw [Processor.completes, hregs']
      simp [hbyte, hc.noTrap, hsys]
    rw [Processor.rank]
    dsimp only
    rw [if_pos hcompletes]
    exact Nat.one_pos

/-- A stop is handled, or the process stops before the next instruction or within it. -/
theorem stutter (env : Env) (h : s.Mirrors p pid symbols starts c) (hc : p.Behaves symbols starts c)
    (hpid : pid ≠ 0) (hadv : p.completes s = false) :
    ∃ s', p.step env s = some s' ∧ s'.Mirrors p pid symbols starts c ∧ p.rank s' < p.rank s := by
  cases h with
  | running hphase hplanted hquiet hregs => exact halted env hc hphase hplanted hquiet hregs hadv
  | stepping hphase => rw [Processor.completes, hphase] at hadv; cases hadv
  | inside _ _ _ hphase => rw [Processor.completes, hphase] at hadv; cases hadv
  | first hphase hhides hbe hbeing hquiet hregs =>
    obtain ⟨s', hstep, hs', hrunning⟩ :=
      started env hphase hhides hpid hbe hbeing hquiet hregs
    have hrank : p.rank s = 3 := by
      rw [Processor.rank, hphase]
      exact if_neg fun hand => absurd (hbe.symm.trans hand.2.1) (by decide)
    rw [hrank]
    exact ⟨s', hstep, hs', Nat.lt_succ_of_le (Processor.rank_running hrunning)⟩
  | trapped hphase hstart hpos hplanted hquiet hregs =>
    exact trapHandled env hc hpid hphase hstart hpos hplanted hquiet hregs
  | entering n hsys hphase hplanted hquiet hregs =>
    obtain ⟨hn, -, -, hexec, -⟩ := hc.ordinary n hsys
    obtain ⟨sys, hresumes, hplanted', hcs⟩ := hplanted.entered env hpid hquiet
      (p.report s.sys.tracee.mem s.regs n) rfl hn hexec
    refine ⟨_, Processor.step_stopped hphase hplanted.listed hresumes rfl,
      .inside n _ hsys rfl hplanted' hquiet hcs ((p.setEip_eip s.regs).trans hregs), ?_⟩
    rw [Processor.rank, Processor.rank, hphase]
    exact Nat.one_pos
  | stepped a hphase hstart hplanted hquiet hregs =>
    obtain ⟨sys, hresumes, hplanted', hcs⟩ := hplanted.stepEnd env hpid hstart
      (p.report s.sys.tracee.mem s.regs (-1)) ⟨rfl, rfl⟩
    have hrank : p.rank s = 3 := by
      rw [Processor.rank, hphase]
      exact if_neg fun hand => Option.some_ne_none a (hplanted.being.symm.trans hand.2.2)
    rw [← hcs] at hquiet
    refine ⟨_, Processor.step_stopped hphase hplanted.listed hresumes rfl,
      .running rfl hplanted' hquiet ((p.setEip_eip s.regs).trans hregs), ?_⟩
    rw [hrank]
    exact Nat.lt_succ_of_le (Processor.rank_running rfl)
  | leaving n cs hn hfork hexec hphase hplanted hquiet hcs hregs =>
    obtain ⟨sys, hresumes, hplanted', hquiet'⟩ := hplanted.left env hpid hquiet
      (p.report s.sys.tracee.mem s.regs n) hcs rfl hn hfork hexec
    have hrank : p.rank s = 3 := by
      rw [Processor.rank, hphase]
      refine if_neg fun hand => ?_
      have hminus : n = -1 := hand.1
      omega
    refine ⟨_, Processor.step_stopped hphase hplanted.listed hresumes rfl,
      .running rfl hplanted' hquiet' ((p.setEip_eip s.regs).trans hregs), ?_⟩
    rw [hrank]
    exact Nat.lt_succ_of_le (Processor.rank_running rfl)

end Traced.Mirrors

/-! ## Every run -/

/-- The process under utrace follows the program on its own. -/
theorem Processor.follows (p : Processor ρ) (env : Env) (hpid : pid ≠ 0) :
    Follows (p.step env) p.completes p.next p.rank fun s c =>
      s.Mirrors p pid symbols starts c ∧ ∀ j, p.Behaves symbols starts (p.next^[j] c) where
  advance := by
    rintro s c ⟨hs, hc⟩ hadv
    obtain ⟨s', hstep, hs', -⟩ := hs.advance env (hc 0) hadv
    exact ⟨s', hstep, hs', fun j => hc (j + 1)⟩
  stutter := by
    rintro s c ⟨hs, hc⟩ hadv
    obtain ⟨s', hstep, hs', hrank⟩ := hs.stutter env (hc 0) hpid hadv
    exact ⟨s', hstep, ⟨hs', hc⟩, hrank⟩

/-- A program that behaves runs under utrace as it does on its own: utrace never fails, at most
four steps pass for an instruction, and whenever the process runs its registers and its memory
behind the breakpoints are those of the program on its own after as many instructions. Every number
of instructions is reached so. -/
theorem tracing_transparent (p : Processor ρ) (env : Env) (filename : String) (hpid : pid ≠ 0)
    (hstarts : ∀ sym ∈ symbolsOf env (some filename), sym.enterAddr ∈ starts)
    (hc : ∀ j, p.Behaves (symbolsOf env (some filename)) starts (p.next^[j] c)) :
    (∀ k, ∃ s j, ticks (p.step env) p.completes (p.opened env filename pid c) k = some (s, j) ∧
      j ≤ k ∧ k ≤ 4 * j + 3 ∧
      (s.phase = .running ∨ s.phase = .stepping → s.Shows env (p.next^[j] c))) ∧
    ∀ j, ∃ k s, ticks (p.step env) p.completes (p.opened env filename pid c) k = some (s, j) ∧
      s.Shows env (p.next^[j] c) := by
  have hfollows : Follows (p.step env) p.completes p.next p.rank fun s c =>
      s.Mirrors p pid (symbolsOf env (some filename)) starts c ∧
        ∀ j, p.Behaves (symbolsOf env (some filename)) starts (p.next^[j] c) :=
    p.follows env hpid
  have hphase : (p.opened env filename pid c).phase = .stopped
      (p.report (p.opened env filename pid c).sys.tracee.mem c.regs (-1)) none := by
    have hmem : (p.opened env filename pid c).sys.tracee.mem = c.mem :=
      funext fun a => congrArg Cell.byte (cell_openTracee env filename pid c.mem a)
    rw [hmem]
    rfl
  have hhides := Sys.Hides.opened env filename pid c.mem hstarts
  have hbe := congrArg Process.breakpointsEnabled (header_openTracee env filename pid c.mem)
  have hquiet : Callstack.empty.Quiet := by
    intro elem hmem
    cases hmem
  constructor
  · intro k
    obtain ⟨s, j, hk, ⟨hs, -⟩, hj, hrank⟩ := hfollows.after (fun _ => p.rank_le _)
      ⟨Traced.Mirrors.first hphase hhides hbe rfl hquiet rfl, hc⟩ k
    exact ⟨s, j, hk, hj, by omega, hs.shows⟩
  · intro j
    obtain ⟨s, hstep, hs, hrunning⟩ :=
      Traced.Mirrors.started env hphase hhides hpid hbe rfl hquiet rfl
    have hk : ticks (p.step env) p.completes (p.opened env filename pid c) 1 = some (s, 0) :=
      Follows.ticks_stutter (k := 0) rfl rfl hstep
    have hshows : s.Shows env c := hs.shows (.inl hrunning)
    have hadvanced : ∀ {s : Traced ρ} {c : Cpu ρ} {s' : Traced ρ},
        (s.Mirrors p pid (symbolsOf env (some filename)) starts c ∧
          ∀ j, p.Behaves (symbolsOf env (some filename)) starts (p.next^[j] c)) →
        p.completes s = true → p.step env s = some s' → s'.Shows env (p.next c) := by
      rintro s c s' ⟨hs, hc⟩ hadv hstep
      obtain ⟨s'', hstep', -, hshows⟩ := hs.advance env (hc 0) hadv
      exact Option.some.inj (hstep'.symm.trans hstep) ▸ hshows
    obtain ⟨k, s', hk', -, hs'⟩ := hfollows.reaches hk ⟨hs, hc⟩ hshows hadvanced j
    exact ⟨k, s', hk', hs'⟩

/-! ## A program that calls a function over and over -/

/-- The bytes of a word, stored. -/
def pushedWord (word esp a : Addr) : Option Byte :=
  if a - esp < 4 then some ((word >>> (8 * (a - esp).toNat)).setWidth 8) else none

/-- Three instructions: the call of a function at 0x1000, its return, and the jump back. The
registers are the program counter and the stack pointer. -/
def threeInstructions : Processor (Addr × Addr) where
  eip := Prod.fst
  setEip regs a := (a, regs.2)
  uesp := Prod.snd
  eax _ := 0
  syscall _ _ := none
  exec mem regs :=
    if mem regs.1 = 0xe8 then ((0x1000, regs.2 - 4), pushedWord (regs.1 + 5) (regs.2 - 4))
    else if mem regs.1 = 0xc3 then ((peekWord mem regs.2, regs.2 + 4), fun _ => none)
    else ((0x2000, regs.2), fun _ => none)
  serve _ _ regs := (regs, fun _ => none)
  eip_setEip _ _ := rfl
  setEip_eip _ := rfl
  setEip_setEip _ _ _ := rfl
  uesp_setEip _ _ := rfl

/-- The program: the function returns at once. -/
def callerCode (a : Addr) : Byte :=
  if a = 0x1000 then 0xc3 else if a = 0x2000 then 0xe8 else 0xeb

/-- The entry of the function, and where its call returns to. -/
def callerStarts : Set Addr := {0x1000, 0x2005}

/-- None of the three instructions makes a system call. -/
theorem threeInstructions_next (c : Cpu (Addr × Addr)) : threeInstructions.next c =
    ⟨stored c.mem (threeInstructions.exec c.mem c.regs).2,
      (threeInstructions.exec c.mem c.regs).1⟩ := Processor.next_of_none rfl

/-- The program at one of its instructions. -/
structure Calling (c : Cpu (Addr × Addr)) : Prop where
  code : ∀ a < 0x3000, c.mem a = callerCode a
  point : c.regs = (0x2000, 0x3004) ∨ c.regs = (0x2005, 0x3004) ∨
    c.regs = (0x1000, 0x3000) ∧ ∀ a, 0x3000 ≤ a → a < 0x3004 →
      some (c.mem a) = pushedWord 0x2005 0x3000 a

namespace Calling

variable {c : Cpu (Addr × Addr)} {mem : Addr → Byte}

/-- The call pushes the address behind it. -/
theorem exec_call (h : mem 0x2000 = 0xe8) : threeInstructions.exec mem (0x2000, 0x3004) =
    ((0x1000, 0x3000), pushedWord 0x2005 0x3000) := if_pos h

/-- The jump goes back to the call. -/
theorem exec_jump (h : mem 0x2005 = 0xeb) : threeInstructions.exec mem (0x2005, 0x3004) =
    ((0x2000, 0x3004), fun _ => none) := by
  have hcall : mem 0x2005 ≠ 0xe8 := by rw [h]; decide
  have hreturn : mem 0x2005 ≠ 0xc3 := by rw [h]; decide
  exact (if_neg hcall).trans (if_neg hreturn)

/-- The return pops the address. -/
theorem exec_return (h : mem 0x1000 = 0xc3) : threeInstructions.exec mem (0x1000, 0x3000) =
    ((peekWord mem 0x3000, 0x3004), fun _ => none) := by
  have hcall : mem 0x1000 ≠ 0xe8 := by rw [h]; decide
  exact (if_neg hcall).trans (if_pos h)

/-- The word pushed is the address behind the call. -/
theorem peekWord_eq
    (h : ∀ a, 0x3000 ≤ a → a < 0x3004 → some (mem a) = pushedWord 0x2005 0x3000 a) :
    peekWord mem 0x3000 = 0x2005 := by
  have h0 : mem 0x3000 = 0x05 := Option.some.inj ((h _ (by decide) (by decide)).trans (by decide))
  have h1 : mem (0x3000 + 1) = 0x20 :=
    Option.some.inj ((h _ (by decide) (by decide)).trans (by decide))
  have h2 : mem (0x3000 + 2) = 0 :=
    Option.some.inj ((h _ (by decide) (by decide)).trans (by decide))
  have h3 : mem (0x3000 + 3) = 0 :=
    Option.some.inj ((h _ (by decide) (by decide)).trans (by decide))
  rw [peekWord, h0, h1, h2, h3]
  decide

/-- Nothing else is pushed. -/
theorem pushedWord_eq_none {a : Addr} (ha : a < 0x3000) : pushedWord 0x2005 0x3000 a = none :=
  if_neg (by bv_omega)

/-- It goes on to the next one. -/
theorem next (h : Calling c) : Calling (threeInstructions.next c) := by
  obtain ⟨mem, regs⟩ := c
  obtain ⟨hcode, hpoint⟩ := h
  dsimp only at hcode hpoint
  rw [threeInstructions_next]
  rcases hpoint with rfl | rfl | ⟨rfl, hword⟩
  · dsimp only
    rw [exec_call (hcode _ (by decide))]
    refine ⟨fun a ha => ?_, .inr (.inr ⟨rfl, fun a ha ha' => ?_⟩)⟩
    · change stored mem (pushedWord 0x2005 0x3000) a = _
      rw [stored, pushedWord_eq_none ha]
      exact hcode a ha
    · have hsome : pushedWord 0x2005 0x3000 a = some _ := if_pos (by bv_omega)
      change some (stored mem (pushedWord 0x2005 0x3000) a) = _
      rw [stored, hsome]
      rfl
  · dsimp only
    rw [exec_jump (hcode _ (by decide))]
    exact ⟨hcode, .inl rfl⟩
  · dsimp only
    rw [exec_return (hcode _ (by decide)), peekWord_eq hword]
    exact ⟨hcode, .inr (.inl rfl)⟩

/-- A program in the loop behaves. -/
theorem behaves (h : Calling c) :
    threeInstructions.Behaves [⟨"f", 0x1000⟩] callerStarts c := by
  obtain ⟨mem, regs⟩ := c
  obtain ⟨hcode, hpoint⟩ := h
  dsimp only at hcode hpoint
  have hstarts : ∀ a ∈ callerStarts, a < 0x3000 := by
    rintro a (rfl | rfl) <;> decide
  have hagree : ∀ mem', (∀ a ∉ callerStarts, mem' a = mem a) →
      peekWord mem' 0x3000 = peekWord mem 0x3000 := by
    intro mem' hmem'
    have houtside : ∀ a, ¬ a < 0x3000 → mem' a = mem a :=
      fun a ha => hmem' a fun hstart => ha (hstarts a hstart)
    rw [peekWord, peekWord, houtside _ (by decide), houtside _ (by decide),
      houtside _ (by decide), houtside _ (by decide)]
  rcases hpoint with rfl | rfl | ⟨rfl, hword⟩
  · have hbyte : mem 0x2000 = 0xe8 := hcode _ (by decide)
    refine ⟨?_, fun mem' hsame _ => ⟨?_, rfl⟩, fun a ha => ?_, ?_, nofun, nofun, nofun⟩
    · change mem 0x2000 ≠ trap
      rw [hbyte]
      decide
    · exact (exec_call (hsame.trans hbyte)).trans (exec_call hbyte).symm
    · dsimp only
      rw [exec_call hbyte]
      exact pushedWord_eq_none (hstarts a ha)
    · intro sym hsym haddr
      obtain rfl := List.mem_singleton.mp hsym
      exact absurd (show (0x1000 : Addr) = 0x2000 from haddr) (by decide)
  · have hbyte : mem 0x2005 = 0xeb := hcode _ (by decide)
    refine ⟨?_, fun mem' hsame _ => ⟨?_, rfl⟩, fun a ha => ?_, ?_, nofun, nofun, nofun⟩
    · change mem 0x2005 ≠ trap
      rw [hbyte]
      decide
    · exact (exec_jump (hsame.trans hbyte)).trans (exec_jump hbyte).symm
    · dsimp only
      rw [exec_jump hbyte]
    · intro sym hsym haddr
      obtain rfl := List.mem_singleton.mp hsym
      exact absurd (show (0x1000 : Addr) = 0x2005 from haddr) (by decide)
  · have hbyte : mem 0x1000 = 0xc3 := hcode _ (by decide)
    refine ⟨?_, fun mem' hsame hmem' => ⟨?_, rfl⟩, fun a ha => ?_, fun _ _ _ mem' hmem' => ?_,
      nofun, nofun, nofun⟩
    · change mem 0x1000 ≠ trap
      rw [hbyte]
      decide
    · dsimp only
      rw [exec_return (hsame.trans hbyte), exec_return hbyte, hagree mem' hmem']
    · dsimp only
      rw [exec_return hbyte]
    · change peekWord mem' 0x3000 ∈ callerStarts
      rw [hagree mem' hmem', peekWord_eq hword]
      exact .inr rfl

end Calling

/-- The program calls its function over and over under utrace too. -/
theorem tracing_transparent_calls :
    let env : Env := { optL := true, readElf := fun _ => [⟨"f", 0x1000⟩] }
    let c : Cpu (Addr × Addr) := ⟨callerCode, (0x2000, 0x3004)⟩
    ∀ j, ∃ k s, ticks (threeInstructions.step env) threeInstructions.completes
      (threeInstructions.opened env "a.out" 7 c) k = some (s, j) ∧
        s.regs = (threeInstructions.next^[j] c).regs := by
  intro env c j
  have hcalling : ∀ j, Calling (threeInstructions.next^[j] c) := by
    intro j
    induction j with
    | zero => exact ⟨fun _ _ => rfl, .inl rfl⟩
    | succ j ih =>
      rw [Function.iterate_succ_apply']
      exact ih.next
  have hsymbols : symbolsOf env (some "a.out") = [⟨"f", 0x1000⟩] := rfl
  have hstarts : ∀ sym ∈ symbolsOf env (some "a.out"), sym.enterAddr ∈ callerStarts := by
    intro sym hsym
    obtain rfl := List.mem_singleton.mp (hsymbols ▸ hsym)
    exact .inl rfl
  have hpid : (7 : Pid) ≠ 0 := by decide
  obtain ⟨k, s, hk, hshows, -⟩ := (tracing_transparent threeInstructions env "a.out" hpid
    hstarts fun j => (hcalling j).behaves).2 j
  exact ⟨k, s, hk, hshows⟩

end Utrace
