import Utrace.Interpretation.Calls
import Utrace.Interpretation.Ready

/-!
# The call flow of one thread

A program with one thread calls traced functions, returns from the innermost one, and
moves about inside it. Wherever it arrives at an armed trap there is a breakpoint event.
The call stack follows the program until it arrives at an address whose trap means
something else: returns and entries are told by the address alone.
-/

namespace Utrace

/-! ## A settled process -/

/-- A process with one thread between two of its breakpoint events. -/
structure Sys.Settled (pid : Pid) (symbols : List LibrarySymbol) (orig : Addr → Byte)
    (s : Sys Unit) : Prop where
  steady : s.Steady pid symbols
  text : TextState orig Set.univ s.tracee (s.threads ()).breakpointBeingEnabled
  counted : s.Counted
  enabled : s.tracee.proc.breakpointsEnabled = 1
  listed : s.listed = true

/-- The first event settles the process, with an empty call stack and no step pending. -/
theorem Sys.Settled.first {env : Env} {filename : String} {pid : Pid} {orig : Addr → Byte}
    {first : Stop} {s : Sys Unit} (hpid : pid ≠ 0)
    (hs : (Sys.opened env filename pid orig fun _ => pid).step env (.stop () first) = some s) :
    s.Settled pid (symbolsOf env (some filename)) orig ∧
      (s.threads ()).callstack = .empty ∧ (s.threads ()).breakpointBeingEnabled = none := by
  obtain ⟨hclass, f, hf, htracee, hcallstack, hbeing, hlisted⟩ :=
    Sys.opened_event env filename pid orig (fun _ : Unit => pid) () first
  have hfork : (Sys.opened env filename pid orig fun _ : Unit => pid).forkOrExecExit env
      (.stop () first) = false := by
    simp only [Sys.forkOrExecExit, hclass]
  have hkeeps : (Sys.opened env filename pid orig fun _ : Unit => pid).KeepsText Set.univ
      (.stop () first) := trivial
  obtain ⟨hsteady, htext⟩ := (Run.single hkeeps hs).textState hpid ()
  have hrun : Run (Sys.step env) (fun s input => s.forkOrExecExit env input = false)
      (Sys.opened env filename pid orig fun _ => pid) [.stop () first] s := Run.single hfork hs
  obtain ⟨_, hcounted⟩ := hrun.counted
  obtain ⟨_, f', hf', rfl⟩ := Sys.step_stop_eq_some.mp hs
  obtain rfl : f = f' := Except.ok.inj (hf.symm.trans hf')
  refine ⟨⟨hsteady, htext, hcounted, ?_, hlisted⟩, ?_, ?_⟩
  · change f.tracee.proc.breakpointsEnabled = 1
    rw [htracee]
    rfl
  · rw [Sys.threads_put_self]
    exact hcallstack
  · rw [Sys.threads_put_self]
    exact hbeing

/-- The thread of a settled process is ready for its next trap. -/
theorem Sys.Settled.ready {pid : Pid} {symbols : List LibrarySymbol} {orig : Addr → Byte}
    {s : Sys Unit} (h : s.Settled pid symbols orig) : s.Ready () := by
  refine h.counted.ready h.steady h.listed ?_ ()
  rw [h.enabled]
  decide

/-- A trap outside every system call settles the process again. -/
theorem Sys.Settled.trap {env : Env} {pid : Pid} {symbols : List LibrarySymbol}
    {orig : Addr → Byte} {s s' : Sys Unit} {stop : Stop} (hpid : pid ≠ 0)
    (h : s.Settled pid symbols orig) (hstatus : stop.status = .stopped sigtrap)
    (horig : stop.origEax = -1) (hs : s.step env (.stop () stop) = some s') :
    s'.Settled pid symbols orig ∧ ∃ f', s' = s.put () f' ∧
      Hit env (s.focus () stop) stop (stop.eip - decrPcAfterBreak) f' := by
  have hfirst : s.tracee.proc.breakpointsEnabled ≠ -1 := by
    rw [h.enabled]
    decide
  have hbe := h.steady.enabled_ne_zero h.listed
  obtain ⟨hclass, ip, hevent⟩ := h.steady.breakpoint_event env hfirst hstatus horig ()
  have hfork : s.forkOrExecExit env (.stop () stop) = false := by
    simp only [Sys.forkOrExecExit, hclass]
  have hcounted := h.counted.step h.steady hfork hs
  have hsteady := h.steady.step hs
  obtain ⟨hl, f', hf, rfl⟩ := Sys.step_stop_eq_some.mp hs
  have htext := (handle_effect hf).1.textState (h.steady.pid ▸ hpid) (h.steady.pushed ()) hbe h.text
  obtain ⟨hhit, _, hlisted, _⟩ := processBreakpoint_hit (hevent.symm.trans hf)
  refine ⟨⟨hsteady, ?_, hcounted, ?_, ?_⟩, f', rfl, hhit.of_withIp⟩
  · rw [Sys.threads_put_self]
    exact htext
  · exact hhit.breakpointsEnabled.trans h.enabled
  · exact hlisted.trans h.listed

/-- Whether an arrival at an address executes a trap utrace planted. -/
def Tracee.armed (t : Tracee) (a : Addr) : Bool := decide (0 < t.enabledAt a) && t.mem a == trap

/-- While no step is pending, every referenced entry is armed. -/
theorem Sys.Settled.armed_iff {pid : Pid} {symbols : List LibrarySymbol} {orig : Addr → Byte}
    {s : Sys Unit} (h : s.Settled pid symbols orig)
    (hnone : (s.threads ()).breakpointBeingEnabled = none) (a : Addr) :
    s.tracee.armed a = true ↔ 0 < s.tracee.enabledAt a := by
  unfold Tracee.armed
  rw [Bool.and_eq_true, decide_eq_true_eq, beq_iff_eq]
  refine ⟨And.left, fun hpos => ⟨hpos, ?_⟩⟩
  cases h.text with
  | fresh hbe => cases hbe.symm.trans h.enabled
  | lifted hbe => cases hbe.symm.trans h.enabled
  | planted _ hcell =>
    refine (hcell a (Set.mem_univ a)).trapped ?_ hpos
    rw [hnone]
    exact nofun

/-- An address that is not referenced is no entry and no call returns there. -/
theorem Sys.Settled.not_owned {pid : Pid} {symbols : List LibrarySymbol} {orig : Addr → Byte}
    {s : Sys Unit} {calls : List Activation} (h : s.Settled pid symbols orig)
    (hcalls : (s.threads ()).callstack.Exactly calls) {a : Addr}
    (hz : ¬0 < s.tracee.enabledAt a) :
    a ∉ calls.map Prod.snd ∧ isEntry s.tracee.proc a = false := by
  have hcount := h.counted.refs_unit a
  have hframes : frameRefs (s.threads ()).callstack.elems a = 0 := by omega
  have hsymbols : symbolRefs s.tracee.proc.listOfSymbols a = 0 := by omega
  constructor
  · intro hmem
    exact (hcalls.frameRefs_pos hmem).ne' hframes
  · rw [isEntry, symbolRefs_eq_zero_iff.mp hsymbols]
    rfl

/-! ## One arrival -/

/-- The program arrives at an address: an armed trap is reported, and nothing else is. -/
def Sys.arrive (env : Env) (s : Sys Unit) (a stackTop : Addr) : Option (Sys Unit) :=
  if s.tracee.armed a then s.step env (.stop () (trapStop a stackTop)) else some s

/-- At a trap stop the program counter is just behind the trap. -/
theorem eip_trapStop (a stackTop : Addr) : (trapStop a stackTop).eip - decrPcAfterBreak = a :=
  add_sub_cancel_right a decrPcAfterBreak

/-- An arrival changes the calls as `recordTrap` says, whether or not there is a trap. -/
theorem Sys.Settled.arrive {env : Env} {pid : Pid} {symbols : List LibrarySymbol}
    {orig : Addr → Byte} {s s' : Sys Unit} {calls : List Activation} {a stackTop : Addr}
    (hpid : pid ≠ 0) (h : s.Settled pid symbols orig)
    (hnone : (s.threads ()).breakpointBeingEnabled = none)
    (hcalls : (s.threads ()).callstack.Exactly calls) (hs : s.arrive env a stackTop = some s') :
    s'.Settled pid symbols orig ∧ (s'.threads ()).callstack.Exactly
      (recordTrap (isEntry s.tracee.proc) calls a stackTop) := by
  unfold Sys.arrive at hs
  split at hs
  · obtain ⟨hsettled, f', rfl, hhit⟩ := h.trap hpid rfl rfl hs
    refine ⟨hsettled, ?_⟩
    rw [Sys.threads_put_self]
    rw [eip_trapStop] at hhit
    exact hhit.exactly hnone hcalls
  · rename_i harmed
    cases hs
    rw [h.armed_iff hnone] at harmed
    obtain ⟨hret, hentry⟩ := h.not_owned hcalls harmed
    refine ⟨h, ?_⟩
    rw [(recordTrap_jump_iff a stackTop).mpr ⟨hret, fun he => by cases he.symm.trans hentry⟩]
    exact hcalls

/-- An arrival is always handled. -/
theorem Sys.Settled.arrive_exists (env : Env) {pid : Pid} {symbols : List LibrarySymbol}
    {orig : Addr → Byte} {s : Sys Unit} {calls : List Activation}
    (h : s.Settled pid symbols orig) (hcalls : (s.threads ()).callstack.Exactly calls)
    (a stackTop : Addr) : ∃ s', s.arrive env a stackTop = some s' := by
  unfold Sys.arrive
  split
  · have htrap : (trapStop a stackTop).IsTrap := ⟨rfl, rfl⟩
    obtain ⟨f', hstep, _⟩ := h.ready.trap env htrap
      (Or.inr fun n m _ hsys => hcalls.not_syscall hsys)
    exact ⟨_, hstep⟩
  · exact ⟨s, rfl⟩

/-! ## The program -/

/-- The traced process with the calls of traced functions that are live, innermost first. -/
structure Program where
  sys : Sys Unit
  live : List Activation

/-- What the program does next. -/
inductive Move where
  /-- Call the traced function at an entry address, with a return address. -/
  | call (entry ret : Addr)
  /-- Return from the innermost live call. -/
  | ret (stackTop : Addr)
  /-- Move to any other address, by falling through or by a jump. -/
  | jump (a stackTop : Addr)
  /-- The step asked for is over, somewhere. -/
  | stepped (eip : Addr)

namespace Program

/-- One move. -/
def step (env : Env) (p : Program) : Move → Option Program
  | .call entry ret => (p.sys.arrive env entry ret).map fun sys => ⟨sys, (entry, ret) :: p.live⟩
  | .ret stackTop =>
    match p.live with
    | [] => none
    | (_, ret) :: live => (p.sys.arrive env ret stackTop).map fun sys => ⟨sys, live⟩
  | .jump a stackTop => (p.sys.arrive env a stackTop).map fun sys => ⟨sys, p.live⟩
  | .stepped eip => (p.sys.step env (.stop () { status := .stopped sigtrap, eip := eip })).map
      fun sys => ⟨sys, p.live⟩

/-- The moves a program with one thread can make: a step is over before anything else
happens, calls are of traced functions, and they nest below the limit. -/
def Valid (p : Program) : Move → Prop
  | .call entry _ => (p.sys.threads ()).breakpointBeingEnabled = none ∧
      isEntry p.sys.tracee.proc entry = true ∧ p.live.length < maxCalldepth - 1
  | .ret _ => (p.sys.threads ()).breakpointBeingEnabled = none ∧ p.live ≠ []
  | .jump _ _ => (p.sys.threads ()).breakpointBeingEnabled = none
  | .stepped _ => (p.sys.threads ()).breakpointBeingEnabled ≠ none

/-- The function entries of the call stack are the live calls. -/
def Exact (p : Program) : Prop := (p.sys.threads ()).callstack.calls = p.live

/-- The moves that are told right: a call enters at no pending return address; a jump goes to
none, and to no traced entry while there is room on the stack. -/
def Recognised (p : Program) : Move → Prop
  | .call entry _ => entry ∉ p.live.map Prod.snd
  | .jump a _ => a ∉ p.live.map Prod.snd ∧
      (isEntry p.sys.tracee.proc a = true → maxCalldepth - 1 ≤ p.live.length)
  | _ => True

/-- A valid move settles the process again, with the calls the program has exactly when the
move is told right. -/
theorem step_calls {env : Env} {pid : Pid} {symbols : List LibrarySymbol} {orig : Addr → Byte}
    {p q : Program} {move : Move} (hpid : pid ≠ 0) (h : p.sys.Settled pid symbols orig)
    (hcalls : (p.sys.threads ()).callstack.Exactly p.live) (hvalid : p.Valid move)
    (hs : p.step env move = some q) :
    q.sys.Settled pid symbols orig ∧ ∃ calls, (q.sys.threads ()).callstack.Exactly calls ∧
      (calls = q.live ↔ p.Recognised move) := by
  cases move with
  | call entry ret =>
    obtain ⟨hnone, hentry, hroom⟩ := hvalid
    obtain ⟨sys, harrive, rfl⟩ := Option.map_eq_some_iff.mp hs
    obtain ⟨hsettled, hexactly⟩ := h.arrive hpid hnone hcalls harrive
    exact ⟨hsettled, _, hexactly, recordTrap_call_iff hentry hroom⟩
  | ret stackTop =>
    obtain ⟨hnone, hlive⟩ := hvalid
    obtain ⟨s, live⟩ := p
    cases live with
    | nil => exact (hlive rfl).elim
    | cons call live =>
      obtain ⟨sys, harrive, rfl⟩ := Option.map_eq_some_iff.mp hs
      obtain ⟨hsettled, hexactly⟩ := h.arrive hpid hnone hcalls harrive
      exact ⟨hsettled, _, hexactly, iff_of_true (recordTrap_ret call.1 call.2 stackTop) trivial⟩
  | jump a stackTop =>
    obtain ⟨sys, harrive, rfl⟩ := Option.map_eq_some_iff.mp hs
    obtain ⟨hsettled, hexactly⟩ := h.arrive hpid hvalid hcalls harrive
    exact ⟨hsettled, _, hexactly, recordTrap_jump_iff a stackTop⟩
  | stepped eip =>
    obtain ⟨sys, hstep, rfl⟩ := Option.map_eq_some_iff.mp hs
    obtain ⟨hsettled, f', rfl, hhit⟩ := h.trap hpid rfl rfl hstep
    refine ⟨hsettled, p.live, ?_, iff_of_true rfl trivial⟩
    change ((p.sys.put () f').threads ()).callstack.Exactly p.live
    rw [Sys.threads_put_self]
    cases hhit with
    | rearm _ _ _ hcs => rw [hcs]; exact hcalls
    | ret _ _ hnone => exact (hvalid hnone).elim
    | entry _ hnone => exact (hvalid hnone).elim
    | stray hnone => exact (hvalid hnone).elim

instance decidableValid (p : Program) : (move : Move) → Decidable (p.Valid move)
  | .call .. => inferInstanceAs (Decidable (_ ∧ _ ∧ _))
  | .ret _ => inferInstanceAs (Decidable (_ ∧ _))
  | .jump .. => inferInstanceAs (Decidable (_ = _))
  | .stepped _ => inferInstanceAs (Decidable (_ ≠ _))

instance decidableRecognised (p : Program) : (move : Move) → Decidable (p.Recognised move)
  | .call .. => inferInstanceAs (Decidable (_ ∉ _))
  | .ret _ => inferInstanceAs (Decidable True)
  | .jump .. => inferInstanceAs (Decidable (_ ∧ (_ → _)))
  | .stepped _ => inferInstanceAs (Decidable True)

/-- The call stack is that of the program, and the process is settled. -/
structure Followed (pid : Pid) (symbols : List LibrarySymbol) (orig : Addr → Byte)
    (p : Program) : Prop where
  settled : p.sys.Settled pid symbols orig
  calls : (p.sys.threads ()).callstack.Exactly p.live

/-- A valid move keeps the call stack exact exactly when it is told right. -/
theorem Followed.exact_iff {env : Env} {pid : Pid} {symbols : List LibrarySymbol}
    {orig : Addr → Byte} {p q : Program} {move : Move} (hpid : pid ≠ 0)
    (h : p.Followed pid symbols orig) (hvalid : p.Valid move) (hs : p.step env move = some q) :
    q.Exact ↔ p.Recognised move := by
  obtain ⟨_, calls, hexactly, hiff⟩ := step_calls hpid h.settled h.calls hvalid hs
  unfold Exact
  rw [hexactly.calls_eq]
  exact hiff

/-- Each recognised move keeps the program followed. -/
theorem Followed.step {env : Env} {pid : Pid} {symbols : List LibrarySymbol}
    {orig : Addr → Byte} {p q : Program} {move : Move} (hpid : pid ≠ 0)
    (h : p.Followed pid symbols orig) (hvalid : p.Valid move) (hrecognised : p.Recognised move)
    (hs : p.step env move = some q) : q.Followed pid symbols orig := by
  obtain ⟨hsettled, calls, hexactly, hiff⟩ := step_calls hpid h.settled h.calls hvalid hs
  exact ⟨hsettled, hiff.mpr hrecognised ▸ hexactly⟩

/-- No valid move goes unhandled. -/
theorem Followed.step_exists (env : Env) {pid : Pid} {symbols : List LibrarySymbol}
    {orig : Addr → Byte} {p : Program} {move : Move} (h : p.Followed pid symbols orig)
    (hvalid : p.Valid move) : ∃ q, p.step env move = some q := by
  cases move with
  | call entry ret =>
    obtain ⟨sys, hsys⟩ := h.settled.arrive_exists env h.calls entry ret
    exact ⟨_, Option.map_eq_some_iff.mpr ⟨sys, hsys, rfl⟩⟩
  | ret stackTop =>
    obtain ⟨s, live⟩ := p
    cases live with
    | nil => exact (hvalid.2 rfl).elim
    | cons call live =>
      obtain ⟨sys, hsys⟩ := h.settled.arrive_exists env h.calls call.2 stackTop
      exact ⟨_, Option.map_eq_some_iff.mpr ⟨sys, hsys, rfl⟩⟩
  | jump a stackTop =>
    obtain ⟨sys, hsys⟩ := h.settled.arrive_exists env h.calls a stackTop
    exact ⟨_, Option.map_eq_some_iff.mpr ⟨sys, hsys, rfl⟩⟩
  | stepped eip =>
    have htrap : ({ status := .stopped sigtrap, eip := eip } : Stop).IsTrap := ⟨rfl, rfl⟩
    obtain ⟨f', hstep, _⟩ := h.settled.ready.trap env htrap (Or.inl hvalid)
    exact ⟨_, Option.map_eq_some_iff.mpr ⟨_, hstep, rfl⟩⟩

end Program

/-- For every program with one thread and every sequence of valid moves: the call stack is
exact after every event exactly when every move is told right. Then no event fails. -/
theorem call_flow_iff (env : Env) (filename : String) {pid : Pid} (hpid : pid ≠ 0)
    (orig : Addr → Byte) {first : Stop} {s₀ : Sys Unit}
    (hfirst : (Sys.opened env filename pid orig fun _ => pid).step env (.stop () first) = some s₀)
    (moves : List Move) (p : Program) :
    (Run (Program.step env) (fun p move => p.Valid move ∧ ∀ q, p.step env move = some q → q.Exact)
        ⟨s₀, []⟩ moves p ↔
      Run (Program.step env) (fun p move => p.Valid move ∧ p.Recognised move)
        ⟨s₀, []⟩ moves p) ∧
    (Run (Program.step env) (fun p move => p.Valid move ∧ p.Recognised move) ⟨s₀, []⟩ moves p →
      ∀ move, p.Valid move → ∃ q, p.step env move = some q) := by
  obtain ⟨hsettled, hempty, _⟩ := Sys.Settled.first hpid hfirst
  have hstart : Program.Followed pid (symbolsOf env (some filename)) orig ⟨s₀, []⟩ := by
    refine ⟨hsettled, ?_⟩
    rw [hempty]
    rfl
  constructor
  · exact Run.guard_iff hstart (fun _ _ _ hp hvalid hrec hs => hp.step hpid hvalid hrec hs)
      fun _ _ _ hp hvalid hs => hp.exact_iff hpid hvalid hs
  · intro hr move hvalid
    have hfollowed := hr.invariant hstart
      fun _ _ _ hp hg hs => Program.Followed.step hpid hp hg.1 hg.2 hs
    exact hfollowed.step_exists env hvalid

/-- `f` calls itself, and the inner call runs into the address the outer one waits for. -/
theorem call_flow_lost :
    ¬∀ (env : Env) (filename : String) (pid : Pid) (orig : Addr → Byte) (first : Stop)
      (s₀ : Sys Unit) (moves : List Move) (p : Program), pid ≠ 0 →
      (Sys.opened env filename pid orig fun _ => pid).step env (.stop () first) = some s₀ →
      Run (Program.step env) (fun p move => p.Valid move) ⟨s₀, []⟩ moves p → p.Exact := by
  intro hclaim
  have hobs : ((Sys.opened twoFunctions "a.out" 7 nops fun _ : Unit => 7).step twoFunctions
      (.stop () (trapStop 0x3000))).any (fun s₀ =>
        (runInputs (Program.step twoFunctions) (fun p move => decide (p.Valid move)) ⟨s₀, []⟩
          [.call 0x1000 0x3000, .stepped 0x1001, .call 0x1000 0x1010, .stepped 0x1001,
            .jump 0x1010 0]).any fun p => p.live != (p.sys.threads ()).callstack.calls) = true := by
    decide +kernel
  rw [Option.any_eq_true] at hobs
  obtain ⟨s₀, hfirst, hrun⟩ := hobs
  obtain ⟨p, hr, hp⟩ := exists_run_of_observe (fun _ _ h => of_decide_eq_true h) hrun
  have hexact := hclaim twoFunctions "a.out" 7 nops _ s₀ _ p (by decide) hfirst hr
  rw [bne_iff_ne] at hp
  exact hp hexact.symm

/-- A call of `f` that returns. -/
theorem call_flow_iff_call :
    ∃ s₀ p, (Sys.opened twoFunctions "a.out" 7 nops fun _ : Unit => 7).step twoFunctions
        (.stop () (trapStop 0x3000)) = some s₀ ∧
      Run (Program.step twoFunctions)
        (fun p move => p.Valid move ∧ ∀ q, p.step twoFunctions move = some q → q.Exact) ⟨s₀, []⟩
        [.call 0x1000 0x3000, .stepped 0x1001, .ret 0] p ∧ p.live = [] := by
  have hobs : ((Sys.opened twoFunctions "a.out" 7 nops fun _ : Unit => 7).step twoFunctions
      (.stop () (trapStop 0x3000))).any (fun s₀ =>
        (runInputs (Program.step twoFunctions)
          (fun p move => decide (p.Valid move ∧ p.Recognised move)) ⟨s₀, []⟩
          [.call 0x1000 0x3000, .stepped 0x1001, .ret 0]).any fun p => p.live == []) = true := by
    decide +kernel
  rw [Option.any_eq_true] at hobs
  obtain ⟨s₀, hfirst, hrun⟩ := hobs
  obtain ⟨p, hr, hp⟩ := exists_run_of_observe (fun _ _ h => of_decide_eq_true h) hrun
  exact ⟨s₀, p, hfirst, (call_flow_iff _ _ (by decide) nops hfirst _ p).1.mpr hr,
    beq_iff_eq.mp hp⟩

end Utrace
