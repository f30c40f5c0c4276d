import Utrace.Interpretation.Effect
import Utrace.Native.System

/-!
# What every run keeps

The state a process is opened in, and the facts about it that no event changes: its pid
and its symbols stay, no call stack ever holds an `execve`, and a listed process has its
breakpoints either not yet enabled or enabled.
-/

namespace Utrace

/-! ## The opened process -/

/-- The symbols with an entry address. -/
def symbolRefs (symbols : List LibrarySymbol) (a : Addr) : Nat :=
  symbols.countP fun sym => sym.enterAddr = a

/-- An address without symbols is no entry address. -/
theorem symbolRefs_eq_zero_iff {proc : Process} {a : Addr} :
    symbolRefs proc.listOfSymbols a = 0 ↔ symbolAt proc a = none := by
  rw [symbolRefs, symbolAt, List.countP_eq_zero, List.find?_eq_none]

/-- Insertions keep the record but for the table. -/
theorem header_insertAll (symbols : List LibrarySymbol) (t : Tracee) :
    (symbols.foldl (fun t sym => insertBreakpoint t sym.enterAddr) t).header = t.header := by
  induction symbols generalizing t with
  | nil => rfl
  | cons sym symbols ih => rw [List.foldl_cons, ih, header_insertBreakpoint]

/-- Inserting symbols while the pid is zero only counts them. -/
theorem cell_insertAll (symbols : List LibrarySymbol) (t : Tracee) (hpid : t.proc.pid = 0)
    (x : Addr) :
    (symbols.foldl (fun t sym => insertBreakpoint t sym.enterAddr) t).cell x =
      if symbolRefs symbols x = 0 then t.cell x
      else ⟨some ((t.cell x).refs + symbolRefs symbols x), (t.cell x).saved, t.mem x⟩ := by
  induction symbols generalizing t with
  | nil => rfl
  | cons sym symbols ih =>
    have hpid' : (insertBreakpoint t sym.enterAddr).proc.pid = 0 :=
      (congrArg Process.pid (header_insertBreakpoint t sym.enterAddr)).trans hpid
    have hbyte : ∀ y, (insertBreakpoint t sym.enterAddr).mem y =
        ((insertBreakpoint t sym.enterAddr).cell y).byte := fun _ => rfl
    rw [List.foldl_cons, ih _ hpid', hbyte, cell_insertBreakpoint]
    have hcount : symbolRefs (sym :: symbols) x =
        symbolRefs symbols x + if sym.enterAddr = x then 1 else 0 := by
      simp [symbolRefs, List.countP_cons]
    by_cases hx : x = sym.enterAddr
    · subst hx
      by_cases hz : symbolRefs symbols sym.enterAddr = 0 <;>
        simp [hcount, hz, hpid, Cell.insert, Cell.refs]
      omega
    · have hx' : ¬sym.enterAddr = x := fun he => hx he.symm
      simp [hcount, hx, hx']

/-- `open_program` leaves every cell as the file has it, with its symbols counted. -/
theorem cell_openTracee (env : Env) (filename : String) (pid : Pid) (mem : Addr → Byte)
    (x : Addr) :
    (openTracee env filename pid mem).cell x =
      ⟨if symbolRefs (symbolsOf env (some filename)) x = 0 then none
        else some (symbolRefs (symbolsOf env (some filename)) x : Int), none, mem x⟩ := by
  have hcell : (openTracee env filename pid mem).cell x =
      ((symbolsOf env (some filename)).foldl (fun t sym => insertBreakpoint t sym.enterAddr)
        { proc := { filename := some filename, listOfSymbols := symbolsOf env (some filename) }
          mem := mem }).cell x := rfl
  rw [hcell, cell_insertAll _ _ rfl]
  split <;> simp [Tracee.cell, Tracee.entry, Cell.refs]

/-- The record of a process just opened. -/
theorem header_openTracee (env : Env) (filename : String) (pid : Pid) (mem : Addr → Byte) :
    (openTracee env filename pid mem).header =
      { filename := some filename
        pid := pid
        listOfSymbols := symbolsOf env (some filename) } := by
  have hheader := header_insertAll (symbolsOf env (some filename))
    { proc := { filename := some filename, listOfSymbols := symbolsOf env (some filename) }
      mem := mem }
  have hopen : (openTracee env filename pid mem).header =
      { ((symbolsOf env (some filename)).foldl (fun t sym => insertBreakpoint t sym.enterAddr)
        { proc := { filename := some filename, listOfSymbols := symbolsOf env (some filename) }
          mem := mem }).header with breakpointsEnabled := -1, pid := pid } := rfl
  rw [hopen, hheader]
  rfl

/-! ## One event -/

/-- Every system call on the stack is one that `process_syscall` pushes: a number taken for
an entry, and not `execve`. -/
def Callstack.Pushed (cs : Callstack) : Prop :=
  ∀ cUn ∈ cs.elems.map CallstackElement.cUn, ∀ n, cUn = .syscall n → 0 ≤ n ∧ execP n = false

/-- A system call that may be pushed keeps the stack fair. -/
theorem Callstack.Pushed.push {cs : Callstack} (h : cs.Pushed) {elem : CallstackElement}
    (helem : ∀ n, elem.cUn = .syscall n → 0 ≤ n ∧ execP n = false) : (cs.push elem).Pushed := by
  unfold Callstack.Pushed
  rcases cs.push_cases elem with ⟨_, hfull⟩ | ⟨_, hpush⟩
  · rw [hfull]
    exact h
  · rw [hpush]
    simp only [List.map_cons, List.mem_cons, forall_eq_or_imp]
    exact ⟨helem, h⟩

/-- So do pops. -/
theorem Callstack.Pushed.iterate_pop {cs : Callstack} (h : cs.Pushed) (n : Nat) :
    (Callstack.pop^[n] cs).Pushed := by
  intro cUn hmem
  rw [elems_iterate_pop, List.map_drop] at hmem
  exact h cUn (List.mem_of_mem_drop hmem)

/-- A system call on top of the stack was pushed as such. -/
theorem Callstack.Pushed.head {cs : Callstack} (h : cs.Pushed) {n : Int}
    (hsys : cs.elems.head?.map CallstackElement.cUn = some (.syscall n)) :
    0 ≤ n ∧ execP n = false := by
  rw [← List.head?_map] at hsys
  exact h _ (List.mem_of_mem_head? hsys) n rfl

/-- The exit of an `execve` is never recognised. -/
theorem Callstack.Pushed.not_exec {cs : Callstack} (h : cs.Pushed) {n : Int}
    (hexec : execP n = true)
    (hsys : cs.elems.head?.map CallstackElement.cUn = some (.syscall n)) : False := by
  rw [(h.head hsys).2] at hexec
  cases hexec

/-- A trap outside every system call is taken for none. -/
theorem Callstack.Pushed.syscallP_eq_zero {thr : Thread} {stop : Stop}
    (h : thr.callstack.Pushed) (hstatus : stop.status = .stopped sigtrap)
    (horig : stop.origEax = -1) : syscallP thr stop = 0 := by
  unfold syscallP
  rw [if_pos hstatus, horig, if_neg, if_neg (by decide)]
  intro hhead
  have hnonneg := (h.head hhead).1
  omega

/-- So does an event. -/
theorem Effect.pushed {env : Env} {f f' : Focus} {stop : Stop} (h : Effect env f stop f')
    (hf : f.thr.callstack.Pushed) : f'.thr.callstack.Pushed := by
  cases h with
  | first _ _ hcs => exact hcs ▸ hf
  | line _ _ _ hcs => exact hcs ▸ hf
  | detach _ _ hcs => exact hcs ▸ hf
  | syscall n hn _ _ hcs =>
    rw [hcs]
    cases hexec : execP n with
    | true => exact hf
    | false =>
      refine hf.push fun m hm => ?_
      cases hm
      exact ⟨hn, hexec⟩
  | sysret n elem rest _ hframes _ _ _ _ _ hcUn =>
    intro cUn hmem
    rw [hcUn] at hmem
    exact hf cUn (by rw [hframes, List.map_cons]; exact List.mem_cons_of_mem _ hmem)
  | exec n hexec hsys => exact (hf.not_exec hexec hsys).elim
  | breakpoint _ hit =>
    cases hit with
    | rearm _ _ _ hcs => exact hcs ▸ hf
    | ret n _ _ _ _ hcs => exact hcs ▸ hf.iterate_pop (n + 1)
    | entry sym _ _ _ hcs =>
      rw [hcs]
      exact hf.push fun m hm => by cases hm
    | stray _ _ _ _ hcs => exact hcs ▸ hf

/-- An event leaves the process record alone, but for its table and the flag that tells
whether the table is planted. -/
theorem Effect.header {env : Env} {f f' : Focus} {stop : Stop} (h : Effect env f stop f')
    (hf : f.thr.callstack.Pushed) (hbe : f.tracee.proc.breakpointsEnabled ≠ 0) :
    ∃ be, f'.tracee.header = { f.tracee.header with breakpointsEnabled := be } ∧
      (be = f.tracee.proc.breakpointsEnabled ∧ be ≠ -1 ∨ be = 1 ∨ be = 0 ∧ f'.listed = false) := by
  have hsame : f.tracee.proc.breakpointsEnabled ≠ -1 → f'.tracee.header = f.tracee.header →
      ∃ be, f'.tracee.header = { f.tracee.header with breakpointsEnabled := be } ∧
        (be = f.tracee.proc.breakpointsEnabled ∧ be ≠ -1 ∨ be = 1 ∨
          be = 0 ∧ f'.listed = false) :=
    fun hne he => ⟨_, he, Or.inl ⟨rfl, hne⟩⟩
  cases h with
  | first _ ht => exact ⟨1, by rw [ht, header_enableAllBreakpoints], Or.inr (Or.inl rfl)⟩
  | line _ hne ht => exact hsame hne (by rw [ht])
  | detach _ ht _ _ _ hl =>
    exact ⟨0, by rw [ht, header_disableAllBreakpoints], Or.inr (Or.inr ⟨rfl, hl⟩)⟩
  | syscall _ _ hne ht => exact hsame hne (by rw [ht hbe])
  | sysret _ _ _ hne _ _ _ _ ht => exact hsame hne (by rw [ht])
  | exec n hexec hsys => exact (hf.not_exec hexec hsys).elim
  | breakpoint hne hit =>
    cases hit with
    | rearm a _ ht => exact hsame hne (by rw [ht, header_enableEntry])
    | ret _ _ _ _ _ _ _ _ hh => exact hsame hne hh
    | entry _ _ _ _ _ _ hh => exact hsame hne hh
    | stray _ _ _ ht => exact hsame hne (by rw [ht])

/-! ## Every run -/

variable {ι : Type*} [DecidableEq ι]

/-- What holds of a process with a given pid and symbols whatever happens to it. -/
structure Sys.Steady (pid : Pid) (symbols : List LibrarySymbol) (s : Sys ι) : Prop where
  pid : s.tracee.proc.pid = pid
  symbols : s.tracee.proc.listOfSymbols = symbols
  pushed : ∀ i, (s.threads i).callstack.Pushed
  enabled : s.listed = true →
    s.tracee.proc.breakpointsEnabled = -1 ∨ s.tracee.proc.breakpointsEnabled = 1
  unplanted : s.tracee.proc.breakpointsEnabled = -1 → ∀ a, (s.tracee.cell a).saved = none

omit [DecidableEq ι] in
/-- A process just opened is steady. -/
theorem Sys.Steady.opened (env : Env) (filename : String) (pid : Pid) (mem : Addr → Byte)
    (tid : ι → Pid) :
    (Sys.opened env filename pid mem tid).Steady pid (symbolsOf env (some filename)) := by
  have hheader := header_openTracee env filename pid mem
  refine ⟨?_, ?_, ?_, fun _ => Or.inl ?_, fun _ a => ?_⟩
  · exact congrArg Process.pid hheader
  · exact congrArg Process.listOfSymbols hheader
  · intro i cUn hmem
    cases hmem
  · exact congrArg Process.breakpointsEnabled hheader
  · exact congrArg Cell.saved (cell_openTracee env filename pid mem a)

omit [DecidableEq ι] in
/-- An event of a listed process meets the flag set to -1 or 1. -/
theorem Sys.Steady.enabled_ne_zero {pid : Pid} {symbols : List LibrarySymbol} {s : Sys ι}
    (h : s.Steady pid symbols) (hl : s.listed = true) :
    s.tracee.proc.breakpointsEnabled ≠ 0 := by
  rcases h.enabled hl with he | he <;> rw [he] <;> decide

/-- The first event is over once any event was handled. -/
theorem Sys.Steady.enabled_of_stop {env : Env} {pid : Pid} {symbols : List LibrarySymbol}
    {s s' : Sys ι} {i : ι} {stop : Stop} (h : s.Steady pid symbols)
    (hs : s.step env (.stop i stop) = some s') : s'.tracee.proc.breakpointsEnabled ≠ -1 := by
  obtain ⟨hl, f', hf, rfl⟩ := Sys.step_stop_eq_some.mp hs
  obtain ⟨be, hheader, hbe⟩ := (handle_effect hf).1.header (h.pushed i) (h.enabled_ne_zero hl)
  have hbe' : f'.tracee.proc.breakpointsEnabled = be :=
    congrArg Process.breakpointsEnabled hheader
  change f'.tracee.proc.breakpointsEnabled ≠ -1
  rw [hbe']
  rcases hbe with ⟨_, hne⟩ | hone | ⟨hzero, _⟩
  · exact hne
  · rw [hone]
    decide
  · rw [hzero]
    decide

/-- Every step keeps it steady. -/
theorem Sys.Steady.step {env : Env} {pid : Pid} {symbols : List LibrarySymbol} {s s' : Sys ι}
    {input : Input ι} (h : s.Steady pid symbols) (hs : s.step env input = some s') :
    s'.Steady pid symbols := by
  cases input with
  | interrupt =>
    cases hs
    exact ⟨h.pid, h.symbols, h.pushed, h.enabled, h.unplanted⟩
  | store mem =>
    cases hs
    exact ⟨h.pid, h.symbols, h.pushed, h.enabled, h.unplanted⟩
  | stop i stop =>
    obtain ⟨hl, f', hf, rfl⟩ := Sys.step_stop_eq_some.mp hs
    obtain ⟨heffect, _⟩ := handle_effect hf
    obtain ⟨be, hheader, hbe⟩ := heffect.header (h.pushed i) (h.enabled_ne_zero hl)
    have hbe' : f'.tracee.proc.breakpointsEnabled = be :=
      congrArg Process.breakpointsEnabled hheader
    refine ⟨?_, ?_, ?_, ?_, ?_⟩
    · exact (congrArg Process.pid hheader).trans h.pid
    · exact (congrArg Process.listOfSymbols hheader).trans h.symbols
    · intro j
      by_cases hj : j = i
      · subst hj
        rw [Sys.threads_put_self]
        exact heffect.pushed (h.pushed j)
      · rw [Sys.threads_put_of_ne s hj]
        exact h.pushed j
    · intro hl'
      change f'.tracee.proc.breakpointsEnabled = -1 ∨ f'.tracee.proc.breakpointsEnabled = 1
      rw [hbe']
      rcases hbe with ⟨hsame, _⟩ | hone | ⟨_, hfalse⟩
      · exact hsame ▸ h.enabled hl
      · exact Or.inr hone
      · cases hfalse.symm.trans hl'
    · exact fun hminus => (h.enabled_of_stop hs hminus).elim

omit [DecidableEq ι] in
/-- The first event plants the table, whatever the stop is. -/
theorem Sys.opened_event (env : Env) (filename : String) (pid : Pid) (mem : Addr → Byte)
    (tid : ι → Pid) (i : ι) (first : Stop) :
    (Sys.opened env filename pid mem tid).classify env i first = .none ∧
    ∃ f, (Sys.opened env filename pid mem tid).event env i first = .ok f ∧
      f.tracee = enableAllBreakpoints (openTracee env filename pid mem) ∧
      f.thr.callstack = .empty ∧ f.thr.breakpointBeingEnabled = none ∧ f.listed = true := by
  have hbe : (Sys.opened env filename pid mem tid).tracee.proc.breakpointsEnabled = -1 :=
    congrArg Process.breakpointsEnabled (header_openTracee env filename pid mem)
  unfold Sys.classify Sys.event handle
  rw [waitForSomething_first hbe]
  exact ⟨rfl, _, rfl, rfl, rfl, rfl, rfl⟩

omit [DecidableEq ι] in
/-- Once the first event is over, a trap outside every system call is a breakpoint event. -/
theorem Sys.Steady.breakpoint_event (env : Env) {pid : Pid} {symbols : List LibrarySymbol}
    {s : Sys ι} {stop : Stop} (h : s.Steady pid symbols)
    (hbe : s.tracee.proc.breakpointsEnabled ≠ -1) (hstatus : stop.status = .stopped sigtrap)
    (horig : stop.origEax = -1) (i : ι) :
    s.classify env i stop = .breakpoint (stop.eip - decrPcAfterBreak) ∧
      ∃ ip, s.event env i stop = processBreakpoint env ((s.focus i stop).withIp ip) stop
        (stop.eip - decrPcAfterBreak) := by
  have hsys := (h.pushed i).syscallP_eq_zero hstatus horig
  constructor
  · obtain ⟨ip, hwait⟩ := waitForSomething_eq env (f := s.focus i stop) stop hbe
    have hfocus : syscallP (s.focus i stop).thr stop = 0 := hsys
    rw [Sys.classify, hwait]
    simp only [Focus.classified, hfocus, hstatus]
    rfl
  · exact handle_breakpoint env (f := s.focus i stop) hbe hstatus hsys

/-- Once the first event is over it stays so. -/
theorem Sys.Steady.enabled_step {env : Env} {pid : Pid} {symbols : List LibrarySymbol}
    {s s' : Sys ι} {input : Input ι} (h : s.Steady pid symbols)
    (hbe : s.tracee.proc.breakpointsEnabled ≠ -1) (hs : s.step env input = some s') :
    s'.tracee.proc.breakpointsEnabled ≠ -1 := by
  cases input with
  | interrupt =>
    cases hs
    exact hbe
  | store mem =>
    cases hs
    exact hbe
  | stop i stop => exact h.enabled_of_stop hs

end Utrace
