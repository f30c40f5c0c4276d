import Utrace.Correctness.Loading

/-!
# What the trace can tell

Whatever a process does, the trace tells of nothing but the functions that the options select in
the file, and of system calls where these are asked for.
-/

namespace Utrace

/-- The name an enter line or a result is written with. -/
def Record.functionName? : Record → Option String
  | .left _ _ _ name => some name
  | .right _ _ _ name => some name
  | _ => none

/-- Every name in the trace is allowed. -/
def Output.Names (allowed : String → Prop) (o : Output) : Prop :=
  ∀ r ∈ o.records, ∀ name, r.functionName? = some name → allowed name

namespace Output.Names

variable {allowed : String → Prop} {o : Output} {env : Env} {name : String}

/-- A record with an allowed name, if any, may be written. -/
theorem write (h : o.Names allowed) {r : Record}
    (hr : ∀ name, r.functionName? = some name → allowed name) : (o.write r).Names allowed :=
  List.forall_mem_cons.mpr ⟨hr, h⟩

/-- Breaking a line off names nothing. -/
theorem close (h : o.Names allowed) : o.close.Names allowed := by
  unfold Output.close
  split
  · apply h.write
    nofun
  · exact h

/-- Nor does a diagnosis. -/
theorem line (h : o.Names allowed) (thr : Thread) (diag : Diag) :
    (outputLine env o thr diag).Names allowed := by
  unfold outputLine
  split
  · exact h
  · apply h.close.write
    nofun

/-- An entered call names its function. -/
theorem left (h : o.Names allowed) (hname : allowed name) (thr : Thread) :
    (outputLeft env o thr name).Names allowed := by
  unfold outputLeft
  split
  · exact h
  · have hopened : Output.Names allowed
        { o.close with currentPid := thr.tid, currentDepth := thr.callstack.depth } := h.close
    apply hopened.write
    rintro _ ⟨⟩
    exact hname

/-- So does a returned one. -/
theorem right (h : o.Names allowed) (hname : allowed name) (thr : Thread) :
    (outputRight env o thr name).Names allowed := by
  have hright : ∀ tid resumed depth, ∀ other,
      (Record.right tid resumed depth name).functionName? = some other → allowed other := by
    rintro _ _ _ _ ⟨⟩
    exact hname
  unfold outputRight
  split
  · exact h
  · dsimp only
    split
    · exact h.close.write (hright _ _ _)
    · exact h.write (hright _ _ _)

end Output.Names

/-! ## The frames -/

variable {symbols : List LibrarySymbol} {env : Env} {f f' : Focus} {stop : Stop}

/-- Every call on the stack is one of a symbol of the list. -/
def Callstack.CallsOf (symbols : List LibrarySymbol) (cs : Callstack) : Prop :=
  ∀ cUn ∈ cs.elems.map CallstackElement.cUn, ∀ sym, cUn = .libfunc sym → sym ∈ symbols

namespace Callstack.CallsOf

variable {cs : Callstack}

/-- A call of one of the symbols may be pushed. -/
theorem push (h : cs.CallsOf symbols) {elem : CallstackElement}
    (helem : ∀ sym, elem.cUn = .libfunc sym → sym ∈ symbols) :
    (cs.push elem).CallsOf symbols := by
  unfold Callstack.CallsOf
  rcases cs.push_cases elem with ⟨_, hfull⟩ | ⟨_, hpush⟩
  · rw [hfull]
    exact h
  · rw [hpush, List.map_cons]
    exact List.forall_mem_cons.mpr ⟨helem, h⟩

/-- Any elements may be popped. -/
theorem iterate_pop (h : cs.CallsOf symbols) (n : Nat) :
    (Callstack.pop^[n] cs).CallsOf symbols := by
  intro cUn hmem
  rw [elems_iterate_pop, List.map_drop] at hmem
  exact h cUn (List.mem_of_mem_drop hmem)

end Callstack.CallsOf

/-- The symbol of a breakpoint is in the list. -/
theorem mem_of_symbolAt {proc : Process} {brk : Addr} {sym : LibrarySymbol}
    (h : symbolAt proc brk = some sym) : sym ∈ proc.listOfSymbols := List.mem_of_find?_eq_some h

/-- The name of a frame that is popped is one of the list. -/
theorem Callstack.CallsOf.mem {cs : Callstack} (h : cs.CallsOf symbols) {n : Nat}
    {sym : LibrarySymbol}
    (hsym : cs.elems[n]?.map CallstackElement.cUn = some (.libfunc sym)) : sym ∈ symbols := by
  rw [← List.getElem?_map] at hsym
  exact h _ (List.mem_of_getElem? hsym) sym rfl

/-- An event pushes calls of the symbols only. -/
theorem Effect.callsOf (h : Effect env f stop f') (hpushed : f.thr.callstack.Pushed)
    (hsymbols : f.tracee.proc.listOfSymbols = symbols) (hf : f.thr.callstack.CallsOf symbols) :
    f'.thr.callstack.CallsOf symbols := by
  cases h with
  | first _ _ hcs => exact hcs ▸ hf
  | line _ _ _ hcs => exact hcs ▸ hf
  | detach _ _ hcs => exact hcs ▸ hf
  | syscall n _ _ _ hcs =>
    rw [hcs]
    split
    · exact hf
    · apply hf.push
      nofun
  | sysret n elem rest _ hframes _ _ _ _ _ hcUn =>
    intro cUn hmem
    rw [hcUn] at hmem
    exact hf cUn (by rw [hframes, List.map_cons]; exact List.mem_cons_of_mem _ hmem)
  | exec n hexec hsys => exact (hpushed.not_exec hexec hsys).elim
  | breakpoint _ hit =>
    cases hit with
    | rearm _ _ _ hcs => exact hcs ▸ hf
    | ret n _ _ _ _ hcs => exact hcs ▸ hf.iterate_pop (n + 1)
    | entry sym _ _ hsym hcs =>
      rw [hcs]
      apply hf.push
      rintro _ ⟨⟩
      exact hsymbols ▸ mem_of_symbolAt hsym
    | stray _ _ _ _ hcs => exact hcs ▸ hf

/-! ## The names -/

/-- A symbol of the list has the name, or a system call has it and these are displayed. -/
def Nameable (env : Env) (symbols : List LibrarySymbol) (name : String) : Prop :=
  (∃ sym ∈ symbols, sym.name = name) ∨
    env.optS = true ∧ ∃ n, name = sysname env.syscalent0 n

/-- One event writes allowed names only. -/
theorem Effect.names (h : Effect env f stop f') (hpushed : f.thr.callstack.Pushed)
    (hsymbols : f.tracee.proc.listOfSymbols = symbols) (hf : f.thr.callstack.CallsOf symbols)
    (hnames : f.output.Names (Nameable env symbols)) :
    f'.output.Names (Nameable env symbols) := by
  cases h with
  | first _ _ _ _ ho => exact ho ▸ hnames
  | line diag _ _ _ _ ho => exact ho ▸ hnames.line f.thr diag
  | detach _ _ _ _ ho => exact ho ▸ hnames
  | syscall n _ _ _ _ _ ho =>
    rw [ho]
    split
    next hoptS => exact hnames.left (Or.inr ⟨hoptS, n, rfl⟩) f.thr
    next => exact hnames
  | sysret n _ _ _ _ _ _ _ _ _ _ _ ho =>
    obtain ⟨thr, ho, -⟩ := ho
    rw [ho]
    split
    next hoptS => exact hnames.right (Or.inr ⟨hoptS, n, rfl⟩) thr
    next => exact hnames
  | exec n hexec hsys => exact (hpushed.not_exec hexec hsys).elim
  | breakpoint _ hit =>
    cases hit with
    | rearm _ _ _ _ _ ho => exact ho ▸ hnames
    | ret n sym _ _ hsym _ _ _ _ ho =>
      obtain ⟨thr, ho, -⟩ := ho
      exact ho ▸ hnames.right (Or.inl ⟨sym, hf.mem hsym, rfl⟩) thr
    | entry sym _ _ hsym _ _ _ ho =>
      obtain ⟨thr, ho, -⟩ := ho
      exact ho ▸ hnames.left (Or.inl ⟨sym, hsymbols ▸ mem_of_symbolAt hsym, rfl⟩) thr
    | stray _ _ _ _ _ _ ho => exact ho ▸ hnames.line f.thr _

/-! ## Every run -/

variable {ι : Type*} [DecidableEq ι] {s s' : Sys ι} {input : Input ι} {pid : Pid}

/-- What the trace of a process tells, and what it may tell next. -/
structure Sys.Told (env : Env) (pid : Pid) (symbols : List LibrarySymbol) (s : Sys ι) : Prop where
  steady : s.Steady pid symbols
  frames : ∀ i, (s.threads i).callstack.CallsOf symbols
  names : s.output.Names (Nameable env symbols)

/-- Every step names symbols of the list only. -/
theorem Sys.Told.step (h : s.Told env pid symbols) (hs : s.step env input = some s') :
    s'.Told env pid symbols := by
  have hsteady := h.steady.step hs
  cases input with
  | interrupt =>
    cases hs
    exact ⟨hsteady, h.frames, h.names⟩
  | store mem =>
    cases hs
    exact ⟨hsteady, h.frames, h.names⟩
  | stop i stop =>
    obtain ⟨_, f', hf, rfl⟩ := Sys.step_stop_eq_some.mp hs
    obtain ⟨heffect, _⟩ := handle_effect hf
    have hpushed := h.steady.pushed i
    refine ⟨hsteady, fun j => ?_, heffect.names hpushed h.steady.symbols (h.frames i) h.names⟩
    by_cases hj : j = i
    · subst hj
      rw [Sys.threads_put_self]
      exact heffect.callsOf hpushed h.steady.symbols (h.frames j)
    · rw [Sys.threads_put_of_ne s hj]
      exact h.frames j

/-- In every run of a process, each name in the trace is that of a symbol of its list, or that of
a system call under `-S`. -/
theorem names_of_run {filename : String} {mem : Addr → Byte} {tid : ι → Pid}
    {guard : Sys ι → Input ι → Prop} {inputs : List (Input ι)}
    (hr : Run (Sys.step env) guard (Sys.opened env filename pid mem tid) inputs s) :
    s.output.Names (Nameable env (symbolsOf env (some filename))) := by
  have htold : s.Told env pid (symbolsOf env (some filename)) := by
    apply hr.invariant (P := Sys.Told env pid (symbolsOf env (some filename)))
    · refine ⟨.opened env filename pid mem tid, fun i cUn hmem => ?_, fun r hr => ?_⟩
      · cases hmem
      · cases hr
    · exact fun _ _ _ h _ hs => h.step hs
  exact htold.names

/-! ## From the file -/

variable {mem : Addr → Byte} {maddr : Addr} {k : Nat} {optargs : List (List Char)}

/-- A selected global function of `.text` has the name. -/
def SelectedFunction (mem : Addr → Byte) (maddr : Addr) (k : Nat) (optargs : List (List Char))
    (name : String) : Prop :=
  ∃ sym ∈ elfSymbols mem maddr k, GlobalFunction mem maddr sym ∧
    ∃ bytes, Memory.StringAt mem (maddr +
        (sectionHeader mem maddr (sectionHeader mem maddr k).shLink.toNat).shOffset +
      sym.stName) bytes ∧ textOf bytes = name ∧ Selected optargs name

/-- Each symbol of the list is a selected function of the file. -/
theorem selectedFunction_of_mem {filename : String} (hoptL : env.optL = true)
    (hvalue : optargs = [] ∨ ∃ value ∈ listedValues optargs, value ≠ [])
    (hnames : ∀ sym ∈ env.readElf filename, sym.name ≠ "")
    (hnamed : List.Forall₂ (Named mem) (globalFunctions mem maddr k) (env.readElf filename))
    {lib : LibrarySymbol}
    (hlib : lib ∈ symbolsOf (env.withOptE (processOptionsE optargs)) (some filename)) :
    SelectedFunction mem maddr k optargs lib.name := by
  obtain ⟨hread, hselected⟩ := (mem_symbolsOf hoptL hvalue hnames lib).mp hlib
  obtain ⟨e, he, -, bytes, hbytes, hname⟩ := (exists_of_forall₂ hnamed).2 lib hread
  obtain ⟨sym, hsym, hglobal, rfl⟩ := mem_globalFunctions.mp he
  exact ⟨sym, hsym, hglobal, bytes, hbytes, hname.symm, hselected⟩

/-- For every complete file whose defined symbols have sections, and every sequence of options
`-e`: in every run of a process opened on the file, whatever its threads do, each name in the trace
is that of a selected global function of `.text`, or that of a system call under `-S`. -/
theorem trace_tells_selected {filename : String} {text : Addr → Byte} {tid : ι → Pid}
    {guard : Sys ι → Input ι → Prop} {inputs : List (Input ι)} (hvalid : ValidElf mem maddr k)
    (hsections : ∀ sym ∈ elfSymbols mem maddr k, LooksUp sym →
      sym.stShndx.toNat < shnum mem maddr)
    (hnamed : List.Forall₂ (Named mem) (readElf mem maddr).1 (env.readElf filename))
    (hoptL : env.optL = true)
    (hvalue : optargs = [] ∨ ∃ value ∈ listedValues optargs, value ≠ [])
    (hnames : ∀ sym ∈ env.readElf filename, sym.name ≠ "")
    (hr : Run (Sys.step (env.withOptE (processOptionsE optargs))) guard
      (Sys.opened (env.withOptE (processOptionsE optargs)) filename pid text tid) inputs s) :
    ∀ r ∈ s.output.records, ∀ name, r.functionName? = some name →
      SelectedFunction mem maddr k optargs name ∨
        env.optS = true ∧ ∃ n, name = sysname env.syscalent0 n := by
  rw [readElf_eq hvalid hsections] at hnamed
  intro r hrec name hname
  obtain ⟨lib, hlib, rfl⟩ | hsyscall := names_of_run hr r hrec name hname
  · exact Or.inl (selectedFunction_of_mem hoptL hvalue hnames hnamed hlib)
  · exact Or.inr hsyscall

/-- With `-e f`, the trace of a process that calls `f` has the name of `f`, and tells of selected
functions only. -/
theorem trace_tells_selected_small :
    ∃ s, Run (Sys.step (smallFile.withOptE (processOptionsE ["f".toList]))) (fun _ _ => True)
        (Sys.opened (smallFile.withOptE (processOptionsE ["f".toList])) "a" 7 nops
          fun _ : Unit => 7)
        [.stop () (trapStop 0x3000), .stop () (trapStop 1)] s ∧
      s.output.records = [.left 7 7 0 "f"] ∧
      ∀ r ∈ s.output.records, ∀ name, r.functionName? = some name →
        SelectedFunction (elfMem 1) 0 2 ["f".toList] name ∨
          smallFile.optS = true ∧ ∃ n, name = sysname smallFile.syscalent0 n := by
  have hobs : (runInputs (Sys.step (smallFile.withOptE (processOptionsE ["f".toList])))
      (fun _ _ => true)
      (Sys.opened (smallFile.withOptE (processOptionsE ["f".toList])) "a" 7 nops
        fun _ : Unit => 7)
      [.stop () (trapStop 0x3000), .stop () (trapStop 1)]).any
      (fun s => s.output.records == [.left 7 7 0 "f"]) = true := by
    decide +kernel
  obtain ⟨s, hr, hs⟩ := exists_run_of_observe (fun _ _ _ => trivial) hobs
  refine ⟨s, hr, beq_iff_eq.mp hs, ?_⟩
  exact @trace_tells_selected smallFile Unit _ s 7 (elfMem 1) 0 2 ["f".toList] "a" nops _ _ _
    validElf_small (by decide) named_small rfl (Or.inr ⟨['f'], by decide, by decide⟩)
    (by decide) hr

end Utrace
