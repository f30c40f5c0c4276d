import Utrace.Interpretation.Lines

/-!
# The number in front of a line

An enter line shows the thread it is written for. A result on a line of its own shows
whichever thread the open line belongs to, and by then none is open. So the numbers are
right as long as every result joins its own enter line.
-/

namespace Utrace

/-- The number `add_prefix_space` puts in front of the record, if it puts one, is its thread. -/
def Record.Labelled : Record → Prop
  | .left tid shown _ _ => shown = tid
  | .right tid (some shown) _ _ => shown = tid
  | _ => True

instance : DecidablePred Record.Labelled
  | .left _ _ _ _ => inferInstanceAs (Decidable (_ = _))
  | .right _ (some _) _ _ => inferInstanceAs (Decidable (_ = _))
  | .right _ none _ _ | .line _ _ | .unfinished => inferInstanceAs (Decidable True)

/-- Every number in front of a line is right. -/
def Output.Labelled (o : Output) : Prop := ∀ r ∈ o.records, r.Labelled

/-- A further record. -/
theorem Output.labelled_cons {o : Output} {r : Record} {older : List Record}
    (h : o.records = r :: older) : o.Labelled ↔ r.Labelled ∧ ∀ r ∈ older, r.Labelled := by
  rw [Labelled, h, List.forall_mem_cons]

/-- Breaking a line off labels nothing wrong. -/
theorem Output.labelled_close (o : Output) :
    (∀ r ∈ o.close.records, r.Labelled) ↔ o.Labelled := by
  rw [records_close]
  split
  · rw [List.forall_mem_cons]
    exact ⟨And.right, fun h => ⟨trivial, h⟩⟩
  · rfl

/-- The numbers stay right exactly when a result that is written joins the open line. -/
theorem Written.labelled_iff {env : Env} (hc : env.optc = false) {f f' : Focus} {n : Option Nat}
    (h : Written env f f' n) (htid : f.thr.tid ≠ 0) (hf : f.output.Labelled) :
    f'.output.Labelled ↔ ∀ m, n = some m →
      f.output.openAt f.thr.tid = some (f.thr.callstack.depth - (m + 1)) := by
  have hnothing : ∀ m, none = some m →
      f.output.openAt f.thr.tid = some (f.thr.callstack.depth - (m + 1)) := by
    rintro m ⟨⟩
  cases h with
  | same ho =>
    rw [ho]
    exact ⟨fun _ => hnothing, fun _ => hf⟩
  | line diag ho =>
    rw [outputLine_eq hc] at ho
    rw [Output.labelled_cons (by rw [ho]; rfl), f.output.labelled_close]
    exact ⟨fun _ => hnothing, fun _ => ⟨trivial, hf⟩⟩
  | left thr name _ _ ho =>
    rw [outputLeft_eq hc] at ho
    rw [Output.labelled_cons (by rw [ho]), f.output.labelled_close]
    exact ⟨fun _ => hnothing, fun _ => ⟨rfl, hf⟩⟩
  | right m thr name ht hcs _ hdepth ho =>
    have hrecords := records_outputRight hc f.output thr (ht ▸ htid) name
    rw [← ho, ht, hcs, hdepth] at hrecords
    simp only [Option.some.injEq, forall_eq']
    split at hrecords
    · rename_i hopen
      rw [Output.labelled_cons hrecords]
      exact ⟨fun _ => hopen, fun _ => ⟨trivial, hf⟩⟩
    · rename_i hclosed
      rw [Output.labelled_cons hrecords]
      exact ⟨fun hlabel => (htid hlabel.1.symm).elim, fun hopen => (hclosed hopen).elim⟩

variable {ι : Type*} [DecidableEq ι]

/-- A thread that returns finds its own enter line open: the open line, which is the last
thing written, is of this thread and of the depth of the frame that returns. -/
def Sys.FindsLineOpen (env : Env) (s : Sys ι) : Input ι → Prop
  | .stop i stop => ∀ n, (s.focus i stop).returned env stop = some n →
    s.output.openAt (s.threads i).tid = some ((s.threads i).callstack.depth - (n + 1))
  | _ => True

omit [DecidableEq ι] in
/-- A test for the condition. -/
def Sys.findsLineOpen (env : Env) (s : Sys ι) : Input ι → Bool
  | .stop i stop => ((s.focus i stop).returned env stop).all fun n =>
    s.output.openAt (s.threads i).tid == some ((s.threads i).callstack.depth - (n + 1))
  | _ => true

omit [DecidableEq ι] in
/-- The check on a sample finds the line open. -/
theorem Sys.findsLineOpen_of_test (env : Env) (s : Sys ι) (input : Input ι)
    (h : s.findsLineOpen env input = true) : s.FindsLineOpen env input := by
  cases input with
  | stop i stop =>
    intro n hn
    rw [findsLineOpen, hn] at h
    exact beq_iff_eq.mp h
  | _ => trivial

/-- What every run keeps while the numbers are right. -/
structure Sys.Numbered (pid : Pid) (symbols : List LibrarySymbol) (tid : ι → Pid) (s : Sys ι) :
    Prop where
  steady : s.Steady pid symbols
  tids : ∀ i, (s.threads i).tid = tid i
  labelled : s.output.Labelled

/-- A step labels its lines exactly if it finds the line open. -/
theorem Sys.Numbered.labelled_iff {env : Env} (hc : env.optc = false) {pid : Pid}
    {symbols : List LibrarySymbol} {tid : ι → Pid} (htid : ∀ i, tid i ≠ 0) {s s' : Sys ι}
    {input : Input ι} (h : s.Numbered pid symbols tid) (hs : s.step env input = some s') :
    s'.output.Labelled ↔ s.FindsLineOpen env input := by
  cases input with
  | interrupt =>
    cases hs
    exact ⟨fun _ => trivial, fun _ => h.labelled⟩
  | store mem =>
    cases hs
    exact ⟨fun _ => trivial, fun _ => h.labelled⟩
  | stop i stop =>
    obtain ⟨_, f', hf, rfl⟩ := Sys.step_stop_eq_some.mp hs
    have hne : (s.focus i stop).thr.tid ≠ 0 := by
      change (s.threads i).tid ≠ 0
      rw [h.tids i]
      exact htid i
    exact (handle_written (h.steady.pushed i) hf).labelled_iff hc hne h.labelled

/-- Every step keeps the threads numbered. -/
theorem Sys.Numbered.step {env : Env} {pid : Pid} {symbols : List LibrarySymbol} {tid : ι → Pid}
    {s s' : Sys ι} {input : Input ι} (h : s.Numbered pid symbols tid)
    (hs : s.step env input = some s') (hlabelled : s'.output.Labelled) :
    s'.Numbered pid symbols tid := by
  refine ⟨h.steady.step hs, ?_, hlabelled⟩
  cases input with
  | interrupt =>
    cases hs
    exact h.tids
  | store mem =>
    cases hs
    exact h.tids
  | stop i stop =>
    obtain ⟨_, f', hf, rfl⟩ := Sys.step_stop_eq_some.mp hs
    exact Sys.tids_put h.tids hf

/-- For every process and every interleaving of its threads' events: the number in front of
every enter line and of every result is the thread it is written for exactly when every
thread that returns finds its own enter line open. -/
theorem prefixes_labelled_iff (env : Env) (hc : env.optc = false) (filename : String) (pid : Pid)
    (mem : Addr → Byte) {tid : ι → Pid} (htid : ∀ i, tid i ≠ 0) (inputs : List (Input ι))
    (s : Sys ι) :
    Run (Sys.step env) (fun s input => ∀ s', s.step env input = some s' → s'.output.Labelled)
        (Sys.opened env filename pid mem tid) inputs s ↔
      Run (Sys.step env) (fun s input => s.FindsLineOpen env input)
        (Sys.opened env filename pid mem tid) inputs s := by
  have hopened : (Sys.opened env filename pid mem tid).Numbered pid
      (symbolsOf env (some filename)) tid :=
    ⟨Sys.Steady.opened .., fun _ => rfl, fun r hr => by cases hr⟩
  apply Run.good_iff hopened
  · intro s input s' h hfinds hs
    exact h.step hs ((h.labelled_iff hc htid hs).mpr hfinds)
  · intro s input s' h hs
    exact h.labelled_iff hc htid hs

/-- `f` calls `g`; both return. The result of `f` is shown for thread 0. -/
theorem prefixes_unlabelled :
    ¬∀ (env : Env) (filename : String) (pid : Pid) (mem : Addr → Byte) (tid : Unit → Pid)
      (inputs : List (Input Unit)) (s : Sys Unit), env.optc = false → (∀ i, tid i ≠ 0) →
      Run (Sys.step env) (fun _ _ => True) (Sys.opened env filename pid mem tid) inputs s →
      s.output.Labelled := by
  intro hclaim
  have hobs : (runInputs (Sys.step twoFunctions) (fun _ _ => true)
      (Sys.opened twoFunctions "a.out" 7 nops fun _ : Unit => 7)
      [.stop () (trapStop 0x3000), .stop () (trapStop 0x1000 0x3000), .stop () (trapStop 0x1000),
        .stop () (trapStop 0x2000 0x1010), .stop () (trapStop 0x2000),
        .stop () (trapStop 0x1010), .stop () (trapStop 0x3000)]).any
      (fun s => s.output.records.head? == some (.right 7 (some 0) 0 "f")) = true := by
    decide +kernel
  obtain ⟨s, hr, hs⟩ := exists_run_of_observe (fun _ _ _ => trivial) hobs
  have hlabelled := hclaim twoFunctions "a.out" 7 nops _ _ s rfl (by decide) hr
  have hseven : (0 : Pid) = 7 := hlabelled _ (List.mem_of_head? (beq_iff_eq.mp hs))
  cases hseven

/-- `f` returns before anything else is written. -/
theorem prefixes_labelled_iff_call :
    ∃ s, Run (Sys.step twoFunctions)
        (fun s input => ∀ s', s.step twoFunctions input = some s' → s'.output.Labelled)
        (Sys.opened twoFunctions "a.out" 7 nops fun _ : Unit => 7)
        [.stop () (trapStop 0x3000), .stop () (trapStop 0x1000 0x3000), .stop () (trapStop 0x1000),
          .stop () (trapStop 0x3000)] s ∧
      s.output.records = [.right 7 none 0 "f", .left 7 7 0 "f"] := by
  have hobs : (runInputs (Sys.step twoFunctions) (Sys.findsLineOpen twoFunctions)
      (Sys.opened twoFunctions "a.out" 7 nops fun _ : Unit => 7)
      [.stop () (trapStop 0x3000), .stop () (trapStop 0x1000 0x3000), .stop () (trapStop 0x1000),
        .stop () (trapStop 0x3000)]).any
      (fun s => s.output.records == [.right 7 none 0 "f", .left 7 7 0 "f"]) = true := by
    decide +kernel
  obtain ⟨s, hr, hs⟩ := exists_run_of_observe (Sys.findsLineOpen_of_test twoFunctions) hobs
  exact ⟨s, (prefixes_labelled_iff twoFunctions rfl "a.out" 7 nops (by decide) _ s).mpr hr,
    beq_iff_eq.mp hs⟩

end Utrace
