import Utrace.Core.Run
import Utrace.Interpretation.Marks

/-!
# Results close their calls

One thread is followed through its events while everything else may change in between
them, as long as its slot and its own lines are left alone. Every result written for it
closes the newest enter line of its depth. The events of the other threads of a process
leave the slot and the lines of a thread alone.
-/

namespace Utrace

/-- What can happen while one thread is followed. -/
inductive ThreadInput where
  /-- An event of the thread. -/
  | own (stop : Stop)
  /-- Anything the other threads and processes do. -/
  | others (f : Focus)

/-- One step. -/
def Focus.threadStep (env : Env) (f : Focus) : ThreadInput → Option Focus
  | .own stop => (handle env { f with eip := stop.eip } stop).toOption
  | .others g => some g

/-- The others leave the slot of the thread and its lines alone. -/
def Focus.LeavesAlone (f : Focus) : ThreadInput → Prop
  | .own _ => True
  | .others g => g.thr = f.thr ∧ g.output.log f.thr.tid = f.output.log f.thr.tid

/-- What a thread keeps through its events and between them. -/
structure Focus.Followed (env : Env) (f : Focus) : Prop where
  pushed : f.thr.callstack.Pushed
  traced : f.Traced env

/-- Each event on a thread keeps its records followed. -/
theorem Focus.Followed.step {env : Env} (hc : env.optc = false) {f f' : Focus}
    {input : ThreadInput} (h : f.Followed env) (halone : f.LeavesAlone input)
    (hs : f.threadStep env input = some f') : f'.Followed env := by
  cases input with
  | own stop =>
    obtain ⟨heffect, htid⟩ := handle_effect (Sys.eq_ok_of_toOption hs)
    have htraced : Focus.Traced env { f with eip := stop.eip } :=
      ⟨h.traced.covered, h.traced.matched⟩
    exact ⟨heffect.pushed h.pushed, heffect.traced hc h.pushed htid htraced⟩
  | others g =>
    cases hs
    obtain ⟨hthr, hlog⟩ := halone
    have hmarks : f'.output.marks f'.thr.tid = f.output.marks f.thr.tid := by
      unfold Output.marks
      rw [hthr, hlog]
    exact ⟨hthr ▸ h.pushed, h.traced.same hmarks (by rw [hthr])⟩

/-- A thread whose slot is zero-filled and that has no line yet is followed through every run. -/
theorem Run.threadFollowed {env : Env} (hc : env.optc = false) {f₀ f : Focus}
    {inputs : List ThreadInput} (hempty : f₀.thr.callstack = .empty)
    (hlog : f₀.output.log f₀.thr.tid = [])
    (hr : Run (Focus.threadStep env) Focus.LeavesAlone f₀ inputs f) : f.Followed env := by
  have hmarks : f₀.output.marks f₀.thr.tid = [] := by
    unfold Output.marks
    rw [hlog, List.filterMap_nil]
  refine hr.invariant ⟨?_, ?_, ?_⟩ fun _ _ _ ht halone hs => ht.step hc halone hs
  · rw [hempty]
    intro cUn hmem
    cases hmem
  · rw [hempty]
    trivial
  · rw [hmarks]
    exact matched_nil

/-- For every thread and every run of its events, whatever the others do in between: every
result written for it closes the newest enter line at its depth, under the same name and with
no other result at that depth in between. -/
theorem thread_returns_close_enters (env : Env) (hc : env.optc = false) {f₀ f : Focus}
    {inputs : List ThreadInput} (hempty : f₀.thr.callstack = .empty)
    (hlog : f₀.output.log f₀.thr.tid = [])
    (hr : Run (Focus.threadStep env) Focus.LeavesAlone f₀ inputs f) :
    Matched (f.output.marks f.thr.tid) :=
  (hr.threadFollowed hc hempty hlog).traced.matched

/-- Whether an input is an event of the thread itself. -/
def ThreadInput.isOwn : ThreadInput → Bool
  | .own _ => true
  | .others _ => false

/-- An event of the thread itself disturbs nothing. -/
theorem Focus.leavesAlone_of_isOwn (f : Focus) (input : ThreadInput)
    (h : input.isOwn = true) : f.LeavesAlone input := by
  cases input with
  | own stop => trivial
  | others g => cases h

/-- A call of `f` that returns, and its two lines. -/
theorem thread_returns_close_enters_call :
    ∃ f, Run (Focus.threadStep twoFunctions) Focus.LeavesAlone
        { tracee := openTracee twoFunctions "a.out" 7 nops, thr := { tid := 7 }, output := {} }
        [.own (trapStop 0x3000), .own (trapStop 0x1000 0x3000), .own (trapStop 0x1000),
          .own (trapStop 0x3000)] f ∧
      f.output.marks f.thr.tid = [.leave 0 "f", .enter 0 "f"] ∧
      Matched (f.output.marks f.thr.tid) := by
  have hobs : (runInputs (Focus.threadStep twoFunctions) (fun _ input => input.isOwn)
      { tracee := openTracee twoFunctions "a.out" 7 nops, thr := { tid := 7 }, output := {} }
      [.own (trapStop 0x3000), .own (trapStop 0x1000 0x3000), .own (trapStop 0x1000),
        .own (trapStop 0x3000)]).any
      (fun f => f.output.marks f.thr.tid == [.leave 0 "f", .enter 0 "f"]) = true := by
    decide +kernel
  obtain ⟨f, hr, hf⟩ := exists_run_of_observe Focus.leavesAlone_of_isOwn hobs
  exact ⟨f, hr, beq_iff_eq.mp hf, thread_returns_close_enters twoFunctions rfl rfl rfl hr⟩

/-! ## The threads of a process -/

variable {ι : Type*} [DecidableEq ι]

/-- Thread `i` of the process went through a run of its own, from `f₀` on. -/
structure Sys.ThreadRun (env : Env) (pid : Pid) (symbols : List LibrarySymbol) (tid : ι → Pid)
    (f₀ : Focus) (i : ι) (s : Sys ι) : Prop where
  steady : s.Steady pid symbols
  tids : ∀ j, (s.threads j).tid = tid j
  run : ∃ threadInputs f, Run (Focus.threadStep env) Focus.LeavesAlone f₀ threadInputs f ∧
    f.thr = s.threads i ∧ f.output = s.output

/-- An event of the thread is a step of its own run; an event of another thread, whose tid
differs, leaves its slot and its lines alone. -/
theorem Sys.ThreadRun.step {env : Env} {pid : Pid} {symbols : List LibrarySymbol} {tid : ι → Pid}
    (hinj : Function.Injective tid) {f₀ : Focus} {i : ι} {s s' : Sys ι} {input : Input ι}
    (h : s.ThreadRun env pid symbols tid f₀ i) (hs : s.step env input = some s') :
    s'.ThreadRun env pid symbols tid f₀ i := by
  have hsteady := h.steady.step hs
  obtain ⟨threadInputs, f, hrun, hthr, hout⟩ := h.run
  cases input with
  | interrupt =>
    cases hs
    exact ⟨hsteady, h.tids, h.run⟩
  | store mem =>
    cases hs
    exact ⟨hsteady, h.tids, h.run⟩
  | stop j stop =>
    obtain ⟨_, f', hf, rfl⟩ := Sys.step_stop_eq_some.mp hs
    obtain ⟨heffect, htid⟩ := handle_effect hf
    refine ⟨hsteady, fun k => ?_, ?_⟩
    · by_cases hk : k = j
      · subst hk
        rw [Sys.threads_put_self, htid]
        exact h.tids k
      · rw [Sys.threads_put_of_ne s hk]
        exact h.tids k
    · by_cases hj : j = i
      · subst hj
        have hready : f.LeavesAlone (.others (s.focus j stop)) := ⟨hthr.symm, by rw [hout]; rfl⟩
        have hown : (s.focus j stop).LeavesAlone (.own stop) := trivial
        have hhandled : (s.focus j stop).threadStep env (.own stop) = some f' :=
          congrArg Except.toOption hf
        refine ⟨_, f', (hrun.snoc hready rfl).snoc hown hhandled, ?_, rfl⟩
        rw [Sys.threads_put_self]
      · have hne : (s.focus j stop).thr.tid ≠ f.thr.tid := by
          rw [hthr, h.tids i]
          change (s.threads j).tid ≠ tid i
          rw [h.tids j]
          exact fun he => hj (hinj he)
        have halone : f.LeavesAlone (.others { f with output := f'.output }) := by
          refine ⟨rfl, ?_⟩
          rw [hout]
          exact heffect.log_of_ne (h.steady.pushed j) hne
        refine ⟨_, _, hrun.snoc halone rfl, ?_, rfl⟩
        rw [Sys.threads_put_of_ne s (Ne.symm hj)]
        exact hthr

/-- Where tids differ, each thread of a process is followed through a run of the process. -/
theorem Run.threadRun {env : Env} {filename : String} {pid : Pid} {mem : Addr → Byte}
    {tid : ι → Pid} (hinj : Function.Injective tid) {inputs : List (Input ι)} {s : Sys ι}
    (hr : Run (Sys.step env) (fun _ _ => True) (Sys.opened env filename pid mem tid) inputs s)
    (i : ι) (first : Stop) :
    s.ThreadRun env pid (symbolsOf env (some filename)) tid
      ((Sys.opened env filename pid mem tid).focus i first) i := by
  apply hr.invariant
  · exact ⟨Sys.Steady.opened .., fun _ => rfl, [], _, .nil, rfl, rfl⟩
  · intro t input u ht _ hs
    exact ht.step hinj hs

/-- In every run of a process whose threads have tids of their own, the results written for
each of them close its enter lines. -/
theorem process_returns_close_enters (env : Env) (hc : env.optc = false) (filename : String)
    (pid : Pid) (mem : Addr → Byte) {tid : ι → Pid} (hinj : Function.Injective tid)
    {inputs : List (Input ι)} {s : Sys ι}
    (hr : Run (Sys.step env) (fun _ _ => True) (Sys.opened env filename pid mem tid) inputs s)
    (i : ι) : Matched (s.output.marks (s.threads i).tid) := by
  obtain ⟨_, f, hrun, hthr, hout⟩ := (hr.threadRun hinj i { status := .stopped sigtrap }).run
  rw [← hthr, ← hout]
  exact (hrun.threadFollowed hc rfl rfl).traced.matched

end Utrace
