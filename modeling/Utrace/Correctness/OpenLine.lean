import Utrace.Core.Run
import Utrace.Interpretation.Announced

/-!
# Which line a result joins

The threads of a process are annotated with what `output.c` does not remember: how long the
trace was right after the enter line of each frame. A result joins the open line exactly
when the trace has not grown since the enter line of its own frame, although only a thread
and a depth are compared.
-/

namespace Utrace

/-! ## The open line in the trace -/

/-- End the line the trace leaves open, if it leaves one: an enter line written last. -/
def endLine : List Record → List Record
  | .left tid shown depth name :: older => .unfinished :: .left tid shown depth name :: older
  | records => records

/-- The two static variables describe the line the trace leaves open. -/
def Output.Tracks (o : Output) : Prop :=
  match o.records with
  | .left tid _ depth _ :: _ => o.currentPid = tid ∧ o.currentDepth = depth ∧ tid ≠ 0
  | _ => o.currentPid = 0

/-- Where the line is tracked, breaking it off ends it. -/
theorem Output.Tracks.close_eq {o : Output} (h : o.Tracks) :
    o.close.records = endLine o.records := by
  rw [records_close]
  unfold Tracks at h
  unfold endLine
  split at h
  · rename_i hrecords
    rw [hrecords, if_pos (by rw [h.1]; exact h.2.2)]
  · rw [if_neg (by rw [h]; decide)]

/-- An open line is the newest record. -/
theorem Output.Tracks.of_openAt {o : Output} (h : o.Tracks) {tid : Pid} (htid : tid ≠ 0)
    {d : Nat} (hopen : o.openAt tid = some d) :
    ∃ shown name older, o.records = .left tid shown d name :: older := by
  obtain ⟨hpid, hdepth⟩ := openAt_eq_some.mp hopen
  unfold Tracks at h
  split at h
  · rename_i tid' shown depth name older hrecords
    exact ⟨shown, name, older, by rw [hrecords, ← h.1, ← h.2.1, hpid, hdepth]⟩
  · exact (htid (hpid.symm.trans h)).elim

/-- What an event writes keeps the line tracked. -/
theorem Written.tracks {env : Env} (hc : env.optc = false) {f f' : Focus} {n : Option Nat}
    (h : Written env f f' n) (hne : f.thr.tid ≠ 0) (hf : f.output.Tracks) :
    f'.output.Tracks := by
  cases h with
  | same ho =>
    rw [ho]
    exact hf
  | line diag ho =>
    rw [ho, outputLine_eq hc]
    exact currentPid_close f.output
  | left thr name ht _ ho =>
    rw [ho, outputLeft_eq hc]
    exact ⟨rfl, rfl, ht ▸ hne⟩
  | right n thr name ht _ _ _ ho =>
    have hrecords := records_outputRight hc f.output thr (ht ▸ hne) name
    have hpid := currentPid_outputRight hc f.output thr name
    rw [← ho] at hrecords hpid
    unfold Output.Tracks
    split at hrecords
    · rw [hrecords]
      exact hpid
    · rw [hrecords]
      exact hpid

/-! ## Annotated runs -/

/-- A process, with the annotation of the stack of every thread. -/
structure Annotated (ι : Type*) where
  sys : Sys ι
  /-- For each frame, innermost first, the length of the trace right after its enter line. -/
  entered : ι → List (Option Nat)

variable {ι : Type*} [DecidableEq ι]

namespace Annotated

/-- One step; the annotation follows the stack of the thread the event is for. -/
def step (env : Env) (a : Annotated ι) : Input ι → Option (Annotated ι)
  | .stop i stop => (a.sys.step env (.stop i stop)).map fun s =>
    ⟨s, Function.update a.entered i (restamp (a.sys.threads i).callstack.depth
      (s.threads i).callstack.depth a.sys.output.records.length s.output.records.length
      (a.entered i))⟩
  | input => (a.sys.step env input).map fun s => ⟨s, a.entered⟩

/-- The process opened, with empty stacks. -/
def opened (env : Env) (filename : String) (pid : Pid) (mem : Addr → Byte) (tid : ι → Pid) :
    Annotated ι := ⟨Sys.opened env filename pid mem tid, fun _ => []⟩

/-- What every run keeps. -/
structure Kept (env : Env) (pid : Pid) (symbols : List LibrarySymbol) (tid : ι → Pid)
    (a : Annotated ι) : Prop where
  steady : a.sys.Steady pid symbols
  tids : ∀ i, (a.sys.threads i).tid = tid i
  tracks : a.sys.output.Tracks
  announced : ∀ i, Announced env.optS (a.sys.threads i).callstack.frames
    a.sys.output.records.length (a.sys.output.openAt (tid i)) (a.entered i)

omit [DecidableEq ι] in
/-- No line is open at first. -/
theorem Kept.opened (env : Env) (filename : String) (pid : Pid) (mem : Addr → Byte)
    {tid : ι → Pid} (htid : ∀ i, tid i ≠ 0) :
    (opened env filename pid mem tid).Kept env pid (symbolsOf env (some filename)) tid := by
  refine ⟨Sys.Steady.opened .., fun _ => rfl, rfl, fun i => ⟨rfl, trivial, ?_, ?_⟩⟩
  · rintro _ n m hn
    cases hn
  · rintro _ d hd
    exact (htid i (Output.openAt_eq_some.mp hd).1.symm).elim

/-- Every step keeps the stamps. -/
theorem Kept.step {env : Env} (hc : env.optc = false) {pid : Pid} {symbols : List LibrarySymbol}
    {tid : ι → Pid} (hinj : Function.Injective tid) (htid : ∀ i, tid i ≠ 0)
    {a a' : Annotated ι} {input : Input ι} (h : a.Kept env pid symbols tid)
    (hs : a.step env input = some a') : a'.Kept env pid symbols tid := by
  cases input with
  | interrupt =>
    have hstep : a.sys.step env .interrupt = some a'.sys := by
      cases hs
      rfl
    have hsteady := h.steady.step hstep
    cases hs
    exact ⟨hsteady, h.tids, h.tracks, h.announced⟩
  | store mem =>
    have hstep : a.sys.step env (.store mem) = some a'.sys := by
      cases hs
      rfl
    have hsteady := h.steady.step hstep
    cases hs
    exact ⟨hsteady, h.tids, h.tracks, h.announced⟩
  | stop i stop =>
    obtain ⟨s, hstep, rfl⟩ := Option.map_eq_some_iff.mp hs
    have hsteady := h.steady.step hstep
    obtain ⟨_, f', hf, rfl⟩ := Sys.step_stop_eq_some.mp hstep
    obtain ⟨heffect, htid'⟩ := handle_effect hf
    have hwritten := handle_written (h.steady.pushed i) hf
    have hne : (a.sys.focus i stop).thr.tid ≠ 0 := by
      change (a.sys.threads i).tid ≠ 0
      rw [h.tids i]
      exact htid i
    refine ⟨hsteady, Sys.tids_put h.tids hf, hwritten.tracks hc hne h.tracks, fun j => ?_⟩
    by_cases hj : j = i
    · subst hj
      have hannounced : (a.sys.focus j stop).Announced env (a.entered j) := by
        unfold Focus.Announced
        change Announced _ _ _ (a.sys.output.openAt (a.sys.threads j).tid) _
        rw [h.tids j]
        exact h.announced j
      have hkept := heffect.announced hc (h.steady.pushed j) htid' hne hannounced
      unfold Focus.Announced at hkept
      rw [htid'] at hkept
      change Announced _ _ _ (f'.output.openAt (a.sys.threads j).tid) _ at hkept
      rw [h.tids j] at hkept
      simp only [Sys.threads_put_self, Function.update_self]
      exact hkept
    · have hother : (a.sys.focus j stop).Announced env (a.entered j) := by
        unfold Focus.Announced
        change Announced _ _ _ (a.sys.output.openAt (a.sys.threads j).tid) _
        rw [h.tids j]
        exact h.announced j
      have hgne : (a.sys.focus j stop).thr.tid ≠ 0 := by
        change (a.sys.threads j).tid ≠ 0
        rw [h.tids j]
        exact htid j
      have htids : (a.sys.focus i stop).thr.tid ≠ (a.sys.focus j stop).thr.tid := by
        change (a.sys.threads i).tid ≠ (a.sys.threads j).tid
        rw [h.tids i, h.tids j]
        exact fun he => hj (hinj he).symm
      have hkept := hwritten.announced_of_ne hc { a.sys.focus j stop with output := f'.output }
        hne hgne htids rfl rfl rfl hother
      unfold Focus.Announced at hkept
      change Announced _ _ _ (f'.output.openAt (a.sys.threads j).tid) _ at hkept
      rw [h.tids j] at hkept
      simp only [Sys.threads_put_of_ne a.sys hj, Function.update_of_ne hj]
      exact hkept

end Annotated

/-- For every interleaving of the events of any number of threads with distinct nonzero tids,
and whatever event comes next. When it writes a result, for the frame with `n` others above
it, the result joins the open line if and only if the trace has not grown since the enter
line of that very frame was written; otherwise the open line, if there is one, is ended, and
the result starts a line of its own. Everything else that is written ends the open line. -/
theorem result_joins_iff (env : Env) (hc : env.optc = false) (filename : String) (pid : Pid)
    (mem : Addr → Byte) {tid : ι → Pid} (hinj : Function.Injective tid) (htid : ∀ i, tid i ≠ 0)
    {inputs : List (Input ι)} {a a' : Annotated ι} {i : ι} {stop : Stop}
    (hr : Run (Annotated.step env) (fun _ _ => True) (Annotated.opened env filename pid mem tid)
      inputs a)
    (hs : a.step env (.stop i stop) = some a') :
    (∀ n, (a.sys.focus i stop).returned env stop = some n →
      ∃ name d, d = (a.sys.threads i).callstack.depth - (n + 1) ∧
        ((a'.sys.output.records = .right (tid i) none d name :: a.sys.output.records ↔
          (a.entered i)[n]? = some (some a.sys.output.records.length)) ∧
        ((a.entered i)[n]? = some (some a.sys.output.records.length) →
          ∃ shown enterName older,
            a.sys.output.records = .left (tid i) shown d enterName :: older) ∧
        ((a.entered i)[n]? ≠ some (some a.sys.output.records.length) →
          a'.sys.output.records =
            .right (tid i) (some 0) d name :: endLine a.sys.output.records))) ∧
    ((a.sys.focus i stop).returned env stop = none →
      a'.sys.output.records = a.sys.output.records ∨
        ∃ r, a'.sys.output.records = r :: endLine a.sys.output.records) := by
  have hkept : a.Kept env pid (symbolsOf env (some filename)) tid :=
    hr.invariant (Annotated.Kept.opened env filename pid mem htid)
      fun _ _ _ h _ hs => h.step hc hinj htid hs
  obtain ⟨s, hstep, rfl⟩ := Option.map_eq_some_iff.mp hs
  obtain ⟨_, f', hf, rfl⟩ := Sys.step_stop_eq_some.mp hstep
  have hwritten := handle_written (hkept.steady.pushed i) hf
  have hclose := hkept.tracks.close_eq
  have htidi : (a.sys.focus i stop).thr.tid = tid i := hkept.tids i
  generalize hreturned : (a.sys.focus i stop).returned env stop = returned at hwritten
  cases hwritten with
  | same ho => exact ⟨by rintro n ⟨⟩, fun _ => Or.inl (congrArg Output.records ho)⟩
  | line diag ho =>
    refine ⟨by rintro n ⟨⟩, fun _ => Or.inr ⟨.line (tid i) diag, ?_⟩⟩
    rw [outputLine_eq hc, htidi] at ho
    rw [← hclose]
    exact congrArg Output.records ho
  | left thr name _ _ ho =>
    rw [outputLeft_eq hc] at ho
    refine ⟨by rintro n ⟨⟩,
      fun _ => Or.inr ⟨.left thr.tid thr.tid thr.callstack.depth name, ?_⟩⟩
    rw [← hclose]
    exact congrArg Output.records ho
  | right n thr name ht hcs hn hdepth ho =>
    refine ⟨?_, by rintro ⟨⟩⟩
    rintro m ⟨⟩
    have hthr : thr.tid = tid i := ht.trans htidi
    have hdepth' : f'.thr.callstack.depth = (a.sys.threads i).callstack.depth - (n + 1) := hdepth
    have hrecords := records_outputRight hc a.sys.output thr (hthr ▸ htid i) name
    have hout : (a.sys.put i f').output.records =
        (outputRight env a.sys.output thr name).records := congrArg Output.records ho
    rw [← hout, hthr, hcs, hdepth', hclose] at hrecords
    have hlen := (hkept.announced i).length
    rw [Callstack.length_frames] at hlen
    have hiff := (hkept.announced i).stamped.getElem?_iff (n := n) (by rw [hlen]; exact hn)
    rw [hlen] at hiff
    refine ⟨name, _, rfl, ?_, ?_, ?_⟩
    · rw [hiff]
      constructor
      · intro hjoined
        by_contra hclosed
        rw [if_neg hclosed, hjoined] at hrecords
        cases hrecords
      · intro hopen
        rw [if_pos hopen] at hrecords
        exact hrecords
    · intro hstamp
      exact hkept.tracks.of_openAt (htid i) (hiff.mp hstamp)
    · intro hstamp
      rw [if_neg (hiff.not.mp hstamp)] at hrecords
      exact hrecords

/-- The result of a call of `f` that does nothing joins its enter line. -/
theorem result_joins_iff_call :
    ∃ a a' : Annotated Unit, a.step twoFunctions (.stop () (trapStop 0x3000)) = some a' ∧
      a.entered () = [some 1] ∧
      ∃ name, a'.sys.output.records = .right 7 none 0 name :: a.sys.output.records := by
  have hobs : (runInputs (Annotated.step twoFunctions) (fun _ _ => true)
      (Annotated.opened twoFunctions "a.out" 7 nops fun _ : Unit => 7)
      [.stop () (trapStop 0x3000), .stop () (trapStop 0x1000 0x3000),
        .stop () (trapStop 0x1000)]).any
      (fun a => decide ((a.step twoFunctions (.stop () (trapStop 0x3000))).isSome = true ∧
        (a.sys.focus () (trapStop 0x3000)).returned twoFunctions (trapStop 0x3000) = some 0 ∧
        a.entered () = [some 1] ∧ (a.sys.threads ()).callstack.depth = 1 ∧
        a.sys.output.records.length = 1)) = true := by
    decide +kernel
  obtain ⟨a, hr, ha⟩ := exists_run_of_observe (fun _ _ _ => trivial) hobs
  obtain ⟨hsome, hreturned, hentered, hdepth, hlen⟩ := of_decide_eq_true ha
  obtain ⟨a', hs⟩ := Option.isSome_iff_exists.mp hsome
  have hinj : Function.Injective fun _ : Unit => (7 : Pid) := fun _ _ _ => rfl
  obtain ⟨hresult, _⟩ := result_joins_iff twoFunctions rfl "a.out" 7 nops hinj (by decide) hr hs
  obtain ⟨name, d, hd, hjoins, _⟩ := hresult 0 hreturned
  rw [hdepth] at hd
  subst hd
  exact ⟨a, a', hs, hentered, name, hjoins.mpr (by rw [hentered, hlen]; rfl)⟩

end Utrace
