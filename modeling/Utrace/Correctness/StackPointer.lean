import Utrace.Core.Run
import Utrace.Correctness.Fetched
import Utrace.Interpretation.Entries
import Utrace.Native.System

/-!
# The stack pointer the arguments of a call are read from

`process_breakpoint` stores the stack pointer in the thread when a traced function is
entered, and `gimme_arg` reads the arguments relative to it when the function returns. The
frames of the call stack do not keep it, so an inner call leaves its own.
-/

namespace Utrace

variable {ι : Type*} [DecidableEq ι]

/-! ## The entries of one thread -/

/-- A process, and of one thread: each frame with the stack pointer at the stop that pushed
it, innermost first, and the stack pointer at its last entry of a traced function. -/
structure Entered (ι : Type*) where
  sys : Sys ι
  frames : List (CUn × Addr)
  last : Option Addr

/-- The frames after a stop: those popped are gone, and one pushed has the stack pointer of
the stop. -/
def stampFrames (uesp : Addr) (before after : List CUn) (frames : List (CUn × Addr)) :
    List (CUn × Addr) :=
  if before.length < after.length then
    (after.take 1).map (fun c => (c, uesp)) ++ frames
  else frames.drop (before.length - after.length)

namespace Entered

/-- The watched thread stopped, and the event was handled. -/
def after (env : Env) (i : ι) (w : Entered ι) (stop : Stop) (s : Sys ι) : Entered ι where
  sys := s
  frames := stampFrames stop.uesp (w.sys.threads i).frames (s.threads i).frames w.frames
  last := if ((w.sys.focus i stop).entering env stop).isSome then some stop.uesp else w.last

/-- One step. -/
def step (env : Env) (i : ι) (w : Entered ι) (input : Input ι) : Option (Entered ι) :=
  (w.sys.step env input).map fun s =>
    match input with
    | .stop j stop => if j = i then w.after env i stop s else { w with sys := s }
    | _ => { w with sys := s }

/-- The frames are those of the call stack, and the thread has the stack pointer of its last
entry; there was one if a call is among the frames. -/
structure Recorded (i : ι) (w : Entered ι) : Prop where
  frames : w.frames.map Prod.fst = (w.sys.threads i).frames
  pointer : ∀ sp, w.last = some sp → (w.sys.threads i).stackPointer = sp
  entered : ∀ sym, .libfunc sym ∈ (w.sys.threads i).frames → w.last ≠ none

omit [DecidableEq ι] in
/-- Nothing is recorded of a freshly opened process. -/
theorem Recorded.opened (env : Env) (filename : String) (pid : Pid) (mem : Addr → Byte)
    (tid : ι → Pid) (i : ι) : Recorded i ⟨Sys.opened env filename pid mem tid, [], none⟩ := by
  refine ⟨rfl, ?_, ?_⟩
  · rintro sp ⟨⟩
  · intro sym hmem
    cases hmem

/-- Popped or pushed, the frames stay those of the call stack. -/
theorem map_stampFrames {before after : List CUn} {frames : List (CUn × Addr)} (uesp : Addr)
    (hframes : frames.map Prod.fst = before)
    (h : (∃ n, after = before.drop n) ∨ ∃ c, after = c :: before) :
    (stampFrames uesp before after frames).map Prod.fst = after := by
  unfold stampFrames
  rcases h with ⟨n, rfl⟩ | ⟨c, rfl⟩
  · rw [if_neg (by simp), List.map_drop, hframes, List.length_drop]
    rcases le_total n before.length with hle | hle
    · rw [Nat.sub_sub_self hle]
    · rw [List.drop_eq_nil_of_le hle, Nat.sub_eq_zero_of_le hle, Nat.sub_zero, List.drop_length]
  · rw [if_pos (by simp)]
    simpa using hframes

/-- One event of the watched thread. -/
theorem Recorded.event {env : Env} {i : ι} {w : Entered ι} (h : w.Recorded i) {stop : Stop}
    {f' : Focus} (hf : w.sys.event env i stop = .ok f') :
    (w.after env i stop (w.sys.put i f')).Recorded i := by
  have hframes := frames_handle hf
  have hpointer := stackPointer_handle hf
  refine ⟨?_, ?_, ?_⟩
  · dsimp only [after]
    rw [Sys.threads_put_self]
    refine map_stampFrames stop.uesp h.frames (hframes.imp id ?_)
    rintro ⟨c, hc, _⟩
    exact ⟨c, hc⟩
  · dsimp only [after]
    rw [Sys.threads_put_self, hpointer]
    split
    · rintro sp ⟨⟩
      rfl
    · exact h.pointer
  · dsimp only [after]
    rw [Sys.threads_put_self]
    intro sym hmem
    split
    · exact Option.some_ne_none _
    · rename_i hnot
      rcases hframes with ⟨n, hn⟩ | ⟨c, hc, hwhy⟩
      · exact h.entered sym (List.mem_of_mem_drop (hn ▸ hmem))
      · rw [hc] at hmem
        rcases List.mem_cons.mp hmem with rfl | hmem
        · rcases hwhy with ⟨n, hn⟩ | hentering
          · cases hn
          · exact (hnot hentering).elim
        · exact h.entered sym hmem

/-- One step keeps the record. -/
theorem Recorded.step {env : Env} {i : ι} {w w' : Entered ι} (h : w.Recorded i)
    {input : Input ι} (hs : w.step env i input = some w') : w'.Recorded i := by
  obtain ⟨s, hstep, rfl⟩ := Option.map_eq_some_iff.mp hs
  have hothers : s.threads i = w.sys.threads i → Recorded i { w with sys := s } := by
    intro hthr
    exact ⟨hthr ▸ h.frames, hthr ▸ h.pointer, hthr ▸ h.entered⟩
  cases input with
  | interrupt =>
    cases hstep
    exact hothers rfl
  | store mem =>
    cases hstep
    exact hothers rfl
  | stop j stop =>
    obtain ⟨_, f', hf, rfl⟩ := Sys.step_stop_eq_some.mp hstep
    by_cases hj : j = i
    · subst hj
      simp only [if_true]
      exact h.event hf
    · simp only [hj, if_false]
      exact hothers (Sys.threads_put_of_ne w.sys (Ne.symm hj) f')

/-- Calls nest below the limit, and a return is that of the innermost frame. -/
def nested (env : Env) (i : ι) (w : Entered ι) : Input ι → Bool
  | .stop j stop =>
    match w.sys.classify env j stop with
    | .breakpoint brk => decide ((w.sys.threads i).callstack.depth < maxCalldepth - 1) &&
      ((w.sys.threads j).callstack.returning brk).all (· == 0)
    | _ => true
  | _ => true

end Entered

/-! ## The arguments of a result -/

/-- Every stack argument displayed with a result is read relative to a stack pointer. -/
def ReadsFrom (answers : Answers) (thr : Thread) (func : Option Function) (sp : Addr) : Prop :=
  ∀ n ∈ outputRightArgs answers .functionr thr func, n ≠ -1 →
    gimmeArg .functionr thr n = .ok (.text (sp + BitVec.ofInt 32 (4 * (n + 1))))

/-- A result is displayed without any argument on the stack. -/
def NoStackArgs (answers : Answers) (thr : Thread) (func : Option Function) : Prop :=
  ∀ n ∈ outputRightArgs answers .functionr thr func, n = -1

/-- The stack pointer the arguments are read from is that of the thread. -/
theorem readsFrom_iff {answers : Answers} {thr : Thread} {func : Option Function} {sp : Addr} :
    ReadsFrom answers thr func sp ↔ NoStackArgs answers thr func ∨ thr.stackPointer = sp := by
  unfold ReadsFrom NoStackArgs
  constructor
  · intro hreads
    by_cases hsp : thr.stackPointer = sp
    · exact Or.inr hsp
    · refine Or.inl fun n hn => ?_
      by_contra hne
      have hword := hreads n hn hne
      rw [gimmeArg, if_neg hne] at hword
      simp only [Except.ok.injEq, Word.text.injEq] at hword
      exact hsp (add_right_cancel hword)
  · rintro (hnone | rfl) n hn hne
    · exact (hne (hnone n hn)).elim
    · rw [gimmeArg, if_neg hne]

/-- In every run, at every return of a call: the stack arguments displayed with its result are
read relative to the stack pointer at the entry of that call exactly when there are none, or
the last traced function the thread entered had the same stack pointer at its entry, as it has
when nothing traced was called inside. They are the arguments that the line of the return
fetches. -/
theorem right_args_iff (env : Env) (filename : String) (pid : Pid) (mem : Addr → Byte)
    (tid : ι → Pid) {i : ι} {inputs : List (Input ι)} {w w' : Entered ι}
    (hr : Run (Entered.step env i) (fun _ _ => True)
      ⟨Sys.opened env filename pid mem tid, [], none⟩ inputs w)
    {stop : Stop} {brk : Addr} {n : Nat} (hclass : w.sys.classify env i stop = .breakpoint brk)
    (hbeing : (w.sys.threads i).breakpointBeingEnabled = none)
    (hreturning : (w.sys.threads i).callstack.returning brk = some n)
    (hs : w.step env i (.stop i stop) = some w') :
    let thr := (waitForSomething env (w.sys.focus i stop) stop).1.thr.returned brk n
    ∃ sym sp, w.frames[n]? = some (.libfunc sym, sp) ∧
      w'.sys.output = outputRight env w.sys.output thr sym.name ∧
      ∀ answers demangle listOfFunctions,
        let func := name2func demangle listOfFunctions sym.name.toList
        (ReadsFrom answers thr func sp ↔ NoStackArgs answers thr func ∨ w.last = some sp) ∧
          LineFetches answers thr demangle listOfFunctions sym.name.toList := by
  have hrecorded : w.Recorded i := hr.invariant (.opened env filename pid mem tid i)
    fun _ _ _ h _ hs => h.step hs
  obtain ⟨s, hstep, rfl⟩ := Option.map_eq_some_iff.mp hs
  obtain ⟨_, f', hf, rfl⟩ := Sys.step_stop_eq_some.mp hstep
  unfold Sys.classify at hclass
  obtain ⟨_, ip, hwait, hhandle⟩ := handle_of_class hclass (by rintro ⟨⟩)
  intro thr
  have hthr : thr = ((w.sys.focus i stop).withIp ip).thr.returned brk n := by
    dsimp only [thr]
    rw [hwait]
  have hreturn : processReturn env ((w.sys.focus i stop).withIp ip) brk n = .ok f' := by
    have hbreak := hhandle.symm.trans hf
    have hbeing' : ((w.sys.focus i stop).withIp ip).thr.breakpointBeingEnabled = none := hbeing
    have hreturning' : ((w.sys.focus i stop).withIp ip).thr.callstack.returning brk = some n :=
      hreturning
    simp only [processEvent, processBreakpoint, hbeing', hreturning'] at hbreak
    exact hbreak
  obtain ⟨_, sym, hsym, hout⟩ := stackPointer_processReturn hreturn
  have hframe : w.frames[n]?.map Prod.fst = some (.libfunc sym) := by
    rw [← List.getElem?_map, hrecorded.frames, Thread.frames, List.getElem?_map]
    exact hsym
  obtain ⟨⟨c, sp⟩, hget, rfl⟩ := Option.map_eq_some_iff.mp hframe
  refine ⟨sym, sp, hget, ?_, fun answers demangle listOfFunctions => ?_⟩
  · rw [hthr]
    simp only [if_true]
    exact hout
  · intro func
    have hpointer : thr.stackPointer = (w.sys.threads i).stackPointer := hthr ▸ rfl
    have hentered : w.last ≠ none := by
      refine hrecorded.entered sym (List.mem_of_getElem? (i := n) ?_)
      rw [← hrecorded.frames, List.getElem?_map]
      exact hframe
    obtain ⟨last, hlast⟩ := Option.ne_none_iff_exists'.mp hentered
    rw [readsFrom_iff, hpointer, hrecorded.pointer last hlast, hlast, Option.some.injEq]
    exact ⟨Iff.rfl, lineFetches _ _ _ _ _⟩

/-- A trap with the stack pointer of the thread. -/
def trapAt (addr stackTop uesp : Addr) : Stop := { trapStop addr stackTop with uesp := uesp }

/-- `f` is called, and calls `g` inside. -/
def callsInside : List (Input Unit) :=
  [.stop () (trapStop 0x3000), .stop () (trapAt 0x1000 0x3000 0x8000), .stop () (trapStop 0x1001),
    .stop () (trapAt 0x2000 0x1010 0x7000), .stop () (trapStop 0x2001)]

/-- `int f(int,+string);`. -/
def declared (name : List Char) : Function where
  name := name
  returnType := .int
  argTypes := [.int, .string]
  paramsRight := 1
  bounded := by decide
  right_le := by decide

/-- `f` returns after `g` did, and its argument is looked for in the frame of `g`. -/
theorem right_args_misread :
    ¬∀ (env : Env) (filename : String) (pid : Pid) (mem : Addr → Byte) (inputs : List (Input Unit))
      (w w' : Entered Unit) (stop : Stop) (brk : Addr) (n : Nat) (sym : LibrarySymbol) (sp : Addr)
      (answers : Answers) (func : Function),
      Run (Entered.step env ()) (fun w input => w.nested env () input = true)
        ⟨Sys.opened env filename pid mem fun _ => pid, [], none⟩ inputs w →
      w.nested env () (.stop () stop) = true →
      w.sys.classify env () stop = .breakpoint brk →
      (w.sys.threads ()).breakpointBeingEnabled = none →
      (w.sys.threads ()).callstack.returning brk = some n →
      w.step env () (.stop () stop) = some w' → w.frames[n]? = some (.libfunc sym, sp) →
      func.name = sym.name.toList → 0 < func.paramsRight →
      ReadsFrom answers ((waitForSomething env (w.sys.focus () stop) stop).1.thr.returned brk n)
        (some func) sp := by
  intro hclaim
  have hobs : (runInputs (Entered.step twoFunctions ())
      (fun w input => w.nested twoFunctions () input)
      ⟨Sys.opened twoFunctions "a.out" 7 nops fun _ : Unit => 7, [], none⟩
      (callsInside ++ [.stop () (trapStop 0x1010)])).any (fun w =>
        w.nested twoFunctions () (.stop () (trapStop 0x3000)) &&
        w.sys.classify twoFunctions () (trapStop 0x3000) == .breakpoint 0x3000 &&
        (w.sys.threads ()).breakpointBeingEnabled == none &&
        (w.sys.threads ()).callstack.returning 0x3000 == some 0 &&
        (w.step twoFunctions () (.stop () (trapStop 0x3000))).isSome &&
        w.frames[0]? == some (.libfunc ⟨"f", 0x1000⟩, 0x8000) &&
        (waitForSomething twoFunctions (w.sys.focus () (trapStop 0x3000))
          (trapStop 0x3000)).1.thr.stackPointer == 0x7000) = true := by
    decide +kernel
  obtain ⟨w, hr, hw⟩ := exists_run_of_observe (fun _ _ h => h) hobs
  simp only [Bool.and_eq_true, beq_iff_eq, Option.isSome_iff_exists] at hw
  obtain ⟨⟨⟨⟨⟨⟨hnested, hclass⟩, hbeing⟩, hreturning⟩, w', hs⟩, hframe⟩, hpointer⟩ := hw
  have hreads := hclaim _ _ _ _ _ w w' _ _ _ _ _ ⟨fun _ => 0, fun _ => []⟩ (declared ['f'])
    hr hnested hclass hbeing hreturning hs hframe (by decide) (by decide)
  rcases readsFrom_iff.mp hreads with hnone | hsame
  · have hone : (1 : Int) = -1 := hnone 1 (by simp [outputRightArgs, declared, displayArg,
      Function.numParams, Function.argType])
    omega
  · have hkept := hpointer.symm.trans hsame
    exact absurd hkept (by decide)

/-- The argument of `g` is read from its own frame. -/
theorem right_args_iff_call :
    ∃ w w' : Entered Unit, w.last = some 0x7000 ∧
      w.step twoFunctions () (.stop () (trapStop 0x1010)) = some w' ∧
      ∀ answers, ReadsFrom answers ((waitForSomething twoFunctions
        (w.sys.focus () (trapStop 0x1010)) (trapStop 0x1010)).1.thr.returned 0x1010 0)
        (name2func id [declared ['g']] ['g']) 0x7000 := by
  have hobs : (runInputs (Entered.step twoFunctions ()) (fun _ _ => true)
      ⟨Sys.opened twoFunctions "a.out" 7 nops fun _ : Unit => 7, [], none⟩
      callsInside).any (fun w =>
        w.sys.classify twoFunctions () (trapStop 0x1010) == .breakpoint 0x1010 &&
        (w.sys.threads ()).breakpointBeingEnabled == none &&
        (w.sys.threads ()).callstack.returning 0x1010 == some 0 &&
        (w.step twoFunctions () (.stop () (trapStop 0x1010))).isSome &&
        w.frames[0]? == some (.libfunc ⟨"g", 0x2000⟩, 0x7000) &&
        w.last == some 0x7000) = true := by
    decide +kernel
  obtain ⟨w, hr, hw⟩ := exists_run_of_observe (fun _ _ _ => trivial) hobs
  simp only [Bool.and_eq_true, beq_iff_eq, Option.isSome_iff_exists] at hw
  obtain ⟨⟨⟨⟨⟨hclass, hbeing⟩, hreturning⟩, w', hs⟩, hframe⟩, hlast⟩ := hw
  obtain ⟨sym, sp, hget, _, hiff⟩ := right_args_iff twoFunctions "a.out" 7 nops (fun _ => 7) hr
    hclass hbeing hreturning hs
  cases hframe.symm.trans hget
  exact ⟨w, w', hlast, hs, fun answers => (hiff answers id _).1.mpr (Or.inr hlast)⟩

end Utrace
