import Utrace.Core.Nesting
import Utrace.Interpretation.Invariant

/-!
# The trace of one thread as a log of marks

An enter line and a result are marks at the depth they are written with. The frames of a
thread are covered by its log: a call always, a system call when system calls are shown.
-/

namespace Utrace

/-- The mark a line leaves, if it is an enter line or a result. -/
def Record.mark? : Record → Option (Mark String)
  | .left _ _ depth name => some (.enter depth name)
  | .right _ _ depth name => some (.leave depth name)
  | _ => none

/-- The marks in the log of one thread. -/
def Output.marks (o : Output) (tid : Pid) : List (Mark String) :=
  (o.log tid).filterMap Record.mark?

/-- A diagnosis makes no mark. -/
theorem marks_outputLine (env : Env) (o : Output) (thr : Thread) (diag : Diag) (tid : Pid) :
    (outputLine env o thr diag).marks tid = o.marks tid := by
  unfold Output.marks
  rw [log_outputLine]
  split <;> rfl

/-- An entered call is marked with its depth. -/
theorem marks_outputLeft {env : Env} (hc : env.optc = false) (o : Output) (thr : Thread)
    (name : String) :
    (outputLeft env o thr name).marks thr.tid =
      .enter thr.callstack.depth name :: o.marks thr.tid := by
  unfold Output.marks
  rw [log_outputLeft, if_pos ⟨hc, rfl⟩]
  rfl

/-- So is a returned one. -/
theorem marks_outputRight {env : Env} (hc : env.optc = false) (o : Output) (thr : Thread)
    (name : String) :
    (outputRight env o thr name).marks thr.tid =
      .leave thr.callstack.depth name :: o.marks thr.tid := by
  obtain ⟨resumed, hlog⟩ := log_outputRight env o thr name thr.tid
  unfold Output.marks
  rw [hlog, if_pos ⟨hc, rfl⟩]
  rfl

/-- The name a frame is shown under, if it is shown. -/
def CUn.shown (env : Env) : CUn → Option String
  | .syscall n => if env.optS then some (sysname env.syscalent0 n) else none
  | .libfunc sym => some sym.name

/-- The frames of a stack, as far as they are shown. -/
def Callstack.shown (env : Env) (cs : Callstack) : List (Option String) :=
  (cs.elems.map CallstackElement.cUn).map (CUn.shown env)

/-- As many names are kept as there are elements. -/
@[simp] theorem length_shown (env : Env) (cs : Callstack) :
    (cs.shown env).length = cs.depth := by
  simp [Callstack.shown, Callstack.depth]

/-- Pops drop the names of their elements. -/
theorem shown_iterate_pop (env : Env) (cs : Callstack) (n : Nat) :
    (Callstack.pop^[n] cs).shown env = (cs.shown env).drop n := by
  simp [Callstack.shown, elems_iterate_pop, List.map_drop]

/-- What the log of a thread and its stack agree on. -/
structure Focus.Traced (env : Env) (f : Focus) : Prop where
  covered : Covers (f.output.marks f.thr.tid) (f.thr.callstack.shown env)
  matched : Matched (f.output.marks f.thr.tid)

/-- An event that leaves the marks and the frames alone. -/
theorem Focus.Traced.same {env : Env} {f f' : Focus} (h : f.Traced env)
    (hmarks : f'.output.marks f'.thr.tid = f.output.marks f.thr.tid)
    (hcallstack : f'.thr.callstack = f.thr.callstack) : f'.Traced env :=
  ⟨by rw [hmarks, hcallstack]; exact h.covered, by rw [hmarks]; exact h.matched⟩

/-- An enter line, after which the frame is pushed or dropped at the limit. -/
theorem Focus.Traced.enter {env : Env} {f f' : Focus} (h : f.Traced env) (elem : CallstackElement)
    (name : String) (hshown : elem.cUn.shown env = some name)
    (hmarks : f'.output.marks f'.thr.tid =
      .enter f.thr.callstack.depth name :: f.output.marks f.thr.tid)
    (hcallstack : f'.thr.callstack = f.thr.callstack ∨
      f'.thr.callstack = f.thr.callstack.push elem) : f'.Traced env := by
  have hlen := length_shown env f.thr.callstack
  refine ⟨?_, by rw [hmarks]; exact h.matched.enter _ _⟩
  rw [hmarks]
  have hsame : Covers (.enter f.thr.callstack.depth name :: f.output.marks f.thr.tid)
      (f.thr.callstack.shown env) := h.covered.cons hlen.le
  rcases hcallstack with hcs | hcs
  · rw [hcs]
    exact hsame
  · rcases f.thr.callstack.push_cases elem with ⟨_, hfull⟩ | ⟨_, hpush⟩
    · rw [hcs, hfull]
      exact hsame
    · have hframes : f'.thr.callstack.shown env = some name :: f.thr.callstack.shown env := by
        rw [hcs, Callstack.shown, hpush, List.map_cons, List.map_cons, hshown]
        rfl
      rw [hframes, ← hlen]
      exact h.covered.enter name

/-- A silent frame, pushed or dropped at the limit. -/
theorem Focus.Traced.silent {env : Env} {f f' : Focus} (h : f.Traced env)
    (elem : CallstackElement) (hshown : elem.cUn.shown env = none)
    (hmarks : f'.output.marks f'.thr.tid = f.output.marks f.thr.tid)
    (hcallstack : f'.thr.callstack = f.thr.callstack.push elem) : f'.Traced env := by
  refine ⟨?_, by rw [hmarks]; exact h.matched⟩
  rw [hmarks]
  rcases f.thr.callstack.push_cases elem with ⟨_, hfull⟩ | ⟨_, hpush⟩
  · rw [hcallstack, hfull]
    exact h.covered
  · have hframes : f'.thr.callstack.shown env = none :: f.thr.callstack.shown env := by
      rw [hcallstack, Callstack.shown, hpush, List.map_cons, List.map_cons, hshown]
      rfl
    rw [hframes]
    exact h.covered.silent

/-- A result, after a frame and those above it were popped. -/
theorem Focus.Traced.leave {env : Env} {f f' : Focus} (h : f.Traced env) {n : Nat}
    (cUn : CUn) (name : String) (hshown : cUn.shown env = some name)
    (hframe : f.thr.callstack.elems[n]?.map CallstackElement.cUn = some cUn)
    (hframes : f'.thr.callstack.shown env = (f.thr.callstack.shown env).drop (n + 1))
    (hmarks : f'.output.marks f'.thr.tid =
      .leave f'.thr.callstack.depth name :: f.output.marks f.thr.tid) : f'.Traced env := by
  have hshownFrame : (f.thr.callstack.shown env)[n]? = some (some name) := by
    rw [Callstack.shown, List.getElem?_map, List.getElem?_map, hframe, Option.map_some, hshown]
  obtain ⟨hcovered, hmatched⟩ := h.covered.leave h.matched hshownFrame
  rw [← hframes, length_shown] at hcovered hmatched
  exact ⟨by rw [hmarks]; exact hcovered, by rw [hmarks]; exact hmatched⟩

/-! ## One event -/

/-- A hit leaves the marks in keeping with the stack. -/
theorem Hit.traced {env : Env} {f f' : Focus} {stop : Stop} {brk : Addr}
    (h : Hit env f stop brk f') (hc : env.optc = false) (htid : f'.thr.tid = f.thr.tid)
    (hf : f.Traced env) : f'.Traced env := by
  cases h with
  | rearm _ _ _ hcs _ ho => exact hf.same (by rw [ho, htid]) hcs
  | ret n sym _ _ hsym hcs _ _ _ ho =>
    obtain ⟨thr, ho, ht, hthr⟩ := ho
    refine hf.leave (.libfunc sym) sym.name rfl hsym ?_ ?_
    · rw [hcs, shown_iterate_pop]
    · rw [ho, htid, ← ht, marks_outputRight hc, hthr]
  | entry sym _ _ _ hcs _ _ ho =>
    obtain ⟨thr, ho, ht, hthr⟩ := ho
    refine hf.enter ⟨.libfunc sym, stop.stackTop⟩ sym.name rfl ?_ (Or.inr hcs)
    rw [ho, htid, ← ht, marks_outputLeft hc, hthr]
  | stray _ _ _ _ hcs _ ho => exact hf.same (by rw [ho, htid, marks_outputLine]) hcs

/-- An event keeps the log of its thread in agreement with the stack. -/
theorem Effect.traced {env : Env} {f f' : Focus} {stop : Stop} (h : Effect env f stop f')
    (hc : env.optc = false) (hpushed : f.thr.callstack.Pushed) (htid : f'.thr.tid = f.thr.tid)
    (hf : f.Traced env) : f'.Traced env := by
  cases h with
  | first _ _ hcs _ ho => exact hf.same (by rw [ho, htid]) hcs
  | line _ _ _ hcs _ ho => exact hf.same (by rw [ho, htid, marks_outputLine]) hcs
  | detach _ _ hcs _ ho => exact hf.same (by rw [ho, htid]) hcs
  | syscall n _ _ _ hcs _ ho =>
    cases hS : env.optS with
    | true =>
      rw [hS, if_pos rfl] at ho
      refine hf.enter ⟨.syscall n, 0⟩ (sysname env.syscalent0 n)
        (by rw [CUn.shown, hS, if_pos rfl]) (by rw [ho, htid, marks_outputLeft hc]) ?_
      cases hexec : execP n with
      | true => exact Or.inl (by rw [hcs, if_pos hexec])
      | false => exact Or.inr (by rw [hcs, if_neg (by rw [hexec]; decide)])
    | false =>
      rw [hS, if_neg (by decide)] at ho
      cases hexec : execP n with
      | true => exact hf.same (by rw [ho, htid]) (by rw [hcs, if_pos hexec])
      | false =>
        exact hf.silent ⟨.syscall n, 0⟩ (by rw [CUn.shown, hS, if_neg (by decide)])
          (by rw [ho, htid]) (by rw [hcs, if_neg (by rw [hexec]; decide)])
  | sysret n elem rest _ hframes hsys _ _ _ _ hcUn _ ho =>
    obtain ⟨thr, ho, ht, hthr⟩ := ho
    have hshown : f'.thr.callstack.shown env = (f.thr.callstack.shown env).drop (0 + 1) := by
      rw [Callstack.shown, Callstack.shown, hcUn, hframes, List.map_cons, List.map_cons]
      rfl
    cases hS : env.optS with
    | true =>
      rw [hS, if_pos rfl] at ho
      refine hf.leave (.syscall n) (sysname env.syscalent0 n)
        (by rw [CUn.shown, hS, if_pos rfl]) ?_ hshown ?_
      · rw [hframes, List.getElem?_cons_zero, Option.map_some, hsys]
      · rw [ho, htid, ← ht, marks_outputRight hc, hthr]
    | false =>
      rw [hS, if_neg (by decide)] at ho
      refine ⟨?_, by rw [ho, htid]; exact hf.matched⟩
      rw [ho, htid, hshown]
      exact hf.covered.drop (0 + 1)
  | exec n hexec hsys => exact (hpushed.not_exec hexec hsys).elim
  | breakpoint _ hit => exact hit.traced hc htid hf

/-- An event leaves the log of every other thread alone. -/
theorem Effect.log_of_ne {env : Env} {f f' : Focus} {stop : Stop} (h : Effect env f stop f')
    (hpushed : f.thr.callstack.Pushed) {tid : Pid} (htid : f.thr.tid ≠ tid) :
    f'.output.log tid = f.output.log tid := by
  have hright : ∀ (thr : Thread) (name : String), thr.tid = f.thr.tid →
      (outputRight env f.output thr name).log tid = f.output.log tid := by
    intro thr name ht
    obtain ⟨resumed, hlog⟩ := log_outputRight env f.output thr name tid
    rw [hlog, if_neg (by rintro ⟨_, he⟩; exact htid (ht.symm.trans he))]
  have hleft : ∀ (thr : Thread) (name : String), thr.tid = f.thr.tid →
      (outputLeft env f.output thr name).log tid = f.output.log tid := by
    intro thr name ht
    rw [log_outputLeft, if_neg (by rintro ⟨_, he⟩; exact htid (ht.symm.trans he))]
  have hline : ∀ diag, (outputLine env f.output f.thr diag).log tid = f.output.log tid := by
    intro diag
    rw [log_outputLine, if_neg (by rintro ⟨_, he⟩; exact htid he)]
  cases h with
  | first _ _ _ _ ho => rw [ho]
  | line diag _ _ _ _ ho => rw [ho, hline]
  | detach _ _ _ _ ho => rw [ho]
  | syscall n _ _ _ _ _ ho =>
    rw [ho]
    split
    · exact hleft f.thr _ rfl
    · rfl
  | sysret _ _ _ _ _ _ _ _ _ _ _ _ ho =>
    obtain ⟨thr, ho, ht, _⟩ := ho
    rw [ho]
    split
    · exact hright thr _ ht
    · rfl
  | exec n hexec hsys => exact (hpushed.not_exec hexec hsys).elim
  | breakpoint _ hit =>
    cases hit with
    | rearm _ _ _ _ _ ho => rw [ho]
    | ret _ _ _ _ _ _ _ _ _ ho =>
      obtain ⟨thr, ho, ht, _⟩ := ho
      rw [ho, hright thr _ ht]
    | entry _ _ _ _ _ _ _ ho =>
      obtain ⟨thr, ho, ht, _⟩ := ho
      rw [ho, hleft thr _ ht]
    | stray _ _ _ _ _ _ ho => rw [ho, hline]

end Utrace
