import Utrace.Interpretation.Invariant

/-!
# What one event writes

Every event writes nothing, a line, an enter line, or a result. A line and an enter line
first end the line that is open; a result does so unless the open line is of its own
thread and depth.
-/

namespace Utrace

/-! ## The functions of `output.c` -/

/-- The depth of the open line, if it is open for the thread. -/
def Output.openAt (o : Output) (tid : Pid) : Option Nat :=
  if o.currentPid = tid then some o.currentDepth else none

/-- The line open for a thread is that of `current_pid`. -/
theorem Output.openAt_eq_some {o : Output} {tid : Pid} {d : Nat} :
    o.openAt tid = some d ↔ o.currentPid = tid ∧ o.currentDepth = d := by
  unfold openAt
  split
  · rename_i h
    simp [h]
  · rename_i h
    simp [h]

/-- No line is open for another thread. -/
theorem Output.openAt_of_ne {o : Output} {tid : Pid} (h : o.currentPid ≠ tid) :
    o.openAt tid = none := if_neg h

/-- Breaking a line off leaves none open. -/
@[simp] theorem currentPid_close (o : Output) : o.close.currentPid = 0 := by
  unfold Output.close
  split
  · rfl
  · rename_i h
    exact not_not.mp h

/-- Breaking a line off is recorded where one was open. -/
theorem records_close (o : Output) :
    o.close.records = if o.currentPid ≠ 0 then .unfinished :: o.records else o.records := by
  unfold Output.close
  split <;> rfl

/-- It takes no record away. -/
theorem length_records_close (o : Output) : o.records.length ≤ o.close.records.length := by
  rw [records_close]
  split
  · rw [List.length_cons]
    omega
  · exact le_rfl

section

variable {env : Env} (hc : env.optc = false) (o : Output) (thr : Thread)

include hc

/-- `output_line` breaks the open line off and writes its own. -/
theorem outputLine_eq (diag : Diag) :
    outputLine env o thr diag = o.close.write (.line thr.tid diag) := by
  rw [outputLine, if_neg (by rw [hc]; decide)]

/-- `output_left` breaks the open line off and opens its own. -/
theorem outputLeft_eq (name : String) :
    outputLeft env o thr name =
      { currentPid := thr.tid
        currentDepth := thr.callstack.depth
        records := .left thr.tid thr.tid thr.callstack.depth name :: o.close.records } := by
  rw [outputLeft, if_neg (by rw [hc]; decide)]
  rfl

/-- A result joins the line of its own thread and depth; any other open line is ended
first, and then no line is open whose number the prefix could show. -/
theorem records_outputRight (htid : thr.tid ≠ 0) (name : String) :
    (outputRight env o thr name).records =
      if o.openAt thr.tid = some thr.callstack.depth then
        .right thr.tid none thr.callstack.depth name :: o.records
      else .right thr.tid (some 0) thr.callstack.depth name :: o.close.records := by
  rw [outputRight, if_neg (by rw [hc]; decide)]
  by_cases h : o.openAt thr.tid = some thr.callstack.depth
  · obtain ⟨hpid, hdepth⟩ := Output.openAt_eq_some.mp h
    rw [if_pos h]
    simp [Output.write, hpid, hdepth]
  · have hne : o.currentPid ≠ thr.tid ∨ o.currentDepth ≠ thr.callstack.depth := by
      by_contra hboth
      rw [not_or, not_not, not_not] at hboth
      exact h (Output.openAt_eq_some.mpr hboth)
    rw [if_neg h]
    simp [Output.write, hne, htid.symm]

/-- `output_right` leaves no line open. -/
theorem currentPid_outputRight (name : String) : (outputRight env o thr name).currentPid = 0 := by
  rw [outputRight, if_neg (by rw [hc]; decide)]

end

/-! ## One event -/

/-- The number of frames above the one whose result an event writes, if it writes one. -/
def Focus.returned (env : Env) (f : Focus) (stop : Stop) : Option Nat :=
  match (waitForSomething env f stop).2 with
  | .sysret _ => if env.optS then some 0 else none
  | .breakpoint brk =>
    if f.thr.breakpointBeingEnabled = none then f.thr.callstack.returning brk else none
  | _ => none

/-- What one event writes; the index is the number of frames above the one whose result
is written, if one is. -/
inductive Written (env : Env) (f f' : Focus) : Option Nat → Prop
  | same (houtput : f'.output = f.output) : Written env f f' none
  | line (diag : Diag) (houtput : f'.output = outputLine env f.output f.thr diag) :
      Written env f f' none
  | left (thr : Thread) (name : String) (htid : thr.tid = f.thr.tid)
      (hcallstack : thr.callstack = f.thr.callstack)
      (houtput : f'.output = outputLeft env f.output thr name) : Written env f f' none
  | right (n : Nat) (thr : Thread) (name : String) (htid : thr.tid = f.thr.tid)
      (hcallstack : thr.callstack = f'.thr.callstack) (hn : n < f.thr.callstack.depth)
      (hdepth : f'.thr.callstack.depth = f.thr.callstack.depth - (n + 1))
      (houtput : f'.output = outputRight env f.output thr name) : Written env f f' (some n)

/-- Popping lowers the depth, down to none. -/
theorem depth_iterate_pop (cs : Callstack) (n : Nat) :
    (Callstack.pop^[n] cs).depth = cs.depth - n := by
  rw [Callstack.depth, elems_iterate_pop, List.length_drop, Callstack.depth]

/-- A frame that returns is one of the stack. -/
theorem Callstack.returning_lt {cs : Callstack} {brk : Addr} {n : Nat}
    (h : cs.returning brk = some n) : n < cs.depth := by
  obtain ⟨hlen, _⟩ := List.findIdx?_eq_some_iff_getElem.mp h
  exact hlen

/-- What a hit writes is told by the element it returns from. -/
theorem Hit.written {env : Env} {f f' : Focus} {stop : Stop} {brk : Addr}
    (h : Hit env f stop brk f') :
    Written env f f' (if f.thr.breakpointBeingEnabled = none then f.thr.callstack.returning brk
      else none) := by
  cases h with
  | rearm a hbeing _ _ _ ho =>
    rw [if_neg (by rw [hbeing]; exact Option.some_ne_none a)]
    exact .same ho
  | ret n sym hbeing hreturning _ hcs _ _ _ ho =>
    obtain ⟨thr, ho, htid, hthr⟩ := ho
    rw [if_pos hbeing, hreturning]
    refine .right n thr sym.name htid hthr (Callstack.returning_lt hreturning) ?_ ho
    rw [hcs, depth_iterate_pop]
  | entry sym hbeing hreturning _ _ _ _ ho =>
    obtain ⟨thr, ho, htid, hthr⟩ := ho
    rw [if_pos hbeing, hreturning]
    exact .left thr sym.name htid hthr ho
  | stray hbeing hreturning _ _ _ _ ho =>
    rw [if_pos hbeing, hreturning]
    exact .line _ ho

/-- A system call is written as an entered call, if at all. -/
theorem processSyscall_written (env : Env) (f : Focus) (n : Int) :
    Written env f (processSyscall env f n) none := by
  have houtput : (processSyscall env f n).output = if env.optS then
      outputLeft env f.output f.thr (sysname env.syscalent0 n) else f.output := by
    rw [processSyscall_eq]
    rfl
  cases hS : env.optS with
  | true => exact .left f.thr (sysname env.syscalent0 n) rfl rfl (by rw [houtput, hS, if_pos rfl])
  | false => exact .same (by rw [houtput, hS, if_neg (by decide)])

/-- Its return is written as that of the innermost element, if at all. -/
theorem processSysret_written {env : Env} {f f' : Focus} {stop : Stop} {n : Int}
    (htop : f.thr.callstack.elems.head?.map CallstackElement.cUn = some (.syscall n))
    (hexec : execP n = false) (h : processSysret env f stop n = .ok f') :
    Written env f f' (if env.optS then some 0 else none) := by
  obtain ⟨f₁, hfork, _, hcs, _, _, hout⟩ := processSysret_popped htop hexec h
  obtain ⟨_, hout₁, _, htid, _⟩ := sysretFork_ok hfork
  cases hS : env.optS with
  | false => exact .same (by rw [hout, hS, if_neg (by decide), hout₁])
  | true =>
    have hlen := congrArg List.length (map_cUn_sysretFork hfork)
    rw [List.length_map, List.length_map] at hlen
    have hpos : 0 < f.thr.callstack.depth := by
      rw [Callstack.depth, List.length_pos_iff]
      intro hnil
      simp [hnil] at htop
    let popped : Thread := { f₁.thr with callstack := f₁.thr.callstack.pop }
    refine .right 0 popped (sysname env.syscalent0 n) htid hcs.symm hpos ?_
      (by rw [hout, hS, if_pos rfl, hout₁])
    rw [hcs, Callstack.depth, Callstack.elems_pop, List.length_tail, hlen]
    rfl

/-- What is written does not depend on the instruction pointer. -/
theorem Written.of_withIp {env : Env} {f f' : Focus} {n : Option Nat} (ip : Addr)
    (h : Written env (f.withIp ip) f' n) : Written env f f' n := by
  cases h with
  | same ho => exact .same ho
  | line diag ho => exact .line diag ho
  | left thr name htid hcs ho => exact .left thr name htid hcs ho
  | right n thr name htid hcs hn hdepth ho => exact .right n thr name htid hcs hn hdepth ho

/-- An event writes a result exactly when a frame is found to return. -/
theorem handle_written {env : Env} {f f' : Focus} {stop : Stop}
    (hpushed : f.thr.callstack.Pushed) (h : handle env f stop = .ok f') :
    Written env f f' (f.returned env stop) := by
  unfold Focus.returned
  cases handle_cases h with
  | first hbe h =>
    subst h
    rw [waitForSomething_first hbe]
    exact .same rfl
  | syscall ip _ _ hclass h =>
    subst h
    rw [hclass]
    exact .of_withIp ip (processSyscall_written env _ _)
  | sysret ip _ hsys hclass h =>
    have htop := syscallP_eq_two hsys
    rw [hclass]
    exact .of_withIp ip (processSysret_written (f := f.withIp ip) htop (hpushed.head htop).2 h)
  | exit ip _ retVal _ hclass h =>
    subst h
    rw [hclass]
    exact .line (.exited retVal) rfl
  | exitSignal ip _ signum _ hclass h =>
    subst h
    rw [hclass]
    exact .line (.killed signum) rfl
  | signal ip _ signum _ _ hclass h =>
    subst h
    rw [hclass]
    unfold processSignal
    split
    · exact .same rfl
    · exact .line (.signal signum) rfl
  | breakpoint ip _ _ _ hclass h =>
    rw [hclass]
    exact .of_withIp ip (processBreakpoint_hit h).1.written

variable {ι : Type*} [DecidableEq ι]

/-- No event changes a tid. -/
theorem Sys.tids_put {env : Env} {s : Sys ι} {tid : ι → Pid} {i : ι} {stop : Stop} {f' : Focus}
    (htids : ∀ j, (s.threads j).tid = tid j) (hf : s.event env i stop = .ok f') (j : ι) :
    ((s.put i f').threads j).tid = tid j := by
  by_cases hj : j = i
  · subst hj
    rw [Sys.threads_put_self, (handle_effect hf).2]
    exact htids j
  · rw [Sys.threads_put_of_ne s hj]
    exact htids j

end Utrace
