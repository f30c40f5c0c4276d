import Utrace.Interpretation.Effect
import Utrace.Native.System
import Utrace.Native.Tracer

/-!
# The exit of one thread

`process_exit` and `process_exit_signal` drop the whole process from the list, whatever
other threads it has, and the next event of any of them ends utrace.
-/

namespace Utrace

/-- The exit of a thread, or its death by a signal. -/
def Event.isExit : Event → Bool
  | .exit _ | .exitSignal _ => true
  | _ => false

/-- What is left of the process once the exit of the thread in slot `i` was handled: it is
listed, slot `i` is free, and every other slot is as it was. -/
structure Tracer.Survives (tr' : Tracer) (p : ProcNode) (i : Int) : Prop where
  listed : ∃ q ∈ tr'.procs, q.addr = p.addr ∧ q.tracee.proc.pid = p.tracee.proc.pid ∧
    (∀ k : Fin maxThreadsTraced, ((k : Nat) : Int) = i → (q.table.threads k).tid = 0) ∧
    ∀ k : Fin maxThreadsTraced, ((k : Nat) : Int) ≠ i → q.table.threads k = p.table.threads k

/-- An exit is always handled: the process goes off the list, and nothing else is asked for. -/
theorem handle_exit {env : Env} {f : Focus} {stop : Stop}
    (hclass : (waitForSomething env f stop).2.isExit = true) :
    ∃ f', handle env f stop = .ok f' ∧ f'.listed = false ∧ f'.calls = f.calls := by
  cases hevent : (waitForSomething env f stop).2 with
  | exit retVal =>
    obtain ⟨_, ip, _, hhandle⟩ := handle_of_class hevent (by rintro ⟨⟩)
    exact ⟨_, hhandle, rfl, rfl⟩
  | exitSignal signum =>
    obtain ⟨_, ip, _, hhandle⟩ := handle_of_class hevent (by rintro ⟨⟩)
    exact ⟨_, hhandle, rfl, rfl⟩
  | _ => simp [hevent, Event.isExit] at hclass

/-- A turn whose event makes no call and takes the process off the list removes its record. -/
theorem Tracer.turn_unlisted {env : Env} {tr : Tracer} {w : Wait} {p : ProcNode} {i : Int}
    {f : Focus} (hlookup : tr.lookup w = .ok (p, i))
    (hhandle : handle env (tr.focus w p i) w.stop = .ok f) (hlisted : f.listed = false)
    (hcalls : f.calls = []) :
    ∃ tr', tr.turn env w = .ok tr' ∧ tr'.procs = removeProc tr.procs p.addr := by
  unfold Tracer.turn
  rw [hlookup]
  simp only [hhandle, Except.bind, hcalls, makeCalls, Except.map, hlisted, Bool.false_eq_true,
    if_false]
  exact ⟨_, rfl, rfl⟩

/-- A turn that handles an exit removes the record of the process. -/
theorem Tracer.turn_exit {env : Env} {tr : Tracer} {w : Wait} {p : ProcNode} {i : Int}
    (hlookup : tr.lookup w = .ok (p, i)) (hclass : (tr.classify env w p i).isExit = true) :
    ∃ tr', tr.turn env w = .ok tr' ∧ tr'.procs = removeProc tr.procs p.addr := by
  obtain ⟨f, hhandle, hlisted, hcalls⟩ := handle_exit hclass
  exact Tracer.turn_unlisted hlookup hhandle hlisted hcalls

/-- The process found is on the list, under the group id of the thread. -/
theorem Tracer.mem_of_lookup {tr : Tracer} {w : Wait} {p : ProcNode} {i : Int}
    (h : tr.lookup w = .ok (p, i)) :
    ∃ q ∈ tr.procs, q.addr = p.addr ∧ q.tracee = p.tracee ∧ q.tracee.proc.pid = w.pid := by
  unfold Tracer.lookup at h
  split at h
  · cases h
  cases hfound : pid2proc tr.procs w.pid with
  | none => simp [hfound] at h
  | some q =>
    have hmem : q ∈ tr.procs := List.mem_of_find?_eq_some hfound
    have hpid : q.tracee.proc.pid = w.pid := by simpa using List.find?_some hfound
    cases hslot : tid2thread q.table w.beyond w.tid with
    | some k =>
      simp only [hfound, hslot, Except.ok.injEq, Prod.mk.injEq] at h
      obtain ⟨rfl, _⟩ := h
      exact ⟨q, hmem, rfl, rfl, hpid⟩
    | none =>
      cases hreg : regTid q.table w.tid with
      | error halt => simp [hfound, hslot, hreg, Except.map] at h
      | ok r =>
        simp only [hfound, hslot, hreg, Except.map, Except.ok.injEq, Prod.mk.injEq] at h
        obtain ⟨rfl, _⟩ := h
        exact ⟨q, hmem, rfl, rfl, hpid⟩

/-- After its process left the list no thread is found: the next wait ends utrace. -/
theorem Tracer.lookup_of_removed {tr : Tracer} {w : Wait}
    (h : ∀ q ∈ tr.procs, q.tracee.proc.pid ≠ w.pid) :
    tr.lookup w = .error (.exit 0) ∨ tr.lookup w = .error (.exit 1) := by
  have hnone : pid2proc tr.procs w.pid = none := by
    unfold pid2proc
    rw [List.find?_eq_none]
    intro q hq
    simpa using h q hq
  unfold Tracer.lookup
  by_cases hempty : tr.procs = []
  · exact Or.inl (by rw [if_pos hempty])
  · exact Or.inr (by rw [if_neg hempty, hnone])

/-- For every list of processes, every process on it with whatever threads, and every exit or
death of one of its threads: the event is handled and the process does not survive it. Where
pids differ, the next event of any other thread of that process ends utrace. -/
theorem thread_exit_never_survived (env : Env) {tr : Tracer} {w : Wait} {p : ProcNode} {i : Int}
    (hlookup : tr.lookup w = .ok (p, i)) (hclass : (tr.classify env w p i).isExit = true) :
    ∃ tr', tr.turn env w = .ok tr' ∧ ¬tr'.Survives p i ∧
      ((tr.procs.map fun q => q.tracee.proc.pid).Nodup → ∀ w' : Wait,
        w'.pid = p.tracee.proc.pid →
          tr'.turn env w' = .error (.exit 0) ∨ tr'.turn env w' = .error (.exit 1)) := by
  obtain ⟨tr', hturn, hprocs⟩ := Tracer.turn_exit hlookup hclass
  refine ⟨tr', hturn, ?_, ?_⟩
  · rintro ⟨q, hq, haddr, _⟩
    rw [hprocs] at hq
    exact addr_ne_of_mem_removeProc tr.distinct hq haddr
  · intro hpids w' hpid
    obtain ⟨r, hr, haddr, htracee, _⟩ := Tracer.mem_of_lookup hlookup
    have hgone : ∀ q ∈ tr'.procs, q.tracee.proc.pid ≠ w'.pid := by
      intro q hq heq
      rw [hprocs] at hq
      have hsame : q = r := List.inj_on_of_nodup_map hpids
        ((sublist_removeProc tr.procs p.addr).subset hq) hr (by rw [heq, hpid, htracee])
      exact addr_ne_of_mem_removeProc tr.distinct hq (hsame ▸ haddr)
    unfold Tracer.turn
    rcases Tracer.lookup_of_removed hgone with herr | herr
    · exact Or.inl (by rw [herr]; rfl)
    · exact Or.inr (by rw [herr]; rfl)

/-- Turn after turn, from the processes attached to first. -/
def Tracer.step (env : Env) (tr : Tracer) (w : Wait) : Option Tracer := (tr.turn env w).toOption

/-- The program of two functions, as utrace attaches to it. -/
def attachable : Env := { twoFunctions with pid2name := fun _ => some "a.out" }

/-- A stop of a thread of process 7. -/
def waitFor (tid : Pid) (stop : Stop) : Wait :=
  { tid := tid, pid := 7, stop := stop, childMem := nops }

/-- The exit of thread 8. -/
def threadExit : Wait := waitFor 8 { status := .exited 0 }

/-- utrace attaches to process 7, whose threads 7 and 8 stop in turn; then thread 8 exits. -/
theorem exists_two_threads :
    ∃ tr₀ tr p, openPid attachable .start (waitFor 7 (trapStop 0x3000)) 7 = .ok tr₀ ∧
      Run (Tracer.step attachable) (fun _ _ => True) tr₀
        [waitFor 7 (trapStop 0x3000), waitFor 8 (trapStop 0x4000)] tr ∧
      tr.lookup threadExit = .ok (p, 1) ∧
      (tr.classify attachable threadExit p 1).isExit = true ∧
      (p.table.threads ⟨0, by decide⟩).tid = 7 ∧ (p.table.threads ⟨1, by decide⟩).tid = 8 ∧
      p.tracee.proc.pid = 7 ∧ (tr.procs.map fun q => q.tracee.proc.pid) = [7] := by
  have hobs : (openPid attachable .start (waitFor 7 (trapStop 0x3000)) 7).toOption.any (fun tr₀ =>
      (runInputs (Tracer.step attachable) (fun _ _ => true) tr₀
        [waitFor 7 (trapStop 0x3000), waitFor 8 (trapStop 0x4000)]).any fun tr =>
          (tr.lookup threadExit).toOption.any fun found =>
            found.2 == 1 && (tr.classify attachable threadExit found.1 1).isExit &&
            (found.1.table.threads ⟨0, by decide⟩).tid == 7 &&
            (found.1.table.threads ⟨1, by decide⟩).tid == 8 &&
            found.1.tracee.proc.pid == 7 &&
            (tr.procs.map fun q => q.tracee.proc.pid) == [7]) = true := by
    decide +kernel
  rw [Option.any_eq_true] at hobs
  obtain ⟨tr₀, hopen, hrun⟩ := hobs
  obtain ⟨tr, hr, hfound⟩ := exists_run_of_observe (fun _ _ _ => trivial) hrun
  simp only [Option.any_eq_true, Bool.and_eq_true, beq_iff_eq] at hfound
  obtain ⟨⟨p, i⟩, hlookup, ⟨⟨⟨⟨rfl, hexit⟩, hzero⟩, hone⟩, hpid⟩, hpids⟩ := hfound
  exact ⟨tr₀, tr, p, Sys.eq_ok_of_toOption hopen, hr, Sys.eq_ok_of_toOption hlookup,
    hexit, hzero, hone, hpid, hpids⟩

/-- The exit of thread 8 takes the process of thread 7 off the list. -/
theorem thread_exit_not_survived :
    ¬∀ (env : Env) (w₀ : Wait) (pid : Pid) (ws : List Wait) (tr₀ tr tr' : Tracer) (w : Wait)
      (p : ProcNode) (i : Int),
      openPid env .start w₀ pid = .ok tr₀ → Run (Tracer.step env) (fun _ _ => True) tr₀ ws tr →
      tr.lookup w = .ok (p, i) → (tr.classify env w p i).isExit = true →
      (∃ k : Fin maxThreadsTraced, ((k : Nat) : Int) ≠ i ∧ (p.table.threads k).tid ≠ 0) →
      tr.turn env w = .ok tr' → tr'.Survives p i := by
  intro hclaim
  obtain ⟨tr₀, tr, p, hopen, hr, hlookup, hexit, hzero, -⟩ := exists_two_threads
  obtain ⟨tr', hturn, hprocs⟩ := Tracer.turn_exit hlookup hexit
  have hother : ∃ k : Fin maxThreadsTraced, ((k : Nat) : Int) ≠ 1 ∧ (p.table.threads k).tid ≠ 0 :=
    ⟨⟨0, by decide⟩, by decide, by rw [hzero]; decide⟩
  obtain ⟨q, hq, haddr, -⟩ := hclaim _ _ _ _ _ _ _ _ _ _ hopen hr hlookup hexit hother hturn
  rw [hprocs] at hq
  exact addr_ne_of_mem_removeProc tr.distinct hq haddr

/-- After the exit of thread 8, the next stop of thread 7 ends utrace. -/
theorem thread_exit_never_survived_example :
    ∃ (tr : Tracer) (p : ProcNode) (tr' : Tracer), tr.lookup threadExit = .ok (p, 1) ∧
      (p.table.threads ⟨0, by decide⟩).tid = 7 ∧
      tr.turn attachable threadExit = .ok tr' ∧ ¬tr'.Survives p 1 ∧
      (tr'.turn attachable (waitFor 7 (trapStop 0x3000)) = .error (.exit 0) ∨
        tr'.turn attachable (waitFor 7 (trapStop 0x3000)) = .error (.exit 1)) := by
  obtain ⟨tr₀, tr, p, -, -, hlookup, hexit, hzero, -, hpid, hpids⟩ := exists_two_threads
  obtain ⟨tr', hturn, hnot, hnext⟩ := thread_exit_never_survived attachable hlookup hexit
  refine ⟨tr, p, tr', hlookup, hzero, hturn, hnot, hnext ?_ _ hpid.symm⟩
  rw [hpids]
  exact List.nodup_singleton 7

end Utrace
