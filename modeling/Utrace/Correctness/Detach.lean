import Utrace.Correctness.ThreadExit
import Utrace.Native.Session

/-!
# Detaching from a process

When utrace is asked to exit it stops its processes and detaches from each at its SIGSTOP.
`process_signal` detaches the one thread whose tid is the pid, frees the process record, and
then resumes the stopped thread with a tid read from that record.
-/

namespace Utrace

/-- One call of `ptrace`: the tid handed to it, the process record whose memory the tid was
read from, and the records not freed by then. -/
structure Handed where
  tid : Pid
  request : Request
  record : Nat
  live : List Nat

/-- The calls `process_signal` makes for the stop utrace asked for, in order. The record
`event->thr` points to is part of that of the process, which `remove_proc` frees in between. -/
def detachCalls (procs : List ProcNode) (p : ProcNode) (thr : Thread) (signum : Int) :
    List Handed :=
  [⟨p.tracee.proc.pid, .detach, p.addr, procs.map ProcNode.addr⟩,
    ⟨thr.tid, .syscall signum, p.addr, (removeProc procs p.addr).map ProcNode.addr⟩]

/-- A thread is detached. -/
def DetachedBy (calls : List Handed) (tid : Pid) : Prop :=
  ∃ call ∈ calls, call.request = .detach ∧ call.tid = tid

/-- What detaching from a process with some registered threads takes. -/
structure DetachesAll (table : ThreadTable) (calls : List Handed) : Prop where
  /-- No registered thread is left attached. -/
  detached : ∀ k, (table.threads k).tid ≠ 0 → DetachedBy calls (table.threads k).tid
  /-- No tid is read from a record that was freed. -/
  live : ∀ call ∈ calls, call.record ∈ call.live

/-- The thread whose tid is the pid is the only one detached. -/
theorem detachedBy_detachCalls {procs : List ProcNode} {p : ProcNode} {thr : Thread}
    {signum : Int} {tid : Pid} :
    DetachedBy (detachCalls procs p thr signum) tid ↔ tid = p.tracee.proc.pid := by
  constructor
  · rintro ⟨call, hcall, hrequest, rfl⟩
    rcases List.mem_cons.mp hcall with rfl | hcall
    · rfl
    · rcases List.mem_singleton.mp hcall with rfl
      cases hrequest
  · rintro rfl
    exact ⟨_, List.mem_cons_self .., rfl, rfl⟩

/-- The tid of the stopped thread is read from the record just freed. -/
theorem not_live_detachCalls {procs : List ProcNode} (hdistinct : (procs.map ProcNode.addr).Nodup)
    (p : ProcNode) (thr : Thread) (signum : Int) :
    ¬∀ call ∈ detachCalls procs p thr signum, call.record ∈ call.live := by
  intro hlive
  obtain ⟨q, hq, haddr⟩ := List.mem_map.mp
    (hlive _ (List.mem_cons_of_mem _ (List.mem_singleton.mpr rfl)))
  exact addr_ne_of_mem_removeProc hdistinct hq haddr

/-- The stop utrace asked for, while it is exiting, is handled by these calls. -/
theorem handle_detach {env : Env} {f : Focus} {stop : Stop} (hexiting : f.exiting = true)
    (hrequests : f.requests = [])
    (hclass : (waitForSomething env f stop).2 = .signal sigstop) :
    ∃ f', handle env f stop = .ok f' ∧ f'.listed = false ∧ f'.calls = f.calls ∧
      f'.requests.map (fun r => (r.1, r.2.1)) =
        [(f.thr.tid, .syscall sigstop), (f.tracee.proc.pid, .detach)] := by
  obtain ⟨_, ip, _, hhandle⟩ := handle_of_class hclass (by rintro ⟨⟩)
  have hasked : (f.withIp ip).exiting = true ∧ sigstop = sigstop := ⟨hexiting, rfl⟩
  have hpid : (disableAllBreakpoints env f.tracee).proc.pid = f.tracee.proc.pid := by
    rw [Tracee.pid_of_header (header_disableAllBreakpoints env f.tracee)]
    rfl
  refine ⟨_, hhandle, ?_⟩
  unfold processSignal
  rw [if_pos hasked]
  refine ⟨rfl, rfl, ?_⟩
  change (f.thr.tid, _) :: ((disableAllBreakpoints env f.tracee).proc.pid, _) ::
    f.requests.map _ = _
  rw [hpid, hrequests, List.map_nil]

/-- For every list of processes, every process on it with whatever registered threads, and the
SIGSTOP of any one of its threads while utrace is exiting: the process is dropped from the
list, and it was not detached from as it has to be. The registered threads are all detached
where there are none but the group leader; the resumed thread's tid comes from freed memory
even there. -/
theorem detach_never (env : Env) {tr : Tracer} {w : Wait} {p : ProcNode} {i : Int}
    (hlookup : tr.lookup w = .ok (p, i)) (hexiting : tr.exiting = true)
    (hclass : tr.classify env w p i = .signal sigstop) :
    let calls := detachCalls tr.procs p (p.table.slot w.past i) sigstop
    (∃ f tr', handle env (tr.focus w p i) w.stop = .ok f ∧
      f.requests.map (fun r => (r.1, r.2.1)) =
        calls.reverse.map (fun call => (call.tid, call.request)) ∧
      tr.turn env w = .ok tr' ∧ tr'.procs = removeProc tr.procs p.addr) ∧
    ¬DetachesAll p.table calls ∧
    ((∀ k, (p.table.threads k).tid ≠ 0 → DetachedBy calls (p.table.threads k).tid) ↔
      ∀ k, (p.table.threads k).tid ≠ 0 → (p.table.threads k).tid = p.tracee.proc.pid) := by
  intro calls
  refine ⟨?_, ?_, ?_⟩
  · obtain ⟨f, hhandle, hlisted, hcalls, hrequests⟩ :=
      handle_detach (f := tr.focus w p i) hexiting rfl hclass
    obtain ⟨tr', hturn, hprocs⟩ := Tracer.turn_unlisted hlookup hhandle hlisted hcalls
    exact ⟨f, tr', hhandle, hrequests, hturn, hprocs⟩
  · intro hdetaches
    exact not_live_detachCalls tr.distinct p _ _ hdetaches.live
  · refine forall₂_congr fun k _ => ?_
    exact detachedBy_detachCalls

/-- utrace attaches to process 7 and sees its threads 7 and 8; then it is interrupted. -/
def interrupted : List Happening :=
  [.attach (waitFor 7 (trapStop 0x3000)) 7, .wait (waitFor 7 (trapStop 0x3000)) false,
    .wait (waitFor 8 (trapStop 0x4000)) false, .interrupt]

/-- The stop of thread 8 that follows. -/
def stopOfThread : Wait := waitFor 8 { status := .stopped sigstop }

/-- A run is stopped by `SIGSTOP` in its second thread while `utrace` is exiting. -/
theorem exists_interrupted :
    ∃ σ p, Run (Session.step attachable) (fun _ _ => True) .start interrupted σ ∧
      σ.tracer.lookup stopOfThread = .ok (p, 1) ∧ σ.tracer.exiting = true ∧
      σ.tracer.classify attachable stopOfThread p 1 = .signal sigstop ∧
      (p.table.threads ⟨1, by decide⟩).tid = 8 ∧ p.tracee.proc.pid = 7 := by
  have hobs : (runInputs (Session.step attachable) (fun _ _ => true) .start interrupted).any
      (fun σ => (σ.tracer.lookup stopOfThread).toOption.any fun found =>
        found.2 == 1 && σ.tracer.exiting &&
        σ.tracer.classify attachable stopOfThread found.1 1 == .signal sigstop &&
        (found.1.table.threads ⟨1, by decide⟩).tid == 8 &&
        found.1.tracee.proc.pid == 7) = true := by
    decide +kernel
  obtain ⟨σ, hr, hfound⟩ := exists_run_of_observe (fun _ _ _ => trivial) hobs
  simp only [Option.any_eq_true, Bool.and_eq_true, beq_iff_eq] at hfound
  obtain ⟨⟨p, i⟩, hlookup, ⟨⟨⟨rfl, hexiting⟩, hclass⟩, htid⟩, hpid⟩ := hfound
  exact ⟨σ, p, hr, Sys.eq_ok_of_toOption hlookup, hexiting, hclass, htid, hpid⟩

/-- Thread 8 stays attached. -/
theorem detach_incomplete :
    ¬∀ (env : Env) (happenings : List Happening) (σ : Session) (w : Wait) (p : ProcNode) (i : Int),
      Run (Session.step env) (fun _ _ => True) .start happenings σ →
      σ.tracer.lookup w = .ok (p, i) → σ.tracer.exiting = true →
      σ.tracer.classify env w p i = .signal sigstop →
      DetachesAll p.table (detachCalls σ.tracer.procs p (p.table.slot w.past i) sigstop) := by
  intro hclaim
  obtain ⟨σ, p, hr, hlookup, hexiting, hclass, htid, hpid⟩ := exists_interrupted
  have hdetached := (hclaim _ _ _ _ _ _ hr hlookup hexiting hclass).detached ⟨1, by decide⟩
    (by rw [htid]; decide)
  rw [detachedBy_detachCalls, htid, hpid] at hdetached
  exact absurd hdetached (by decide)

/-- The stop of thread 8, by the general result. -/
theorem detach_never_example :
    ∃ (tr : Tracer) (p : ProcNode), tr.lookup stopOfThread = .ok (p, 1) ∧
      ¬DetachesAll p.table
        (detachCalls tr.procs p (p.table.slot stopOfThread.past 1) sigstop) := by
  obtain ⟨σ, p, -, hlookup, hexiting, hclass, -⟩ := exists_interrupted
  exact ⟨σ.tracer, p, hlookup, (detach_never attachable hlookup hexiting hclass).2.1⟩

end Utrace
