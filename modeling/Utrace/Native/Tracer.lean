import Utrace.Native.Event
import Utrace.Native.Threads

/-!
# All traced processes: `list_of_processes` and the main loop

A turn of the main loop waits for a thread, finds its process by the group id and its
slot by the tid, and handles the event. Process records are told apart by their
addresses, which `malloc` hands out once.
-/

namespace Utrace

/-- `struct process` with the tracee behind it; `addr` is where the record lies. -/
structure ProcNode where
  addr : Nat
  tracee : Tracee
  table : ThreadTable

/-- `list_of_processes`, and the globals of the main loop. -/
structure Tracer where
  procs : List ProcNode
  output : Output := {}
  exiting : Bool := false
  /-- No record was handed out at this address or beyond it yet. -/
  fresh : Nat
  distinct : (procs.map ProcNode.addr).Nodup
  below : ∀ p ∈ procs, p.addr < fresh

/-- Nothing is traced yet. -/
def Tracer.start : Tracer where
  procs := []
  fresh := 0
  distinct := List.nodup_nil
  below := nofun

/-- What `waitpid` reports, with what the kernel and the memory outside the records hold. -/
structure Wait where
  tid : Pid
  /-- `pid2tgid(tid)`. -/
  pid : Pid
  stop : Stop
  /-- The tids read outside the slots of a process. -/
  beyond : Int → Pid := fun _ => 0
  /-- The record read outside the slots of a process. -/
  past : Thread := {}
  /-- Whether `trace_pid` attaches to a child. -/
  attaches : Bool := true
  /-- The memory of a child. -/
  childMem : Addr → Byte := fun _ => 0

/-- `pid2proc`. -/
def pid2proc (procs : List ProcNode) (pid : Pid) : Option ProcNode :=
  procs.find? fun p => p.tracee.proc.pid = pid

/-- The loop of `remove_proc`: unlink what follows a record that stays. -/
def unlinkProc (addr : Nat) : List ProcNode → List ProcNode
  | [] => []
  | p :: procs => if p.addr = addr then unlinkProc addr procs else p :: unlinkProc addr procs

/-- `remove_proc`. -/
def removeProc (procs : List ProcNode) (addr : Nat) : List ProcNode :=
  match procs with
  | [] => []
  | p :: procs => if p.addr = addr then procs else p :: unlinkProc addr procs

/-- Unlinking keeps the order of the others. -/
theorem sublist_unlinkProc (addr : Nat) (procs : List ProcNode) :
    (unlinkProc addr procs).Sublist procs := by
  induction procs with
  | nil => exact .slnil
  | cons p procs ih =>
    unfold unlinkProc
    split
    · exact ih.cons p
    · exact ih.cons_cons p

/-- Removal keeps the order of the others. -/
theorem sublist_removeProc (procs : List ProcNode) (addr : Nat) :
    (removeProc procs addr).Sublist procs := by
  unfold removeProc
  split
  · exact .slnil
  · split
    · exact List.sublist_cons_self ..
    · exact (sublist_unlinkProc addr _).cons_cons _

/-- The unlinked address is gone. -/
theorem addr_ne_of_mem_unlinkProc {addr : Nat} {procs : List ProcNode} {q : ProcNode}
    (h : q ∈ unlinkProc addr procs) : q.addr ≠ addr := by
  induction procs with
  | nil => cases h
  | cons p procs ih =>
    unfold unlinkProc at h
    split at h
    · exact ih h
    · rename_i hp
      rcases List.mem_cons.mp h with rfl | hq
      · exact hp
      · exact ih hq

/-- Where addresses differ, `remove_proc` removes the record. -/
theorem addr_ne_of_mem_removeProc {procs : List ProcNode} {addr : Nat} {q : ProcNode}
    (hdistinct : (procs.map ProcNode.addr).Nodup) (h : q ∈ removeProc procs addr) :
    q.addr ≠ addr := by
  cases procs with
  | nil => cases h
  | cons p procs =>
    change q ∈ if p.addr = addr then procs else p :: unlinkProc addr procs at h
    split at h
    · rename_i hp
      rw [List.map_cons, List.nodup_cons] at hdistinct
      intro hq
      exact hdistinct.1 (by rw [hp, ← hq]; exact List.mem_map_of_mem h)
    · rename_i hp
      rcases List.mem_cons.mp h with rfl | hq
      · exact hp
      · exact addr_ne_of_mem_unlinkProc hq

namespace Tracer

/-- The tracer without the record at an address. -/
def remove (tr : Tracer) (addr : Nat) : Tracer :=
  { tr with
    procs := removeProc tr.procs addr
    distinct := tr.distinct.sublist ((sublist_removeProc tr.procs addr).map ProcNode.addr)
    below := fun p hp => tr.below p ((sublist_removeProc tr.procs addr).subset hp) }

/-- Write through the pointer to the record at an address. -/
def update (tr : Tracer) (addr : Nat) (tracee : Tracee) (table : ThreadTable) : Tracer :=
  { tr with
    procs := tr.procs.map fun p =>
      if p.addr = addr then { p with tracee := tracee, table := table } else p
    distinct := by
      have haddr : (ProcNode.addr ∘ fun p : ProcNode =>
          if p.addr = addr then { p with tracee := tracee, table := table } else p) =
          ProcNode.addr := by
        funext p
        simp only [Function.comp_apply]
        split <;> rfl
      rw [List.map_map, haddr]
      exact tr.distinct
    below := by
      intro p hp
      obtain ⟨q, hq, rfl⟩ := List.mem_map.mp hp
      have hbelow := tr.below q hq
      split <;> exact hbelow }

/-- `list_of_processes = proc`, for a record just allocated. -/
def add (tr : Tracer) (tracee : Tracee) (table : ThreadTable) : Tracer :=
  { tr with
    procs := ⟨tr.fresh, tracee, table⟩ :: tr.procs
    fresh := tr.fresh + 1
    distinct := by
      rw [List.map_cons, List.nodup_cons]
      refine ⟨fun hmem => ?_, tr.distinct⟩
      obtain ⟨p, hp, haddr⟩ := List.mem_map.mp hmem
      exact absurd (tr.below p hp) (by rw [haddr]; exact lt_irrefl _)
    below := by
      intro p hp
      rcases List.mem_cons.mp hp with rfl | hp
      · exact Nat.lt_succ_self _
      · exact Nat.lt_succ_of_lt (tr.below p hp) }

end Tracer

/-- `open_pid`. -/
def openPid (env : Env) (tr : Tracer) (w : Wait) (pid : Pid) : Except Halt Tracer :=
  if w.attaches then
    match env.pid2name pid with
    | none => .ok tr
    | some filename => (regTid .zeroed pid).map fun r =>
        tr.add (openTracee env filename pid w.childMem) r.1
  else .ok tr

/-- `open_pid` opens a record with a slot for the process, or changes nothing. -/
theorem openPid_cases (env : Env) (tr : Tracer) (w : Wait) (pid : Pid) :
    (∃ filename table, w.attaches = true ∧ env.pid2name pid = some filename ∧
        (∃ k, (table.threads k).tid = pid) ∧
        openPid env tr w pid = .ok (tr.add (openTracee env filename pid w.childMem) table)) ∨
      (w.attaches = true → env.pid2name pid = none) ∧ openPid env tr w pid = .ok tr := by
  unfold openPid
  by_cases hattaches : w.attaches = true
  · rw [if_pos hattaches]
    cases hname : env.pid2name pid with
    | none => exact Or.inr ⟨fun _ => rfl, rfl⟩
    | some filename =>
      refine Or.inl ⟨filename, ?_⟩
      rcases regTid_cases .zeroed pid with ⟨i, hreg, k, hk⟩ | ⟨table, i, k, hreg, _, hk, _⟩ |
        ⟨_, hnone⟩
      · exact ⟨_, hattaches, rfl, ⟨k, hk⟩, by rw [hreg]; rfl⟩
      · exact ⟨table, hattaches, rfl, ⟨k, hk⟩, by rw [hreg]; rfl⟩
      · exact absurd rfl (hnone ⟨0, by decide⟩).1
  · rw [if_neg hattaches]
    exact Or.inr ⟨fun h => absurd h hattaches, rfl⟩

/-- A record read through a pointer to a slot, in the array or past it. -/
def ThreadTable.slot (table : ThreadTable) (past : Thread) (i : Int) : Thread :=
  (slotAt i).elim past table.threads

/-- A record written through a pointer to a slot; past the array nothing is kept. -/
def ThreadTable.write (table : ThreadTable) (i : Int) (thr : Thread) : ThreadTable :=
  (slotAt i).elim table fun k => { table with threads := Function.update table.threads k thr }

/-- The calls into `proc.c` an event made for other processes and slots. -/
def makeCalls (env : Env) (w : Wait) :
    List Call → Tracer × ThreadTable → Except Halt (Tracer × ThreadTable)
  | [], s => .ok s
  | .openPid child :: calls, s =>
    (openPid env s.1 w child).bind fun tr => makeCalls env w calls (tr, s.2)
  | .regTid child :: calls, s =>
    (regTid s.2 child).bind fun r => makeCalls env w calls (s.1, r.1)

/-- The thread's record and its process, as `wait_for_something` finds them. -/
def Tracer.lookup (tr : Tracer) (w : Wait) : Except Halt (ProcNode × Int) :=
  if tr.procs = [] then .error (.exit 0)
  else
    match pid2proc tr.procs w.pid with
    | none => .error (.exit 1)
    | some p =>
      match tid2thread p.table w.beyond w.tid with
      | some i => .ok (p, i)
      | none => (regTid p.table w.tid).map fun r => ({ p with table := r.1 }, r.2)

/-- The state in which the event of a thread found is handled. -/
def Tracer.focus (tr : Tracer) (w : Wait) (p : ProcNode) (i : Int) : Focus where
  tracee := p.tracee
  thr := p.table.slot w.past i
  output := tr.output
  exiting := tr.exiting
  eip := w.stop.eip

/-- How the event of a thread found is classified. -/
def Tracer.classify (env : Env) (tr : Tracer) (w : Wait) (p : ProcNode) (i : Int) : Event :=
  (waitForSomething env (tr.focus w p i) w.stop).2

/-- One turn of the main loop. -/
def Tracer.turn (env : Env) (tr : Tracer) (w : Wait) : Except Halt Tracer :=
  (tr.lookup w).bind fun found =>
    (handle env (tr.focus w found.1 found.2) w.stop).bind fun f =>
      (makeCalls env w f.calls ({ tr with output := f.output }, found.1.table)).map fun s =>
        if f.listed then s.1.update found.1.addr f.tracee (s.2.write found.2 f.thr)
        else s.1.remove found.1.addr

/-! ## `signal_alarm` -/

/-- `signal_alarm`, a second after utrace was asked to exit: the pids it sends `SIGSTOP` to, first
one first, for the pids in `opt_p`; `signal_exit` has stopped those already. A process found in
`opt_p` is passed over, and the one behind it is stopped without being looked for. -/
def signalAlarm (optp : List Pid) : List ProcNode → List Pid
  | [] => []
  | tmp :: next =>
    if tmp.tracee.proc.pid ∈ optp then
      match next with
      | [] => []
      | tmp :: next => tmp.tracee.proc.pid :: signalAlarm optp next
    else tmp.tracee.proc.pid :: signalAlarm optp next

end Utrace
