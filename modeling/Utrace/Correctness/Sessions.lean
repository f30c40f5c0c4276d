import Utrace.Interpretation.Counted
import Utrace.Interpretation.Marks
import Utrace.Interpretation.Seen
import Utrace.Correctness.Exit

/-!
# The processes of a session are traced apart

Whatever happens to the other processes, what the tracer holds of one process is what it would
hold were that process traced alone: the session of many processes refines, for each of them,
the system of one.
-/

namespace Utrace

/-! ## The system of one process -/

/-- The events are among those allowed, and the process writes none of its own text. -/
def Sys.Within {ι : Type*} [DecidableEq ι] (env : Env) (allowed : Set Event) (text : Set Addr)
    (s : Sys ι) : Input ι → Prop
  | .stop i stop => s.classify env i stop ∈ allowed
  | .interrupt => True
  | .store mem => ∀ a ∈ text, mem a = s.tracee.mem a

/-- What is laid down for the process with a record at an address: the events allowed, the text it
keeps, and some threads that belong to no other. -/
structure Terms where
  allowed : Nat → Set Event
  text : Nat → Set Addr
  owner : Pid → Option Nat

/-- The threads laid down for the process with the record at an address. -/
def Terms.own (terms : Terms) (addr : Nat) : Set Pid := { tid | terms.owner tid = some addr }

namespace ProcNode

/-- Where a slot of the process is taken, it is by the thread that is to have it. -/
def Assigned (p : ProcNode) (tid : Fin maxThreadsTraced → Pid) : Prop :=
  ∀ k, (p.table.threads k).tid = 0 ∨ (p.table.threads k).tid = tid k

/-- `s` is what the tracer holds of the process, and says what the trace says of its threads. -/
structure Is (exiting : Bool) (output : Output) (own : Set Pid)
    (tid : Fin maxThreadsTraced → Pid) (p : ProcNode) (s : Sys (Fin maxThreadsTraced)) : Prop where
  tracee : s.tracee = p.tracee
  listed : s.listed = true
  exiting : s.exiting = exiting
  threads : ∀ k, (s.threads k).bare = (p.table.threads k).takenBy (tid k)
  logs : s.output.plainLogs own = output.plainLogs own

/-- What the tracer holds of the process is what a run of that process alone leaves. -/
def Alone (env : Env) (terms : Terms) (exiting : Bool) (output : Output) (p : ProcNode) : Prop :=
  ∀ tid, p.Assigned tid → ∃ filename pid mem inputs s,
    Run (Sys.step env) (Sys.Within env (terms.allowed p.addr) (terms.text p.addr))
      (Sys.opened env filename pid mem tid) inputs s ∧
    p.Is exiting output (terms.own p.addr) tid s

variable {env : Env} {terms : Terms} {exiting : Bool} {output : Output}

/-- Threads assigned to the slots of a later array are assigned to those of an earlier one. -/
theorem Assigned.of_registers {addr : Nat} {tracee : Tracee} {table table' : ThreadTable}
    {tid : Fin maxThreadsTraced → Pid} (h : table.Registers table')
    (hassigned : Assigned ⟨addr, tracee, table'⟩ tid) : Assigned ⟨addr, tracee, table⟩ tid := by
  intro k
  rcases h.tids k with hfree | hkept
  · exact Or.inl hfree
  · have hslot := hassigned k
    dsimp only at hslot ⊢
    rwa [hkept] at hslot

/-- Giving free slots to threads is no step of the process. -/
theorem Alone.registers {addr : Nat} {tracee : Tracee} {table table' : ThreadTable}
    (h : Alone env terms exiting output ⟨addr, tracee, table⟩) (hreg : table.Registers table') :
    Alone env terms exiting output ⟨addr, tracee, table'⟩ := by
  intro tid hassigned
  obtain ⟨filename, pid, mem, inputs, s, hr, his⟩ := h tid (hassigned.of_registers hreg)
  refine ⟨filename, pid, mem, inputs, s, hr, his.tracee, his.listed, his.exiting, fun k => ?_,
    his.logs⟩
  rw [his.threads k]
  exact (hreg.records k (tid k)).symm

/-- What the trace says of other threads does not matter. -/
theorem Alone.of_logs {output' : Output} {p : ProcNode} (h : p.Alone env terms exiting output)
    (hlogs : ∀ tid ∈ terms.own p.addr, output'.plainLog tid = output.plainLog tid) :
    p.Alone env terms exiting output' := by
  intro tid hassigned
  obtain ⟨filename, pid, mem, inputs, s, hr, his⟩ := h tid hassigned
  refine ⟨filename, pid, mem, inputs, s, hr, his.tracee, his.listed, his.exiting, his.threads, ?_⟩
  rw [his.logs]
  ext t : 1
  exact (hlogs t t.2).symm

/-- The interrupt is one of a run of the process alone too. -/
theorem Alone.interrupt {p : ProcNode} (h : p.Alone env terms exiting output) :
    p.Alone env terms true output := by
  intro tid hassigned
  obtain ⟨filename, pid, mem, inputs, s, hr, his⟩ := h tid hassigned
  exact ⟨filename, pid, mem, _, { s with exiting := true },
    hr.snoc (i := Input.interrupt) trivial rfl, his.tracee, his.listed, rfl, his.threads, his.logs⟩

/-- A process just opened, of whose threads nothing was written yet. -/
theorem Alone.opened {addr : Nat} (hlogs : ∀ tid ∈ terms.own addr, output.plainLog tid = [])
    (filename : String) (pid : Pid) (mem : Addr → Byte) :
    Alone env terms exiting output ⟨addr, openTracee env filename pid mem, .zeroed⟩ := by
  have hfalse : Alone env terms false output
      ⟨addr, openTracee env filename pid mem, .zeroed⟩ := by
    intro tid _
    refine ⟨filename, pid, mem, [], _, .nil, rfl, rfl, rfl, fun _ => rfl, ?_⟩
    ext t : 1
    exact (hlogs t t.2).symm
  cases exiting with
  | false => exact hfalse
  | true => exact hfalse.interrupt

/-- So is a write of the process outside its text. -/
theorem Alone.store {p : ProcNode} (h : p.Alone env terms exiting output) {addr : Nat}
    {mem : Addr → Byte}
    (hkeeps : p.addr = addr → ∀ a ∈ terms.text addr, mem a = p.tracee.mem a) :
    (p.store addr mem).Alone env terms exiting output := by
  unfold ProcNode.store
  split
  · rename_i haddr
    intro tid hassigned
    obtain ⟨filename, pid, mem₀, inputs, s, hr, his⟩ := h tid hassigned
    refine ⟨filename, pid, mem₀, _, { s with tracee := { s.tracee with mem := mem } },
      hr.snoc (i := Input.store mem) ?_ rfl, ?_, his.listed, his.exiting, his.threads, his.logs⟩
    · intro a ha
      rw [his.tracee]
      exact hkeeps haddr a (haddr ▸ ha)
    · rw [his.tracee]
  · exact h

/-- System calls on the stacks of the process were pushed at their entries. -/
theorem Alone.pushed {p : ProcNode} (h : p.Alone env terms exiting output)
    (k : Fin maxThreadsTraced) : (p.table.threads k).callstack.Pushed := by
  obtain ⟨filename, pid, mem, inputs, s, hr, his⟩ :=
    h (fun k => (p.table.threads k).tid) fun _ => Or.inr rfl
  have hsteady := hr.invariant (P := fun s => s.Steady pid (symbolsOf env (some filename)))
    (Sys.Steady.opened ..) fun _ _ _ h _ hs => h.step hs
  have hbare := congrArg Thread.callstack (his.threads k)
  have hcallstack : (s.threads k).callstack = (p.table.threads k).callstack := hbare
  rw [← hcallstack]
  exact hsteady.pushed k

/-- Writing a record to a slot with its tid keeps the tids. -/
theorem tid_write {table : ThreadTable} {i : Int} {thr : Thread}
    (h : ∀ k, ThreadTable.slotAt i = some k → thr.tid = (table.threads k).tid)
    (k : Fin maxThreadsTraced) : ((table.write i thr).threads k).tid = (table.threads k).tid := by
  unfold ThreadTable.write
  cases hi : ThreadTable.slotAt i with
  | none => rfl
  | some found =>
    by_cases hk : k = found
    · subst hk
      simpa using h k hi
    · simp [Function.update_of_ne hk]

/-- The event of a thread in its slot is an event of the process alone. -/
theorem Alone.event {tr : Tracer} {w : Wait} {p : ProcNode} {k : Fin maxThreadsTraced}
    {i : Int} {f : Focus} (h : p.Alone env terms tr.exiting tr.output)
    (hi : ThreadTable.slotAt i = some k) (htaken : (p.table.threads k).tid ≠ 0)
    (hclass : tr.classify env w p i ∈ terms.allowed p.addr)
    (hhandle : handle env (tr.focus w p i) w.stop = .ok f) (hlisted : f.listed = true) :
    Alone env terms tr.exiting f.output ⟨p.addr, f.tracee, p.table.write i f.thr⟩ := by
  have hslot : (tr.focus w p i).thr = p.table.threads k := by
    simp [Tracer.focus, ThreadTable.slot, hi]
  have hkept : f.thr.tid = (p.table.threads k).tid := by
    rw [(handle_effect hhandle).2, hslot]
  have htids : ∀ k', ((p.table.write i f.thr).threads k').tid = (p.table.threads k').tid := by
    apply tid_write
    intro k' hk'
    rw [hi] at hk'
    cases hk'
    exact hkept
  intro tid hassigned
  have hbefore : p.Assigned tid := by
    intro k'
    have hafter := hassigned k'
    dsimp only at hafter
    rwa [htids k'] at hafter
  obtain ⟨filename, pid, mem, inputs, s, hr, his⟩ := h tid hbefore
  have htid : (p.table.threads k).tid = tid k := (hbefore k).resolve_left htaken
  have hview : (tr.focus w p i).view (terms.own p.addr) =
      (s.focus k w.stop).view (terms.own p.addr) := by
    have hbare : (p.table.threads k).bare = (s.threads k).bare := by
      rw [his.threads k, Thread.takenBy, ← htid]
    apply Focus.view_eq
    · simp only [Focus.core, hslot, Sys.focus, his.tracee, his.listed, his.exiting, hbare]
      rfl
    · exact his.logs.symm
  obtain ⟨f', hevent, hend⟩ := (Sees.handle env w.stop).exists_ok hview hhandle
  have hcore : f.core = f'.core := congrArg Prod.fst hend
  have hlogs : f.output.plainLogs (terms.own p.addr) = f'.output.plainLogs (terms.own p.addr) :=
    congrArg Prod.snd hend
  have hsame : f.tracee = f'.tracee ∧ f.thr.bare = f'.thr.bare ∧ f.listed = f'.listed ∧
      f.exiting = f'.exiting ∧ f.eip = f'.eip := by
    simpa only [Focus.core, Prod.mk.injEq] using hcore
  obtain ⟨htracee, hthr, hlist, hexiting, -⟩ := hsame
  refine ⟨filename, pid, mem, _, s.put k f', hr.snoc (i := Input.stop k w.stop) ?_ ?_, htracee.symm,
    hlist.symm.trans hlisted, ?_, ?_, hlogs.symm⟩
  · have hclass' : s.classify env k w.stop = tr.classify env w p i :=
      (Sees.waitForSomething_view env w.stop hview).symm
    change s.classify env k w.stop ∈ terms.allowed p.addr
    rw [hclass']
    exact hclass
  · exact Sys.step_stop_eq_some.mpr ⟨his.listed, f', hevent, rfl⟩
  · exact hexiting.symm.trans (LeavesAlone.exiting_handle env w.stop hhandle)
  · intro k'
    by_cases hk : k' = k
    · subst hk
      rw [Sys.threads_put_self, ← hthr]
      have hput : (p.table.write i f.thr).threads k' = f.thr := by
        simp [ThreadTable.write, hi]
      dsimp only
      rw [hput, Thread.takenBy, ← htid, ← hkept]
    · have hput : (p.table.write i f.thr).threads k' = p.table.threads k' := by
        simp [ThreadTable.write, hi, Function.update_of_ne hk]
      rw [Sys.threads_put_of_ne s hk, his.threads k']
      dsimp only
      rw [hput]

/-- The first event of a process touches no record of a thread: it may be any thread's. -/
theorem Alone.first {tr : Tracer} {w : Wait} {p : ProcNode} {i : Int} {f : Focus}
    (h : p.Alone env terms tr.exiting tr.output) (hbe : p.tracee.proc.breakpointsEnabled = -1)
    (hi : ThreadTable.slotAt i = none) (hclass : tr.classify env w p i ∈ terms.allowed p.addr)
    (hhandle : handle env (tr.focus w p i) w.stop = .ok f) :
    Alone env terms tr.exiting f.output ⟨p.addr, f.tracee, p.table.write i f.thr⟩ := by
  have hwrite : p.table.write i f.thr = p.table := by simp [ThreadTable.write, hi]
  have hend : f.tracee = enableAllBreakpoints p.tracee ∧ f.output = tr.output := by
    rw [handle_first (f := tr.focus w p i) hbe] at hhandle
    cases hhandle
    exact ⟨rfl, rfl⟩
  rw [hwrite, hend.1, hend.2]
  intro tid hassigned
  obtain ⟨filename, pid, mem, inputs, s, hr, his⟩ := h tid hassigned
  obtain ⟨k⟩ : Nonempty (Fin maxThreadsTraced) := ⟨⟨0, by decide⟩⟩
  have hbe' : (s.focus k w.stop).tracee.proc.breakpointsEnabled = -1 := by
    change s.tracee.proc.breakpointsEnabled = -1
    rw [his.tracee, hbe]
  refine ⟨filename, pid, mem, _, s.put k (continueProcess
    { (s.focus k w.stop).withIp 0 with tracee := enableAllBreakpoints s.tracee } (s.threads k).tid),
    hr.snoc (i := Input.stop k w.stop) ?_ ?_, ?_, his.listed, his.exiting, ?_, his.logs⟩
  · have hboth : s.classify env k w.stop = tr.classify env w p i := by
      unfold Sys.classify Tracer.classify
      rw [waitForSomething_first hbe', waitForSomething_first (f := tr.focus w p i) hbe]
    change s.classify env k w.stop ∈ terms.allowed p.addr
    rw [hboth]
    exact hclass
  · exact Sys.step_stop_eq_some.mpr ⟨his.listed, _, handle_first hbe', rfl⟩
  · change enableAllBreakpoints s.tracee = enableAllBreakpoints p.tracee
    rw [his.tracee]
  · intro k'
    rw [← his.threads k']
    by_cases hk : k' = k
    · rw [hk, Sys.threads_put_self]
      rfl
    · rw [Sys.threads_put_of_ne s hk]

end ProcNode

/-! ## The session -/

/-- Every process on the list is as if it were traced alone, but for those an event is being
handled for; and nothing was written for the threads of a process that is not opened yet. -/
structure Tracer.Alone (env : Env) (terms : Terms) (busy : Set Nat) (tr : Tracer) : Prop where
  listed : ∀ p ∈ tr.procs, p.addr ∉ busy → p.Alone env terms tr.exiting tr.output
  unwritten : ∀ addr, tr.fresh ≤ addr → ∀ tid ∈ terms.own addr, tr.output.plainLog tid = []

namespace Tracer

variable {env : Env} {terms : Terms} {busy : Set Nat} {tr tr' : Tracer}

/-- A process that is added was just opened alone. -/
theorem Alone.add (h : tr.Alone env terms busy) (filename : String) (pid : Pid)
    (mem : Addr → Byte) {table : ThreadTable} (hreg : ThreadTable.zeroed.Registers table) :
    (tr.add (openTracee env filename pid mem) table).Alone env terms busy := by
  constructor
  · intro p hp hbusy
    rcases List.mem_cons.mp hp with rfl | hp
    · have hlogs := h.unwritten tr.fresh le_rfl
      exact (ProcNode.Alone.opened hlogs filename pid mem).registers hreg
    · exact h.listed p hp hbusy
  · intro addr haddr
    exact h.unwritten addr (Nat.le_of_succ_le haddr)

/-- `open_pid` keeps every process as if alone, and prints nothing. -/
theorem Alone.openPid (h : tr.Alone env terms busy) {w : Wait} {pid : Pid}
    (hopen : openPid env tr w pid = .ok tr') :
    tr'.Alone env terms busy ∧ tr'.exiting = tr.exiting ∧ tr'.output = tr.output := by
  unfold Utrace.openPid at hopen
  split at hopen
  · cases hname : env.pid2name pid with
    | none =>
      rw [hname] at hopen
      cases hopen
      exact ⟨h, rfl, rfl⟩
    | some filename =>
      rw [hname] at hopen
      cases hreg : regTid .zeroed pid with
      | error halt => simp [hreg, Except.map] at hopen
      | ok r =>
        simp only [hreg, Except.map, Except.ok.injEq] at hopen
        subst hopen
        exact ⟨h.add filename pid w.childMem (ThreadTable.registers_regTid hreg), rfl, rfl⟩
  · cases hopen
    exact ⟨h, rfl, rfl⟩

/-- The calls made for an event open processes and register threads. -/
theorem Alone.makeCalls {w : Wait} {calls : List Call} {table : ThreadTable}
    {s : Tracer × ThreadTable} (h : tr.Alone env terms busy)
    (hcalls : makeCalls env w calls (tr, table) = .ok s) :
    s.1.Alone env terms busy ∧ s.1.exiting = tr.exiting ∧ s.1.output = tr.output ∧
      table.Registers s.2 := by
  induction calls generalizing tr table with
  | nil =>
    cases hcalls
    exact ⟨h, rfl, rfl, .refl table⟩
  | cons call calls ih =>
    cases call with
    | openPid child =>
      cases hopen : Utrace.openPid env tr w child with
      | error halt => simp [Utrace.makeCalls, hopen, Except.bind] at hcalls
      | ok tr' =>
        simp only [Utrace.makeCalls, hopen, Except.bind] at hcalls
        obtain ⟨halone, hexiting, houtput⟩ := h.openPid hopen
        obtain ⟨hend, hexiting', houtput', hreg⟩ := ih halone hcalls
        exact ⟨hend, hexiting'.trans hexiting, houtput'.trans houtput, hreg⟩
    | regTid child =>
      cases hreg : Utrace.regTid table child with
      | error halt => simp [Utrace.makeCalls, hreg, Except.bind] at hcalls
      | ok r =>
        simp only [Utrace.makeCalls, hreg, Except.bind] at hcalls
        obtain ⟨hend, hexiting, houtput, hrest⟩ := ih h hcalls
        exact ⟨hend, hexiting, houtput, (ThreadTable.registers_regTid hreg).trans hrest⟩

/-- Without the process that was busy, all are as if alone. -/
theorem Alone.remove {addr : Nat} (h : tr.Alone env terms {addr}) :
    (tr.remove addr).Alone env terms ∅ := by
  constructor
  · intro p hp _
    have hne : p.addr ≠ addr := addr_ne_of_mem_removeProc tr.distinct hp
    exact h.listed p ((sublist_removeProc tr.procs addr).subset hp) hne
  · exact h.unwritten

/-- So they are with the busy process put back as if alone. -/
theorem Alone.update {addr : Nat} (h : tr.Alone env terms {addr}) {tracee : Tracee}
    {table : ThreadTable}
    (hnew : ProcNode.Alone env terms tr.exiting tr.output ⟨addr, tracee, table⟩) :
    (tr.update addr tracee table).Alone env terms ∅ := by
  constructor
  · intro p hp _
    obtain ⟨q, hq, rfl⟩ := List.mem_map.mp hp
    split
    · rename_i haddr
      rw [← haddr] at hnew
      exact hnew
    · rename_i haddr
      exact h.listed q hq haddr
  · exact h.unwritten

end Tracer

namespace Session

variable {env : Env} {terms : Terms} {σ σ' : Session}

/-- The events of each process are among those allowed to it and of no thread of another, and it
writes none of its own text. After its first event, they are of threads with a slot. -/
def Within (env : Env) (terms : Terms) (σ : Session) : Happening → Prop
  | .wait w _ => w.tid ≠ 0 ∧ ∀ p i, σ.tracer.lookup w = .ok (p, i) →
    (∀ addr, w.tid ∈ terms.own addr → addr = p.addr) ∧
      σ.tracer.classify env w p i ∈ terms.allowed p.addr ∧
      (ThreadTable.slotAt i = none → p.tracee.proc.breakpointsEnabled = -1)
  | .store addr mem => ∀ p ∈ σ.tracer.procs, p.addr = addr → ∀ a ∈ terms.text addr,
    mem a = p.tracee.mem a
  | _ => True

/-- The process of a thread that is found, with the slot the thread may just have been given. -/
theorem lookup_alone (h : σ.tracer.Alone env terms ∅) {w : Wait} {p : ProcNode} {i : Int}
    (hlookup : σ.tracer.lookup w = .ok (p, i)) :
    p.Alone env terms σ.tracer.exiting σ.tracer.output := by
  obtain ⟨⟨q, hq, haddr, htracee, hreg⟩, -⟩ := Tracer.lookup_registers hlookup
  have hbefore := (h.listed q hq (Set.notMem_empty _)).registers hreg
  rw [haddr, htracee] at hbefore
  exact hbefore

/-- What an event does to its own process. -/
theorem handled_alone (h : σ.tracer.Alone env terms ∅) {w : Wait} {survives : Bool}
    (hwithin : σ.Within env terms (.wait w survives)) {p : ProcNode} {i : Int} {f : Focus}
    (hlookup : σ.tracer.lookup w = .ok (p, i))
    (hhandle : handle env (σ.tracer.focus w p i) w.stop = .ok f) (hlisted : f.listed = true) :
    ProcNode.Alone env terms σ.tracer.exiting f.output
      ⟨p.addr, f.tracee, p.table.write i f.thr⟩ := by
  obtain ⟨htid, hfound⟩ := hwithin
  obtain ⟨-, hclass, hpast⟩ := hfound p i hlookup
  have hslot := (Tracer.lookup_registers hlookup).2
  have halone := lookup_alone h hlookup
  cases hi : ThreadTable.slotAt i with
  | none => exact halone.first (hpast hi) hi hclass hhandle
  | some k =>
    have htaken : (p.table.threads k).tid ≠ 0 := by rwa [hslot k hi]
    exact halone.event hi htaken hclass hhandle hlisted

/-- An event writes nothing for any thread but its own. -/
theorem handled_log (h : σ.tracer.Alone env terms ∅) {w : Wait} {survives : Bool}
    (hwithin : σ.Within env terms (.wait w survives)) {p : ProcNode} {i : Int} {f : Focus}
    (hlookup : σ.tracer.lookup w = .ok (p, i))
    (hhandle : handle env (σ.tracer.focus w p i) w.stop = .ok f) {tid : Pid} (htid : tid ≠ w.tid) :
    f.output.plainLog tid = σ.tracer.output.plainLog tid := by
  obtain ⟨-, -, hpast⟩ := hwithin.2 p i hlookup
  apply plainLog_of_log
  cases hi : ThreadTable.slotAt i with
  | none =>
    rw [handle_first (f := σ.tracer.focus w p i) (hpast hi)] at hhandle
    cases hhandle
    rfl
  | some k =>
    have hthr : (σ.tracer.focus w p i).thr = p.table.threads k := by
      simp [Tracer.focus, ThreadTable.slot, hi]
    have hpushed := (lookup_alone h hlookup).pushed k
    rw [← hthr] at hpushed
    have hne : (σ.tracer.focus w p i).thr.tid ≠ tid := by
      rw [hthr, (Tracer.lookup_registers hlookup).2 k hi]
      exact htid.symm
    exact (handle_effect hhandle).1.log_of_ne hpushed hne

/-- The other processes are as they were when an event was handled. -/
theorem handled_others (h : σ.tracer.Alone env terms ∅) {w : Wait} {survives : Bool}
    (hwithin : σ.Within env terms (.wait w survives)) {p : ProcNode} {i : Int} {f : Focus}
    (hlookup : σ.tracer.lookup w = .ok (p, i))
    (hhandle : handle env (σ.tracer.focus w p i) w.stop = .ok f) :
    Tracer.Alone env terms {p.addr} { σ.tracer with output := f.output } := by
  have howner := (hwithin.2 p i hlookup).1
  obtain ⟨⟨q, hq, haddr, -⟩, -⟩ := Tracer.lookup_registers hlookup
  have hfresh : p.addr < σ.tracer.fresh := haddr ▸ σ.tracer.below q hq
  constructor
  · intro r hr hne
    apply (h.listed r hr (Set.notMem_empty _)).of_logs
    intro tid htid
    apply handled_log h hwithin hlookup hhandle
    rintro rfl
    exact hne (howner r.addr htid)
  · intro addr haddr tid htid
    have hlog : f.output.plainLog tid = σ.tracer.output.plainLog tid := by
      apply handled_log h hwithin hlookup hhandle
      rintro rfl
      have hsame := howner addr htid
      have hle : σ.tracer.fresh ≤ addr := haddr
      omega
    exact hlog.trans (h.unwritten addr haddr tid htid)

/-- A turn of the main loop leaves every process as if alone. -/
theorem turn_alone (h : σ.tracer.Alone env terms ∅) {w : Wait} {survives : Bool}
    (hwithin : σ.Within env terms (.wait w survives))
    (hs : σ.turn env w survives = .ok σ') : σ'.tracer.Alone env terms ∅ := by
  obtain ⟨p, i, f, s, hlookup, hhandle, hcalls, rfl⟩ := turn_eq_ok hs
  obtain ⟨hcalled, hexiting, houtput, hreg⟩ :=
    (handled_others h hwithin hlookup hhandle).makeCalls hcalls
  split
  · rename_i hlisted
    have hnew := (handled_alone h hwithin hlookup hhandle hlisted).registers (hreg.write i f.thr)
    have hexiting' : s.1.exiting = σ.tracer.exiting := hexiting
    have houtput' : s.1.output = f.output := houtput
    rw [← hexiting', ← houtput'] at hnew
    exact hcalled.update hnew
  · exact hcalled.remove

/-- So does every other step. -/
theorem step_alone (h : σ.tracer.Alone env terms ∅) {happening : Happening}
    (hwithin : σ.Within env terms happening) (hs : σ.step env happening = some σ') :
    σ'.tracer.Alone env terms ∅ := by
  cases happening with
  | launch filename pid mem =>
    cases hs
    exact h.add filename pid mem (.refl _)
  | attach w pid =>
    obtain ⟨tr, htr, rfl⟩ := Option.map_eq_some_iff.mp hs
    exact (h.openPid (Sys.eq_ok_of_toOption htr)).1
  | wait w survives => exact turn_alone h hwithin (Sys.eq_ok_of_toOption hs)
  | interrupt =>
    cases hs
    exact ⟨fun p hp hbusy => (h.listed p hp hbusy).interrupt, h.unwritten⟩
  | store addr mem =>
    cases hs
    refine ⟨fun p hp _ => ?_, h.unwritten⟩
    obtain ⟨q, hq, rfl⟩ := List.mem_map.mp hp
    exact (h.listed q hq (Set.notMem_empty _)).store (hwithin q hq)

/-- At first there is no process that is not alone. -/
theorem alone_start : Session.start.tracer.Alone env terms ∅ := ⟨nofun, fun _ _ _ _ => rfl⟩

/-- In every run each process on the list is as if it were traced alone. -/
theorem run_alone {happenings : List Happening}
    (hr : Run (Session.step env) (Session.Within env terms) .start happenings σ) :
    σ.tracer.Alone env terms ∅ :=
  hr.invariant (P := fun σ => σ.tracer.Alone env terms ∅) alone_start
    fun _ _ _ h hwithin hs => step_alone h hwithin hs

end Session

/-! ## Two processes, in turns -/

/-- The events other than the exits of `fork`, `vfork` and `execve`. -/
def spared : Set Event := { event | ∀ n, event = .sysret n → forkP n = false ∧ execP n = false }

/-- The terms of a session without these exits. -/
def sparing (owner : Pid → Option Nat) : Terms where
  allowed _ := spared
  text _ := ∅
  owner := owner

/-- Whether a happening is within these terms, decided where the process writes nothing. -/
def Session.withinSparing (env : Env) (owner : Pid → Option Nat) (σ : Session) : Happening → Bool
  | .wait w _ => w.tid != 0 && match σ.tracer.lookup w with
    | .error _ => true
    | .ok (p, i) =>
      (owner w.tid).all (· == p.addr) &&
      (match σ.tracer.classify env w p i with
        | .sysret n => !forkP n && !execP n
        | _ => true) &&
      ((ThreadTable.slotAt i).isSome || p.tracee.proc.breakpointsEnabled == -1)
  | .store _ _ => false
  | _ => true

/-- The check on a sample allows a happening only within the terms. -/
theorem Session.within_of_withinSparing {env : Env} {owner : Pid → Option Nat} {σ : Session}
    {happening : Happening} (h : σ.withinSparing env owner happening = true) :
    σ.Within env (sparing owner) happening := by
  cases happening with
  | wait w survives =>
    simp only [withinSparing, Bool.and_eq_true, bne_iff_ne, ne_eq] at h
    obtain ⟨htid, hfound⟩ := h
    refine ⟨htid, fun p i hlookup => ?_⟩
    rw [hlookup] at hfound
    simp only [Bool.and_eq_true, Bool.or_eq_true, beq_iff_eq] at hfound
    obtain ⟨⟨howner, hclass⟩, hslot⟩ := hfound
    refine ⟨?_, ?_, ?_⟩
    · intro addr haddr
      have hsome : owner w.tid = some addr := haddr
      rw [hsome] at howner
      simpa using howner
    · intro n hn
      rw [hn] at hclass
      simpa using hclass
    · intro hnone
      rcases hslot with hsome | hbe
      · rw [hnone] at hsome
        cases hsome
      · exact hbe
  | store addr mem => cases h
  | _ => trivial

/-- Process 9 is launched and process 7 attached to. Each has its first event; then 7 enters `f`,
called from 0x3000, and 9 enters it, called from 0x5000. -/
def twoProcesses : List Happening :=
  [.launch "a.out" 9 nops, .attach (waitFor 7 (trapStop 0x3000)) 7,
    .wait { tid := 9, pid := 9, stop := trapStop 0x4000 } false,
    .wait (waitFor 7 (trapStop 0x3000)) false,
    .wait (waitFor 7 (trapStop 0x1000 0x3000)) false,
    .wait { tid := 9, pid := 9, stop := trapStop 0x1000 0x5000 } false]

/-- The record of process 9 is the first one opened, that of process 7 the second. -/
def owners (tid : Pid) : Option Nat := if tid = 9 then some 0 else if tid = 7 then some 1 else none

/-- Both processes are attached to, and the first one is in a call. -/
theorem exists_twoProcesses (owner : Pid → Option Nat) (howner : ∀ tid addr,
      owner tid = some addr → owners tid = some addr) :
    ∃ σ p q, Run (Session.step attachable) (Session.Within attachable (sparing owner)) .start
        twoProcesses σ ∧ σ.tracer.procs = [p, q] ∧ p.tracee.proc.pid = 7 ∧
      q.tracee.proc.pid = 9 ∧ p.tracee.enabledAt 0x3000 = 1 ∧ q.tracee.enabledAt 0x3000 = 0 := by
  have hobs : (runInputs (Session.step attachable) (Session.withinSparing attachable owners) .start
      twoProcesses).any (fun σ => σ.tracer.procs.map (fun p =>
        (p.tracee.proc.pid, p.tracee.enabledAt 0x3000)) == [(7, 1), (9, 0)]) = true := by
    decide +kernel
  have hwithin : ∀ σ happening, Session.withinSparing attachable owners σ happening = true →
      σ.Within attachable (sparing owner) happening := by
    intro σ happening h
    have howners := Session.within_of_withinSparing h
    cases happening with
    | wait w survives =>
      refine ⟨howners.1, fun p i hlookup => ?_⟩
      obtain ⟨hone, hrest⟩ := howners.2 p i hlookup
      exact ⟨fun addr haddr => hone addr (howner w.tid addr haddr), hrest⟩
    | _ => exact howners
  obtain ⟨σ, hr, hfound⟩ := exists_run_of_observe hwithin hobs
  obtain ⟨p, rest, hprocs, hp, hrest⟩ := List.map_eq_cons_iff.mp (beq_iff_eq.mp hfound)
  obtain ⟨q, rest', rfl, hq, hnil⟩ := List.map_eq_cons_iff.mp hrest
  rw [List.map_eq_nil_iff] at hnil
  subst hnil
  simp only [Prod.mk.injEq] at hp hq
  exact ⟨σ, p, q, hr, hprocs, hp.1, hq.1, hp.2, hq.2⟩

/-- Whatever happens in a session, what the tracer holds of a process on its list is what it would
hold had it traced that process alone: there is a run of the system of one process, from its
opening, whose state is the record of the process, slot by slot, with the same events allowed and
the same text kept. The trace says the same of its threads, but for where a result is joined. -/
theorem session_traced_alone (env : Env) (terms : Terms) {happenings : List Happening} {σ : Session}
    (hr : Run (Session.step env) (Session.Within env terms) .start happenings σ)
    {p : ProcNode} (hp : p ∈ σ.tracer.procs) {tid : Fin maxThreadsTraced → Pid}
    (hassigned : p.Assigned tid) :
    ∃ filename pid mem inputs s,
      Run (Sys.step env) (Sys.Within env (terms.allowed p.addr) (terms.text p.addr))
        (Sys.opened env filename pid mem tid) inputs s ∧
      p.Is σ.tracer.exiting σ.tracer.output (terms.own p.addr) tid s :=
  (Session.run_alone hr).listed p hp (Set.notMem_empty _) tid hassigned

/-- Process 9 is as if it were traced alone, while process 7 is in a call. -/
theorem session_traced_alone_two :
    ∃ σ q, Run (Session.step attachable) (Session.Within attachable (sparing owners)) .start
        twoProcesses σ ∧ q ∈ σ.tracer.procs ∧ q.tracee.proc.pid = 9 ∧
      ∃ filename pid mem inputs s, Run (Sys.step attachable) (Sys.Within attachable spared ∅)
        (Sys.opened attachable filename pid mem fun k => (q.table.threads k).tid) inputs s ∧
          q.Is σ.tracer.exiting σ.tracer.output ((sparing owners).own q.addr)
            (fun k => (q.table.threads k).tid) s := by
  obtain ⟨σ, p, q, hr, hprocs, -, hq, -⟩ := exists_twoProcesses owners fun _ _ h => h
  have hmem : q ∈ σ.tracer.procs := by
    rw [hprocs]
    exact List.mem_cons_of_mem p (List.mem_cons_self ..)
  exact ⟨σ, q, hr, hmem, hq, session_traced_alone _ _ hr hmem fun _ => Or.inr rfl⟩

/-! ## The counts of every process -/

/-- The symbols and the calls of all threads of the process that name an address. -/
def ProcNode.references (p : ProcNode) (a : Addr) : Int :=
  symbolRefs p.tracee.proc.listOfSymbols a +
    ∑ k, (frameRefs (p.table.threads k).callstack.elems a : Int)

/-- What is spared is no exit of `fork`, `vfork` or `execve`. -/
theorem Sys.Within.spared {ι : Type*} [DecidableEq ι] {env : Env} {text : Set Addr} {s : Sys ι}
    {input : Input ι} (h : s.Within env Utrace.spared text input) :
    s.forkOrExecExit env input = false := by
  cases input with
  | stop i stop =>
    unfold Sys.forkOrExecExit
    dsimp only
    cases hclass : s.classify env i stop with
    | sysret n =>
      obtain ⟨hfork, hexec⟩ := h n hclass
      simp [hfork, hexec]
    | _ => rfl
  | interrupt => rfl
  | store mem => rfl

/-- In a process as if alone, every reference is counted. -/
theorem ProcNode.Alone.counted {env : Env} {owner : Pid → Option Nat} {exiting : Bool}
    {output : Output} {p : ProcNode} (h : p.Alone env (sparing owner) exiting output) (a : Addr) :
    p.tracee.enabledAt a = p.references a := by
  obtain ⟨filename, pid, mem, inputs, s, hr, his⟩ :=
    h (fun k => (p.table.threads k).tid) fun _ => Or.inr rfl
  have hrefs := (hr.mono fun _ _ hwithin => hwithin.spared).counted.2.refs a
  have hframes : ∀ k, (s.threads k).callstack = (p.table.threads k).callstack := by
    intro k
    have hbare := congrArg Thread.callstack (his.threads k)
    exact hbare
  unfold Sys.references at hrefs
  simp only [hframes, his.tracee] at hrefs
  exact hrefs

namespace Session

variable {env : Env} {owner : Pid → Option Nat} {σ : Session}

/-- An event of a thread in its slot, and the first event of a process, are handled without an
assertion that fails, a null table or a null entry. -/
theorem handle_alone {p : ProcNode}
    (h : p.Alone env (sparing owner) σ.tracer.exiting σ.tracer.output) {w : Wait} {i : Int}
    {halt : Halt}
    (hpast : ThreadTable.slotAt i = none → p.tracee.proc.breakpointsEnabled = -1)
    (hhandle : handle env (σ.tracer.focus w p i) w.stop = .error halt) :
    halt = .wildPointer ∨ halt = .exit 1 := by
  cases hi : ThreadTable.slotAt i with
  | none =>
    have hbe : (σ.tracer.focus w p i).tracee.proc.breakpointsEnabled = -1 := hpast hi
    unfold handle at hhandle
    rw [waitForSomething_first hbe] at hhandle
    cases hhandle
  | some k =>
    have hcovered : (σ.tracer.focus w p i).Covered := by
      apply Focus.covered_of_le
      intro a
      have hone := Finset.single_le_sum
        (f := fun k => (frameRefs (p.table.threads k).callstack.elems a : Int))
        (fun _ _ => Int.natCast_nonneg _) (Finset.mem_univ k)
      have hcount := h.counted a
      unfold ProcNode.references at hcount
      simp only [Tracer.focus, ThreadTable.slot, hi, Option.elim_some]
      omega
    rcases handle_exists env w.stop hcovered with ⟨f, hok⟩ | hwild | hexit
    · rw [hok] at hhandle
      cases hhandle
    · rw [hwild] at hhandle
      cases hhandle
      exact Or.inl rfl
    · rw [hexit] at hhandle
      cases hhandle
      exact Or.inr rfl

/-- `reg_tid` fails by `exit(1)` only. -/
theorem regTid_error {table : ThreadTable} {tid : Pid} {halt : Halt}
    (h : regTid table tid = .error halt) : halt = .exit 1 := by
  rcases regTid_cases table tid with ⟨i, hok, _⟩ | ⟨table', i, k, hok, _⟩ | ⟨herr, _⟩
  · rw [hok] at h
    cases h
  · rw [hok] at h
    cases h
  · rw [herr] at h
    cases h
    rfl

/-- So do the calls after an event. -/
theorem makeCalls_error {w : Wait} {calls : List Call} {s : Tracer × ThreadTable} {halt : Halt}
    (h : makeCalls env w calls s = .error halt) : halt = .exit 1 := by
  induction calls generalizing s with
  | nil => cases h
  | cons call calls ih =>
    cases call with
    | openPid child =>
      rcases openPid_cases env s.1 w child with ⟨_, _, _, _, _, hok⟩ | ⟨_, hok⟩
      · simp only [makeCalls, hok, Except.bind] at h
        exact ih h
      · simp only [makeCalls, hok, Except.bind] at h
        exact ih h
    | regTid child =>
      cases hreg : regTid s.2 child with
      | error e =>
        simp only [makeCalls, hreg, Except.bind, Except.error.injEq] at h
        subst h
        exact regTid_error hreg
      | ok r =>
        simp only [makeCalls, hreg, Except.bind] at h
        exact ih h

/-- Where no thread is found, utrace exits. -/
theorem lookup_error {tr : Tracer} {w : Wait} {halt : Halt} (h : tr.lookup w = .error halt) :
    halt = .exit 0 ∨ halt = .exit 1 := by
  unfold Tracer.lookup at h
  split at h
  · cases h
    exact Or.inl rfl
  cases hfound : pid2proc tr.procs w.pid with
  | none =>
    rw [hfound] at h
    cases h
    exact Or.inr rfl
  | some p =>
    cases hslot : tid2thread p.table w.beyond w.tid with
    | some i => simp [hfound, hslot] at h
    | none =>
      cases hreg : regTid p.table w.tid with
      | ok r => simp [hfound, hslot, hreg, Except.map] at h
      | error e =>
        simp only [hfound, hslot, hreg, Except.map, Except.error.injEq] at h
        subst h
        exact Or.inr (regTid_error hreg)

end Session

/-- Without exits of `fork`, `vfork` and `execve`, whatever else happens in a session, the count of
every entry of every process is the number of its own symbols and calls that name the address; and
a turn of the main loop fails in no assertion, on no null table and on no null entry. -/
theorem session_counted (env : Env) {happenings : List Happening} {σ : Session}
    (hr : Run (Session.step env) (Session.Within env (sparing fun _ => none)) .start
      happenings σ) :
    (∀ p ∈ σ.tracer.procs, ∀ a, p.tracee.enabledAt a = p.references a) ∧
      ∀ w survives, (∀ p i, σ.tracer.lookup w = .ok (p, i) → ThreadTable.slotAt i = none →
          p.tracee.proc.breakpointsEnabled = -1) →
        ∀ halt, σ.turn env w survives = .error halt →
          halt = .wildPointer ∨ halt = .exit 0 ∨ halt = .exit 1 := by
  have halone := Session.run_alone hr
  refine ⟨fun p hp => (halone.listed p hp (Set.notMem_empty _)).counted, ?_⟩
  intro w survives hpast halt hturn
  unfold Session.turn at hturn
  cases hlookup : σ.tracer.lookup w with
  | error e =>
    simp only [hlookup, Except.bind, Except.error.injEq] at hturn
    subst hturn
    exact Or.inr (Session.lookup_error hlookup)
  | ok found =>
    obtain ⟨p, i⟩ := found
    have hp := Session.lookup_alone halone hlookup
    cases hhandle : handle env (σ.tracer.focus w p i) w.stop with
    | error e =>
      simp only [hlookup, hhandle, Except.bind, Except.error.injEq] at hturn
      subst hturn
      rcases Session.handle_alone hp (hpast p i hlookup) hhandle with hwild | hexit
      · exact Or.inl hwild
      · exact Or.inr (Or.inr hexit)
    | ok f =>
      cases hcalls : makeCalls env w f.calls ({ σ.tracer with output := f.output }, p.table) with
      | error e =>
        simp only [hlookup, hhandle, hcalls, Except.bind, Except.map, Except.error.injEq] at hturn
        subst hturn
        exact Or.inr (Or.inr (Session.makeCalls_error hcalls))
      | ok s => simp [hlookup, hhandle, hcalls, Except.bind, Except.map] at hturn

/-- The call of process 7 is counted in its own table, and nothing in the table of process 9. -/
theorem session_counted_two :
    ∃ σ p q, Run (Session.step attachable) (Session.Within attachable (sparing fun _ => none))
        .start twoProcesses σ ∧ σ.tracer.procs = [p, q] ∧
      p.references 0x3000 = 1 ∧ q.references 0x3000 = 0 := by
  obtain ⟨σ, p, q, hr, hprocs, -, -, hone, hzero⟩ := exists_twoProcesses (fun _ => none) nofun
  have hcounted := (session_counted attachable hr).1
  rw [hprocs] at hcounted
  refine ⟨σ, p, q, hr, hprocs, ?_, ?_⟩
  · rw [← hcounted p (List.mem_cons_self ..), hone]
  · rw [← hcounted q (List.mem_cons_of_mem p (List.mem_cons_self ..)), hzero]

end Utrace
