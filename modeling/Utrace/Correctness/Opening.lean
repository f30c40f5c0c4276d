import Utrace.Core.Run
import Utrace.Native.Session

/-!
# Attaching to a process

`open_pid` attaches first and asks for the name of the program then. Where there is none it
returns and leaves the process attached, but in no list.
-/

namespace Utrace

/-- The processes of utrace, and the pids attached to it. -/
structure Attachments where
  tracer : Tracer
  attached : List Pid

/-- A call of `open_pid`, with what the kernel answers. -/
structure OpenCall where
  pid : Pid
  /-- Whether `trace_pid` attaches, and the memory of the process. -/
  wait : Wait
  /-- What `pid2name` returns. -/
  name : Option String

/-- `open_pid`: the attachment is made by `trace_pid` and stays. -/
def Attachments.openPid (env : Env) (s : Attachments) (call : OpenCall) :
    Except Halt Attachments :=
  (Utrace.openPid { env with pid2name := fun _ => call.name } s.tracer call.wait call.pid).map
    fun tracer =>
      { tracer := tracer
        attached := if call.wait.attaches then call.pid :: s.attached else s.attached }

/-- A record just added is the first one looked at. -/
theorem pid2proc_add (tr : Tracer) (tracee : Tracee) (table : ThreadTable) (pid : Pid) :
    pid2proc (tr.add tracee table).procs pid =
      if tracee.proc.pid = pid then some ⟨tr.fresh, tracee, table⟩ else pid2proc tr.procs pid := by
  unfold pid2proc Tracer.add
  rw [List.find?_cons]
  by_cases hpid : tracee.proc.pid = pid
  · simp [hpid]
  · simp [hpid]

/-- The opened process keeps its pid. -/
theorem pid_openTracee (env : Env) (filename : String) (pid : Pid) (mem : Addr → Byte) :
    (openTracee env filename pid mem).proc.pid = pid := rfl

namespace Attachments

variable {env : Env} {s s' : Attachments} {call : OpenCall} {calls : List OpenCall} {pid : Pid}

/-- A process of the list has the pid. -/
def Listed (s : Attachments) (pid : Pid) : Prop := ∃ p, pid2proc s.tracer.procs pid = some p

/-- That process has a slot for the thread of this number. -/
def Registered (s : Attachments) (pid : Pid) : Prop :=
  ∃ p, pid2proc s.tracer.procs pid = some p ∧ ∃ k, (p.table.threads k).tid = pid

/-- The pids attached are those of the processes listed. -/
def Exact (s : Attachments) : Prop := ∀ pid, pid ∈ s.attached ↔ s.Listed pid

/-- And each process listed has its slot. -/
structure Consistent (s : Attachments) : Prop where
  exact : s.Exact
  registered : ∀ pid, s.Listed pid → s.Registered pid

/-- The process is attached, listed and registered, or nothing happened. -/
def Atomic (s : Attachments) (call : OpenCall) (s' : Attachments) : Prop :=
  call.pid ∈ s'.attached ∧ s'.Registered call.pid ∨
    call.pid ∉ s'.attached ∧ ¬s'.Listed call.pid ∧ s' = s

/-- A process that is attached anew has a name. -/
def Named (s : Attachments) (call : OpenCall) : Prop :=
  call.wait.attaches = true → call.name = none → s.Listed call.pid

/-- One call. -/
def step (env : Env) (s : Attachments) (call : OpenCall) : Option Attachments :=
  (s.openPid env call).toOption

/-- A call opens a process that is listed and registered then, or changes the list of
attachments alone. -/
theorem step_cases (env : Env) (s : Attachments) (call : OpenCall) :
    (∃ s', s.step env call = some s' ∧ call.name ≠ none ∧
      s'.attached = call.pid :: s.attached ∧ s'.Registered call.pid ∧
      ∀ pid, pid ≠ call.pid → pid2proc s'.tracer.procs pid = pid2proc s.tracer.procs pid) ∨
    (call.wait.attaches = true → call.name = none) ∧ s.step env call = some { s with
      attached := if call.wait.attaches then call.pid :: s.attached else s.attached } := by
  unfold step Attachments.openPid
  rcases openPid_cases { env with pid2name := fun _ => call.name } s.tracer call.wait call.pid with
    ⟨filename, table, hattaches, hname, hslot, hopen⟩ | ⟨hname, hopen⟩
  · have hsome : call.name = some filename := hname
    rw [hopen]
    refine Or.inl ⟨_, rfl, by simp [hsome], by simp [hattaches], ?_, fun pid hpid => ?_⟩
    · dsimp only [Registered]
      rw [pid2proc_add, pid_openTracee, if_pos rfl]
      exact ⟨_, rfl, hslot⟩
    · dsimp only
      rw [pid2proc_add, pid_openTracee, if_neg (Ne.symm hpid)]
  · rw [hopen]
    exact Or.inr ⟨hname, rfl⟩

/-- From a consistent state a call is atomic, and keeps the attachments exact, exactly when a
process attached anew has a name. -/
theorem Consistent.call_iff (h : s.Consistent) (hstep : s.step env call = some s') :
    (Atomic s call s' ∧ s'.Exact ↔ s.Named call) ∧ (s.Named call → s'.Consistent) := by
  rcases step_cases env s call with ⟨u, hu, hname, hattached, hreg, hothers⟩ | ⟨hname, hu⟩
  · rw [hu] at hstep
    cases hstep
    have hnamed : s.Named call := fun _ hnone => absurd hnone hname
    have hlisted : s'.Listed call.pid := hreg.imp fun p hp => hp.1
    have hexact : s'.Exact := by
      intro pid
      rw [hattached, List.mem_cons]
      by_cases hpid : pid = call.pid
      · rw [hpid]
        exact iff_of_true (Or.inl rfl) hlisted
      · rw [or_iff_right hpid, h.exact pid, Listed, Listed, hothers pid hpid]
    refine ⟨iff_of_true ⟨Or.inl ⟨by rw [hattached]; exact List.mem_cons_self .., hreg⟩, hexact⟩
      hnamed, fun _ => ⟨hexact, fun pid hpid => ?_⟩⟩
    by_cases heq : pid = call.pid
    · rw [heq]
      exact hreg
    · rw [Listed, hothers pid heq] at hpid
      rw [Registered, hothers pid heq]
      exact h.registered pid hpid
  · rw [hu] at hstep
    cases hstep
    by_cases hattaches : call.wait.attaches = true
    · simp only [if_pos hattaches]
      have hnone := hname hattaches
      by_cases hlisted : s.Listed call.pid
      · have hexact : ∀ pid, pid ∈ call.pid :: s.attached ↔ s.Listed pid := by
          intro pid
          rw [List.mem_cons, h.exact pid, or_iff_right_iff_imp]
          rintro rfl
          exact hlisted
        refine ⟨iff_of_true ⟨Or.inl ⟨List.mem_cons_self .., h.registered _ hlisted⟩, hexact⟩
          fun _ _ => hlisted, fun _ => ⟨hexact, h.registered⟩⟩
      · refine ⟨iff_of_false (fun hgood => ?_) fun hnamed => hlisted (hnamed hattaches hnone),
          fun hnamed => absurd (hnamed hattaches hnone) hlisted⟩
        exact hlisted ((hgood.2 call.pid).mp (List.mem_cons_self ..))
    · simp only [if_neg hattaches]
      have hnamed : s.Named call := fun hyes => absurd hyes hattaches
      refine ⟨iff_of_true ⟨?_, h.exact⟩ hnamed, fun _ => h⟩
      by_cases hlisted : s.Listed call.pid
      · exact Or.inl ⟨(h.exact _).mpr hlisted, h.registered _ hlisted⟩
      · exact Or.inr ⟨fun hmem => hlisted ((h.exact _).mp hmem), hlisted, rfl⟩

/-- For every consistent start and every sequence of calls with any answers: each call is atomic
and keeps the attached pids those of the listed processes exactly when every call that
attaches to a process not listed yet gets a name for it. -/
theorem openings_atomic_iff (h : s.Consistent) :
    Run (step env) (fun t call => ∀ u, t.step env call = some u → Atomic t call u ∧ u.Exact)
        s calls s' ↔
      Run (step env) Named s calls s' := by
  constructor
  · intro hr
    refine hr.strengthen (P := Consistent) h ?_ ?_
    · intro t call u ht hgood hstep
      exact (ht.call_iff hstep).2 ((ht.call_iff hstep).1.mp (hgood u hstep))
    · intro t call u ht hgood hstep
      exact (ht.call_iff hstep).1.mp (hgood u hstep)
  · intro hr
    refine hr.strengthen (P := Consistent) h ?_ ?_
    · intro t call u ht hnamed hstep
      exact (ht.call_iff hstep).2 hnamed
    · intro t call u ht hnamed hstep v hv
      exact (ht.call_iff hv).1.mpr hnamed

/-- Nothing is traced. -/
def start : Attachments where
  tracer := Session.start.tracer
  attached := []

/-- The starting state is consistent. -/
theorem consistent_start : start.Consistent := by
  have hnone : ∀ pid, ¬start.Listed pid := by
    rintro pid ⟨p, hp⟩
    cases hp
  refine ⟨fun pid => iff_of_false List.not_mem_nil (hnone pid), fun pid hpid => ?_⟩
  exact absurd hpid (hnone pid)

/-- A call that attaches to process 7. -/
def attachTo7 (name : Option String) : OpenCall where
  pid := 7
  wait := { tid := 7, pid := 7, stop := { status := .stopped sigstop } }
  name := name

/-- A process with a name. -/
theorem openings_atomic_iff_named :
    ∃ s', Run (step {}) (fun t call => ∀ u, t.step {} call = some u → Atomic t call u ∧ u.Exact)
      start [attachTo7 "/proc/7/exe"] s' := by
  have hnamed : start.Named (attachTo7 "/proc/7/exe") := by
    rintro _ ⟨⟩
  rcases step_cases {} start (attachTo7 "/proc/7/exe") with ⟨s', hstep, _⟩ | ⟨hname, _⟩
  · exact ⟨s', (openings_atomic_iff consistent_start).mpr (Run.single hnamed hstep)⟩
  · cases hname rfl

/-- A process without one stays attached, and in no list. -/
theorem nameless_stays_attached :
    ¬∀ (env : Env) (s : Attachments) (call : OpenCall) (s' : Attachments), s.Consistent →
      s.step env call = some s' → Atomic s call s' ∧ s'.Exact := by
  intro hclaim
  rcases step_cases {} start (attachTo7 none) with ⟨_, _, hname, _⟩ | ⟨_, hstep⟩
  · exact hname rfl
  · have hgood := hclaim {} start _ _ consistent_start hstep
    obtain ⟨p, hp⟩ := (consistent_start.call_iff hstep).1.mp hgood rfl rfl
    cases hp

end Attachments

end Utrace
