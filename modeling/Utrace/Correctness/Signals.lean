import Utrace.Core.Run
import Utrace.Interpretation.Effect
import Utrace.Native.System

/-!
# Signals of an attached process

The kernel reports the stop of the attachment and the other signals of the process in any
order. The first event utrace sees is taken for the stop of the attachment, whatever it is:
it is resumed without a signal, and every later one with its own.
-/

namespace Utrace

/-- A process that was attached to, and whether the stop of the attachment is still to come. -/
structure Attaching (ι : Type*) where
  sys : Sys ι
  stopDue : Bool := true

variable {ι : Type*} [DecidableEq ι]

/-- A stop in which a signal is to be delivered. -/
def Stop.Delivers (stop : Stop) (signum : Int) : Prop :=
  stop.status = .stopped signum ∧ signum ≠ sigtrap

namespace Attaching

variable {env : Env} {main i : ι} {s : Attaching ι} {stop : Stop} {signum : Int}

/-- One step. -/
def step (env : Env) (s : Attaching ι) (input : Input ι) : Option (Attaching ι) :=
  (s.sys.step env input).map fun sys =>
    { sys := sys
      stopDue := match input with
        | .stop _ stop => s.stopDue && stop.status ≠ .stopped sigstop
        | _ => s.stopDue }

/-- The signal a stop has to be resumed with: its own, but none for the stop of the
attachment. -/
def resumeWith (signum : Int) : Int := if signum = sigstop then 0 else signum

/-- What the kernel reports before utrace is asked to exit: the only stop by `SIGSTOP` is that
of the attachment, once, of the thread attached to. -/
def Reports (main : ι) (s : Attaching ι) : Input ι → Prop
  | .stop i stop => s.sys.exiting = false ∧
    ∀ signum, stop.Delivers signum → 0 < signum ∧ (signum = sigstop → s.stopDue = true ∧ i = main)
  | .interrupt => False
  | .store _ => True

/-- The thread is resumed as it should be. -/
def Resumes (env : Env) (s : Attaching ι) : Input ι → Prop
  | .stop i stop => ∀ signum, stop.Delivers signum → ∃ f, s.sys.event env i stop = .ok f ∧
    f.requests = [((s.sys.threads i).tid, .syscall (resumeWith signum), stop.eip)]
  | _ => True

/-- The stop of the attachment comes before the breakpoints are planted, and every other signal
after that. -/
def InOrder (s : Attaching ι) : Input ι → Prop
  | .stop _ stop => ∀ signum, stop.Delivers signum →
    (signum = sigstop ↔ s.sys.tracee.proc.breakpointsEnabled = -1)
  | _ => True

omit [DecidableEq ι] in
/-- What utrace does about a signal. -/
theorem event_of_delivers (env : Env) (i : ι) (hexit : s.sys.exiting = false)
    (hstop : stop.Delivers signum) :
    ∃ f, s.sys.event env i stop = .ok f ∧ f.requests = [((s.sys.threads i).tid,
      .syscall (if s.sys.tracee.proc.breakpointsEnabled = -1 then 0 else signum), stop.eip)] := by
  obtain ⟨hstatus, htrap⟩ := hstop
  unfold Sys.event
  by_cases hbe : s.sys.tracee.proc.breakpointsEnabled = -1
  · have hfirst : (s.sys.focus i stop).tracee.proc.breakpointsEnabled = -1 := hbe
    rw [handle, waitForSomething_first hfirst, if_pos hbe]
    exact ⟨_, rfl, rfl⟩
  · obtain ⟨ip, hhandle⟩ := handle_eq env stop (f := s.sys.focus i stop) hbe
    have hclass : (s.sys.focus i stop).classified stop = .signal signum := by
      simp [Focus.classified, syscallP, hstatus, htrap]
    have hgo : ¬(((s.sys.focus i stop).withIp ip).exiting = true ∧ signum = sigstop) := by
      rintro ⟨hexiting, _⟩
      exact absurd (hexiting.symm.trans hexit) (by decide)
    rw [hhandle, hclass, if_neg hbe, processEvent, processSignal, if_neg hgo]
    exact ⟨_, rfl, rfl⟩

omit [DecidableEq ι] in
/-- A stop is resumed as it should be exactly when it comes in its order. -/
theorem resumes_iff_inOrder {input : Input ι} (hreport : s.Reports main input) :
    s.Resumes env input ↔ s.InOrder input := by
  cases input with
  | stop i stop =>
    refine forall_congr' fun signum => forall_congr' fun hstop => ?_
    obtain ⟨hpos, _⟩ := hreport.2 signum hstop
    obtain ⟨f, hf, hrequests⟩ := event_of_delivers env i hreport.1 hstop
    have hresumes : (∃ f', s.sys.event env i stop = .ok f' ∧
        f'.requests = [((s.sys.threads i).tid, .syscall (resumeWith signum), stop.eip)]) ↔
        (if s.sys.tracee.proc.breakpointsEnabled = -1 then 0 else signum) = resumeWith signum := by
      rw [hf]
      simp [hrequests]
    rw [hresumes, resumeWith]
    have hstopPos : (0 : Int) < sigstop := by decide
    by_cases hbe : s.sys.tracee.proc.breakpointsEnabled = -1
    · rw [if_pos hbe]
      by_cases hattach : signum = sigstop
      · rw [if_pos hattach]
        exact iff_of_true rfl ⟨fun _ => hbe, fun _ => hattach⟩
      · rw [if_neg hattach]
        exact iff_of_false (by omega) fun h => hattach (h.mpr hbe)
    · rw [if_neg hbe]
      by_cases hattach : signum = sigstop
      · rw [if_pos hattach]
        exact iff_of_false (by omega) fun h => hbe (h.mp hattach)
      · rw [if_neg hattach]
        exact iff_of_true rfl ⟨fun h => absurd h hattach, fun h => absurd h hbe⟩
  | interrupt => exact hreport.elim
  | store mem => exact Iff.rfl

/-- For every run of a process attached to, before utrace is asked to exit: each signal is
resumed with its own number, and the stop of the attachment with zero, exactly when that stop
finds the breakpoints not planted yet and every other signal finds them planted. -/
theorem signals_resumed_iff (env : Env) (filename : String) (pid : Pid) (mem : Addr → Byte)
    (tid : ι → Pid) (main : ι) (inputs : List (Input ι)) (s : Attaching ι) :
    Run (step env) (fun t input => t.Reports main input ∧ t.Resumes env input)
        { sys := Sys.opened env filename pid mem tid } inputs s ↔
      Run (step env) (fun t input => t.Reports main input ∧ t.InOrder input)
        { sys := Sys.opened env filename pid mem tid } inputs s := by
  constructor
  · intro hr
    exact hr.mono fun t input h => ⟨h.1, (resumes_iff_inOrder h.1).mp h.2⟩
  · intro hr
    exact hr.mono fun t input h => ⟨h.1, (resumes_iff_inOrder h.1).mpr h.2⟩

/-- The first thing reported is `SIGUSR1`. -/
theorem first_signal_lost :
    ¬∀ (env : Env) (filename : String) (pid : Pid) (mem : Addr → Byte) (tid : Unit → Pid)
      (inputs : List (Input Unit)) (s : Attaching Unit),
      Run (step env) (Reports ()) { sys := Sys.opened env filename pid mem tid } inputs s →
        ∀ input, s.Reports () input → s.Resumes env input := by
  intro hclaim
  have hreport : Reports () { sys := Sys.opened twoFunctions "a.out" 7 nops fun _ => 7 }
      (.stop () { status := .stopped 10 }) := by
    refine ⟨rfl, ?_⟩
    rintro signum ⟨hstatus, _⟩
    obtain rfl := WaitStatus.stopped.inj hstatus
    exact ⟨by decide, fun h => absurd h (by decide)⟩
  have horder := (resumes_iff_inOrder hreport).mp
    (hclaim twoFunctions "a.out" 7 nops (fun _ => 7) [] _ .nil _ hreport)
  have hsame := (horder 10 ⟨rfl, by decide⟩).mpr (by decide)
  exact absurd hsame (by decide)

end Attaching

end Utrace
