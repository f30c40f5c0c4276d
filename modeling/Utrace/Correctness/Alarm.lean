import Utrace.Native.System
import Utrace.Native.Tracer
import Mathlib.Data.List.Chain

/-!
# Which processes are stopped

The cursor of the loop moves on inside the search for a process in `opt_p`, so the process
behind one that is found is stopped unseen.
-/

namespace Utrace

/-- `pid`. -/
def ProcNode.pid (p : ProcNode) : Pid := p.tracee.proc.pid

/-- The processes outside `opt_p` are stopped, in the order of the list, and no other. -/
def StopsOthers (optp : List Pid) (procs : List ProcNode) (kills : List Pid) : Prop :=
  kills = (procs.map ProcNode.pid).filter (· ∉ optp)

/-- No two neighbours of the list are both in `opt_p`. -/
def Scattered (optp : List Pid) (procs : List ProcNode) : Prop :=
  procs.IsChain fun p q => ¬(p.pid ∈ optp ∧ q.pid ∈ optp)

variable {optp : List Pid}

/-- An unlisted process in front leaves the scattering as it is. -/
theorem scattered_cons_of_notMem {p : ProcNode} (h : p.pid ∉ optp) (procs : List ProcNode) :
    Scattered optp (p :: procs) ↔ Scattered optp procs := by
  unfold Scattered
  rw [List.isChain_cons]
  exact and_iff_right fun q _ hboth => h hboth.1

/-- An unlisted process in front is sent the signal. -/
theorem signalAlarm_of_notMem {p : ProcNode} (h : p.pid ∉ optp) (procs : List ProcNode) :
    signalAlarm optp (p :: procs) = p.pid :: signalAlarm optp procs := by
  cases procs with
  | nil => exact if_neg h
  | cons q procs => exact if_neg h

/-- An unlisted process in front is kept. -/
theorem filter_of_notMem {p : ProcNode} (h : p.pid ∉ optp) (procs : List ProcNode) :
    ((p :: procs).map ProcNode.pid).filter (· ∉ optp) =
      p.pid :: (procs.map ProcNode.pid).filter (· ∉ optp) := by
  rw [List.map_cons, List.filter_cons, if_pos (decide_eq_true h)]

/-- For every list of processes and every list of pids: the alarm stops exactly the processes
outside `opt_p`, each as often as it is listed, when no two neighbours are both in `opt_p`,
and otherwise does not. -/
theorem alarm_stops_others_iff (optp : List Pid) (procs : List ProcNode) :
    StopsOthers optp procs (signalAlarm optp procs) ↔ Scattered optp procs := by
  unfold StopsOthers
  induction procs using signalAlarm.induct optp with
  | case1 => exact iff_of_true rfl .nil
  | case2 p hp =>
    refine iff_of_true ?_ (.singleton p)
    rw [signalAlarm, if_pos hp, List.map_singleton, List.filter_singleton]
    simp [ProcNode.pid, hp]
  | case3 p hp q procs ih =>
    have halarm : signalAlarm optp (p :: q :: procs) = q.pid :: signalAlarm optp procs := by
      rw [signalAlarm, if_pos hp]
      rfl
    have hfilter : ((p :: q :: procs).map ProcNode.pid).filter (· ∉ optp) =
        ((q :: procs).map ProcNode.pid).filter (· ∉ optp) := by
      simp [ProcNode.pid, hp]
    rw [halarm, hfilter]
    by_cases hq : q.pid ∈ optp
    · -- The second of two neighbours is stopped although `opt_p` holds it.
      refine iff_of_false (fun heq => ?_) fun h => (List.isChain_cons_cons.mp h).1 ⟨hp, hq⟩
      have hmem : q.pid ∈ ((q :: procs).map ProcNode.pid).filter (· ∉ optp) :=
        heq ▸ List.mem_cons_self
      exact of_decide_eq_true (List.mem_filter.mp hmem).2 hq
    · have hchain : Scattered optp (p :: q :: procs) ↔ Scattered optp procs := by
        rw [← scattered_cons_of_notMem hq procs]
        unfold Scattered
        rw [List.isChain_cons_cons]
        exact and_iff_right fun hboth => hq hboth.2
      rw [hchain, ← ih, filter_of_notMem hq]
      exact List.cons_inj_right q.pid
  | case4 p procs hp ih =>
    have hp' : p.pid ∉ optp := hp
    rw [scattered_cons_of_notMem hp', ← ih, signalAlarm_of_notMem hp', filter_of_notMem hp']
    exact List.cons_inj_right p.pid

/-- A process with a pid. -/
def procOf (pid : Pid) : ProcNode where
  addr := pid.toNat
  tracee := openTracee twoFunctions "a.out" pid nops
  table := .zeroed

/-- Attached to 7 and 8, which follow each other in the list: 8 is stopped twice. -/
theorem neighbour_stopped :
    ¬∀ (optp : List Pid) (procs : List ProcNode), (procs.map ProcNode.pid).Nodup →
      StopsOthers optp procs (signalAlarm optp procs) := by
  intro hclaim
  have hstops := hclaim [8, 7] [procOf 7, procOf 8] (by decide)
  have hkills : signalAlarm [8, 7] [procOf 7, procOf 8] = [8] := by decide
  rw [hkills] at hstops
  exact absurd hstops (by unfold StopsOthers; decide)

end Utrace
