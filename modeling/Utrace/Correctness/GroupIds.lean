import Utrace.Interpretation.TgidCache

/-!
# The cached group id is the one read

Whatever was looked up before and however often the cache was emptied, a lookup returns the
group id the kernel would give, and the cache keeps its form.
-/

namespace Utrace

/-- What happens to the cache. -/
inductive TgidCall where
  /-- `pid2tgid(pid)`. -/
  | lookup (pid : Pid) (answer : ProcAnswer)
  /-- `pid2tgid_cache_flush()`. -/
  | flush

/-- The state after one call. -/
def Tgids.call (s : Tgids) : TgidCall → Tgids
  | .lookup pid answer => (pid2tgid s pid answer).2
  | .flush => { s with cache := .zeroed }

/-- The state after calls, starting with the zeroed cache. -/
def Tgids.run (calls : List TgidCall) : Tgids := calls.foldl Tgids.call {}

/-- Lookups are about live threads. -/
def TgidCall.Live (f : Pid → Pid) : TgidCall → Prop
  | .lookup pid answer => AnswersFor f pid answer
  | .flush => True

variable {f : Pid → Pid} {calls : List TgidCall}

/-- The cache is filled from the front, with the group ids of the kernel. -/
def Tgids.Good (f : Pid → Pid) (s : Tgids) : Prop :=
  (∃ used, s.cache.Holds used) ∧ s.cache.Knows f

/-- The empty cache is good. -/
theorem good_start (f : Pid → Pid) : Tgids.Good f {} :=
  ⟨⟨[], Pid2tgidCache.holds_zeroed⟩, Pid2tgidCache.knows_zeroed f⟩

/-- Each call on a live process keeps the cache good. -/
theorem Tgids.Good.call {s : Tgids} (h : s.Good f) {call : TgidCall} (hlive : call.Live f) :
    (s.call call).Good f := by
  obtain ⟨⟨used, hholds⟩, hknows⟩ := h
  cases call with
  | lookup pid answer =>
    obtain ⟨_, hknows', hhit | hmiss⟩ := pid2tgid_cases hholds hknows hlive
    · exact ⟨⟨used, hhit.2.1⟩, hknows'⟩
    · exact ⟨hmiss.2.1, hknows'⟩
  | flush => exact good_start f

/-- The cache is good after any calls on live processes. -/
theorem good_run (hlive : ∀ call ∈ calls, call.Live f) : (Tgids.run calls).Good f := by
  induction calls using List.reverseRecOn with
  | nil => exact good_start f
  | append_singleton calls call ih =>
    rw [Tgids.run, List.foldl_append]
    exact (ih fun call hcall => hlive call (by simp [hcall])).call (hlive call (by simp))

/-- After any calls for live threads and any flushes, the next lookup of a live thread returns
its group id, the one read without the cache; and the pids in the cache differ and fill a
prefix of it. -/
theorem cached_tgid_eq (hlive : ∀ call ∈ calls, call.Live f) :
    (∀ pid answer, AnswersFor f pid answer →
      (pid2tgid (Tgids.run calls) pid answer).1 = f pid ∧
        (pid2tgid (Tgids.run calls) pid answer).1 = (procTgid answer).1) ∧
      ∃ used, (Tgids.run calls).cache.Holds used := by
  obtain ⟨⟨used, hholds⟩, hknows⟩ := good_run hlive
  refine ⟨fun pid answer hanswer => ?_, used, hholds⟩
  have hvalue := (pid2tgid_cases hholds hknows hanswer).1
  exact ⟨hvalue, hvalue.trans hanswer.read.symm⟩

/-- A lookup, a flush, and two more lookups of a thread. -/
theorem cached_tgid_eq_43 :
    (pid2tgid (Tgids.run [.lookup 43 statusOf42, .flush, .lookup 43 statusOf42]) 43
      statusOf42).1 = 42 := by
  have hanswer : AnswersFor (fun _ => 42) 43 statusOf42 := answersFor_statusOf42 43
  have hlive : ∀ call ∈ [TgidCall.lookup 43 statusOf42, .flush, .lookup 43 statusOf42],
      call.Live fun _ => 42 := by
    intro call hcall
    simp only [List.mem_cons, List.not_mem_nil, or_false] at hcall
    rcases hcall with rfl | rfl | rfl
    · exact hanswer
    · trivial
    · exact hanswer
  exact ((cached_tgid_eq hlive).1 43 statusOf42 hanswer).1

end Utrace
