import Utrace.Interpretation.TgidCache
import Mathlib.Data.Set.Card
import Mathlib.Data.Int.Interval

/-!
# Descriptors of status files

`pid2tgid` opens a status file each time the cache does not know a thread, and closes none.
Up to ten threads are looked up once each. With more, the entry written last is the one
replaced next, and two threads that take turns there miss every time.
-/

namespace Utrace

/-- A wait event: the thread, and what the kernel answers about it. -/
abbrev TidEvent := Pid × ProcAnswer

/-- `kill`, `open` and `read` succeed. -/
structure ProcAnswer.Succeeds (answer : ProcAnswer) : Prop where
  killed : answer.killed = true
  opened : answer.opened = true
  content : answer.content.isSome = true

/-- A thread whose file is read costs one descriptor. -/
theorem ProcAnswer.Succeeds.fds {answer : ProcAnswer} (h : answer.Succeeds) :
    (procTgid answer).2 = 1 := by
  obtain ⟨content, hcontent⟩ := Option.isSome_iff_exists.mp h.content
  rw [procTgid, if_pos h.killed, if_pos h.opened, hcontent]

/-- The state after the events of a run, from the zeroed cache. -/
def Tgids.events (events : List TidEvent) : Tgids :=
  events.foldl (fun s event => (pid2tgid s event.1 event.2).2) {}

/-- One more event. -/
theorem Tgids.events_snoc (events : List TidEvent) (event : TidEvent) :
    Tgids.events (events ++ [event]) = (pid2tgid (Tgids.events events) event.1 event.2).2 := by
  rw [Tgids.events, List.foldl_append]
  rfl

variable {f : Pid → Pid} {threads : Set Pid} {events : List TidEvent}

/-- An event of one of the threads, answered as the kernel should. -/
structure TracedEvent (f : Pid → Pid) (threads : Set Pid) (event : TidEvent) : Prop where
  traced : event.1 ∈ threads
  succeeds : event.2.Succeeds
  answers : AnswersFor f event.1 event.2

/-- So does every event of a longer list. -/
theorem traced_snoc {event : TidEvent} (hevents : ∀ event ∈ events, TracedEvent f threads event)
    (hevent : TracedEvent f threads event) :
    ∀ event' ∈ events ++ [event], TracedEvent f threads event' :=
  List.forall_mem_append.mpr ⟨hevents, List.forall_mem_singleton.mpr hevent⟩

/-! ## Up to ten threads -/

/-- Different pids of so many threads are no more than these. -/
theorem length_le_of_encard {used : List Pid} {n : Nat} (hnodup : used.Nodup)
    (hsub : ∀ pid ∈ used, pid ∈ threads) (hcard : threads.encard ≤ n) : used.length ≤ n := by
  have hfinset : ((used.toFinset : Set Pid)) ⊆ threads := by
    intro pid hpid
    exact hsub pid (List.mem_toFinset.mp hpid)
  have hle := (Set.encard_le_encard hfinset).trans hcard
  rw [Set.encard_coe_eq_coe_finsetCard, List.toFinset_card_of_nodup hnodup] at hle
  exact_mod_cast hle

/-- As many descriptors are open as threads are in the cache. -/
theorem fds_eq_length (hzero : 0 ∉ threads) (hcard : threads.encard ≤ pid2tgidCacheSize)
    (hevents : ∀ event ∈ events, TracedEvent f threads event) :
    (Tgids.events events).cache.Knows f ∧ ∃ used, (Tgids.events events).cache.Holds used ∧
      (∀ pid ∈ used, pid ∈ threads) ∧ (Tgids.events events).fds = used.length := by
  induction events using List.reverseRecOn with
  | nil =>
    exact ⟨Pid2tgidCache.knows_zeroed f, [], Pid2tgidCache.holds_zeroed,
      fun pid hpid => absurd hpid List.not_mem_nil, rfl⟩
  | append_singleton events event ih =>
    obtain ⟨hknows, used, hholds, hused, hfds⟩ := ih fun event hevent =>
      hevents event (by simp [hevent])
    have htraced := hevents event (by simp)
    rw [Tgids.events_snoc]
    obtain ⟨_, hknows', hhit | hmiss⟩ := pid2tgid_cases hholds hknows htraced.answers
    · exact ⟨hknows', used, hhit.2.1, hused, hhit.2.2.trans hfds⟩
    · obtain ⟨hnew, _, hput, hfds'⟩ := hmiss
      have hsub : ∀ pid ∈ used ++ [event.1], pid ∈ threads :=
        List.forall_mem_append.mpr ⟨hused, List.forall_mem_singleton.mpr htraced.traced⟩
      have hnodup : (used ++ [event.1]).Nodup := by
        rw [← List.concat_eq_append]
        exact hholds.nodup.concat hnew
      have hroom := length_le_of_encard hnodup hsub hcard
      rw [List.length_append, List.length_singleton] at hroom
      have hpid : event.1 ≠ 0 := fun h => hzero (h ▸ htraced.traced)
      refine ⟨hknows', used ++ [event.1], hput hpid hroom, hsub, ?_⟩
      rw [hfds', hfds, htraced.succeeds.fds, List.length_append, List.length_singleton]

/-! ## More threads -/

/-- The entry of a thread that was never found again. -/
def unusedEntry (f : Pid → Pid) (pid : Pid) : Pid2tgidEntry where
  pid := pid
  tgid := f pid

variable {used : List Pid} {pid : Pid} {cache : Pid2tgidCache}

/-- The pids are those used, and what the other entries hold. -/
theorem pids_of_unused {rest : List Pid2tgidEntry}
    (h : cache.entries = used.map (unusedEntry f) ++ rest) :
    cache.pids = used ++ rest.map (·.pid) := by
  rw [Pid2tgidCache.pids, h, List.map_append, List.map_map]
  congr 1
  exact List.map_id used

/-- Threads enter one entry after the other. -/
theorem entries_put_free {n : Nat} (hzero : 0 ∉ used) (hpid : pid ≠ 0) (hnew : pid ∉ used)
    (h : cache.entries = used.map (unusedEntry f) ++ List.replicate (n + 1) ({} : Pid2tgidEntry)) :
    (pid2tgidCachePut cache pid (f pid)).entries =
      (used ++ [pid]).map (unusedEntry f) ++ List.replicate n ({} : Pid2tgidEntry) := by
  rw [List.replicate_succ] at h
  have hscan : putScan pid 0 0 cache.entries = some (used.map (unusedEntry f)).length := by
    rw [h, putScan_free hpid rfl _ 0 0 _, Nat.zero_add]
    intro entry hentry
    obtain ⟨other, hother, rfl⟩ := List.mem_map.mp hentry
    exact ⟨fun heq => hnew (heq ▸ hother), fun heq => hzero (heq ▸ hother)⟩
  rw [pid2tgidCachePut, if_neg hpid, hscan]
  dsimp only
  rw [Pid2tgidCache.entries_write_of_split h, List.map_append, List.append_assoc]
  rfl

/-- Then each new thread takes the last entry. -/
theorem entries_put_last {last : Pid} (hzero : 0 ∉ used ++ [last]) (hpid : pid ≠ 0)
    (hnew : pid ∉ used ++ [last])
    (h : cache.entries = used.map (unusedEntry f) ++ [unusedEntry f last]) :
    (pid2tgidCachePut cache pid (f pid)).entries =
      used.map (unusedEntry f) ++ [unusedEntry f pid] := by
  have hscan : putScan pid 0 0 cache.entries = some (used.map (unusedEntry f)).length := by
    rw [h, putScan_last _ 0 0, Nat.zero_add]
    intro entry hentry
    have hmap : entry ∈ (used ++ [last]).map (unusedEntry f) := by
      rw [List.map_append]
      exact hentry
    obtain ⟨other, hother, rfl⟩ := List.mem_map.mp hmap
    exact ⟨fun heq => hnew (heq ▸ hother), fun heq => hzero (heq ▸ hother),
      show (0 : BitVec 32) < 0xFFFFFFFF by decide⟩
  rw [pid2tgidCachePut, if_neg hpid, hscan]
  dsimp only
  rw [Pid2tgidCache.entries_write_of_split h]
  rfl

/-- The threads can all be answered for. -/
structure Answered (f : Pid → Pid) (threads : Set Pid) (answer : Pid → ProcAnswer) : Prop where
  nonzero : 0 ∉ threads
  traced : ∀ pid ∈ threads, TracedEvent f threads (pid, answer pid)

/-- One more event, of a thread the cache does not hold. -/
theorem events_snoc_of_miss {answer : Pid → ProcAnswer} (h : Answered f threads answer)
    (hpid : pid ∈ threads) (hmiss : pid ∉ (Tgids.events events).cache.pids) :
    Tgids.events (events ++ [(pid, answer pid)]) =
      ⟨pid2tgidCachePut (Tgids.events events).cache pid (f pid),
        (Tgids.events events).fds + 1⟩ := by
  have htraced := h.traced pid hpid
  rw [Tgids.events_snoc, pid2tgid_miss (Or.inr hmiss) htraced.answers, htraced.succeeds.fds]

/-- The cache is filled with threads. -/
theorem exists_filled {answer : Pid → ProcAnswer} (h : Answered f threads answer)
    (hused : ∀ pid ∈ used, pid ∈ threads) (hnodup : used.Nodup)
    (hroom : used.length ≤ pid2tgidCacheSize) :
    ∃ events, (∀ event ∈ events, TracedEvent f threads event) ∧
      (Tgids.events events).cache.entries = used.map (unusedEntry f) ++
        List.replicate (pid2tgidCacheSize - used.length) ({} : Pid2tgidEntry) ∧
      (Tgids.events events).fds = used.length := by
  induction used using List.reverseRecOn with
  | nil => exact ⟨[], fun event hevent => absurd hevent List.not_mem_nil, rfl, rfl⟩
  | append_singleton used pid ih =>
    rw [List.length_append, List.length_singleton] at hroom
    rw [← List.concat_eq_append, List.nodup_concat] at hnodup
    obtain ⟨events, hevents, hentries, hfds⟩ := ih (fun pid hpid => hused pid (by simp [hpid]))
      hnodup.2 (by omega)
    have hpid : pid ∈ threads := hused pid (by simp)
    have hne : pid ≠ 0 := fun heq => h.nonzero (heq ▸ hpid)
    have hzero : 0 ∉ used := fun hmem => h.nonzero (hused 0 (by simp [hmem]))
    have hleft : pid2tgidCacheSize - used.length =
        pid2tgidCacheSize - (used ++ [pid]).length + 1 := by
      rw [List.length_append, List.length_singleton]
      omega
    rw [hleft] at hentries
    have hmiss : pid ∉ (Tgids.events events).cache.pids := by
      rw [pids_of_unused hentries, List.map_replicate]
      intro hmem
      rcases List.mem_append.mp hmem with hmem | hmem
      · exact hnodup.1 hmem
      · exact hne (List.eq_of_mem_replicate hmem)
    refine ⟨events ++ [(pid, answer pid)], traced_snoc hevents (h.traced pid hpid), ?_, ?_⟩
    · rw [events_snoc_of_miss h hpid hmiss]
      exact entries_put_free hzero hne hnodup.1 hentries
    · rw [events_snoc_of_miss h hpid hmiss, List.length_append, hfds]
      rfl

/-- Of two more threads, one is not in the cache. -/
theorem exists_other {first : List Pid} {a b last : Pid} (hnodup : (first ++ [a, b]).Nodup)
    (hlast : last = a ∨ last = b) :
    ∃ other, (other = a ∨ other = b) ∧ other ∉ first ++ [last] := by
  have hab : a ≠ b := by
    intro heq
    simp [heq, List.nodup_append] at hnodup
  have hout : a ∉ first ∧ b ∉ first := by
    rw [List.nodup_append] at hnodup
    exact ⟨fun hmem => hnodup.2.2 a hmem a (by simp) rfl,
      fun hmem => hnodup.2.2 b hmem b (by simp) rfl⟩
  rcases hlast with rfl | rfl
  · exact ⟨b, Or.inr rfl, by simp [hout.2, hab.symm]⟩
  · exact ⟨a, Or.inl rfl, by simp [hout.1, hab]⟩

/-- Two threads take turns in the last entry for as long as one likes. -/
theorem exists_alternating {answer : Pid → ProcAnswer} {first : List Pid} {a b : Pid}
    (h : Answered f threads answer) (hused : ∀ pid ∈ first ++ [a, b], pid ∈ threads)
    (hnodup : (first ++ [a, b]).Nodup) (hfull : first.length + 1 = pid2tgidCacheSize) (n : Nat) :
    ∃ events last, (∀ event ∈ events, TracedEvent f threads event) ∧ (last = a ∨ last = b) ∧
      (Tgids.events events).cache.entries = first.map (unusedEntry f) ++ [unusedEntry f last] ∧
      (Tgids.events events).fds = pid2tgidCacheSize + n := by
  induction n with
  | zero =>
    have hsplit : first ++ [a, b] = (first ++ [a]) ++ [b] := by simp
    rw [hsplit] at hused hnodup
    have hlength : (first ++ [a]).length = pid2tgidCacheSize := by
      rw [List.length_append, List.length_singleton, hfull]
    obtain ⟨events, hevents, hentries, hfds⟩ := exists_filled h
      (fun pid hpid => hused pid (List.mem_append_left _ hpid)) hnodup.of_append_left hlength.le
    refine ⟨events, a, hevents, Or.inl rfl, ?_, ?_⟩
    · rw [hentries, hlength, Nat.sub_self, List.replicate_zero, List.append_nil, List.map_append]
      rfl
    · rw [hfds, hlength, Nat.add_zero]
  | succ n ih =>
    obtain ⟨events, last, hevents, hlast, hentries, hfds⟩ := ih
    obtain ⟨other, hother, hnew⟩ := exists_other hnodup hlast
    have hin : other ∈ threads := by
      apply hused
      rcases hother with rfl | rfl <;> simp
    have hpid : other ≠ 0 := fun heq => h.nonzero (heq ▸ hin)
    have hzero : 0 ∉ first ++ [last] := by
      intro hmem
      apply h.nonzero
      apply hused
      rcases List.mem_append.mp hmem with hmem | hmem
      · exact List.mem_append_left _ hmem
      · rw [List.mem_singleton.mp hmem]
        rcases hlast with rfl | rfl <;> simp
    have hmiss : other ∉ (Tgids.events events).cache.pids := by
      rw [pids_of_unused hentries]
      exact hnew
    refine ⟨events ++ [(other, answer other)], other,
      traced_snoc hevents (h.traced other hin), hother, ?_, ?_⟩
    · rw [events_snoc_of_miss h hin hmiss]
      exact entries_put_last hzero hpid hnew hentries
    · rw [events_snoc_of_miss h hin hmiss, hfds]
      rfl

/-- Eleven threads are enough to exceed any bound. -/
theorem exists_fds_gt {answer : Pid → ProcAnswer} (h : Answered f threads answer)
    (hcard : ¬threads.encard ≤ pid2tgidCacheSize) (bound : Nat) :
    ∃ events, (∀ event ∈ events, TracedEvent f threads event) ∧
      bound < (Tgids.events events).fds := by
  have heleven : ((pid2tgidCacheSize + 1 : Nat) : ℕ∞) ≤ threads.encard := by
    rw [Nat.cast_add, Nat.cast_one]
    exact Order.add_one_le_of_lt (not_le.mp hcard)
  obtain ⟨eleven, hsub, hsize⟩ := Set.exists_subset_encard_eq heleven
  have hfinite := Set.finite_of_encard_eq_coe hsize
  let pids := hfinite.toFinset.toList
  have hlength : pids.length = pid2tgidCacheSize + 1 := by
    rw [Finset.length_toList, ← Set.ncard_eq_toFinset_card _ hfinite, Set.ncard, hsize]
    rfl
  have hmem : ∀ pid ∈ pids, pid ∈ threads := by
    intro pid hpid
    exact hsub (hfinite.mem_toFinset.mp (Finset.mem_toList.mp hpid))
  have hnodup : pids.Nodup := Finset.nodup_toList _
  obtain ⟨a, b, hab⟩ : ∃ a b, pids.drop (pid2tgidCacheSize - 1) = [a, b] := by
    apply List.length_eq_two.mp
    rw [List.length_drop, hlength]
    rfl
  have hsplit : pids.take (pid2tgidCacheSize - 1) ++ [a, b] = pids := by
    rw [← hab, List.take_append_drop]
  have hfirst : (pids.take (pid2tgidCacheSize - 1)).length + 1 = pid2tgidCacheSize := by
    rw [List.length_take, hlength]
    rfl
  obtain ⟨events, _, hevents, _, _, hfds⟩ := exists_alternating h (hsplit.symm ▸ hmem)
    (hsplit.symm ▸ hnodup) hfirst bound
  refine ⟨events, hevents, ?_⟩
  rw [hfds]
  exact Nat.lt_add_of_pos_left (by decide)

/-- For threads that can all be answered for: the number of descriptors that are opened and not
closed has a bound for all their runs exactly when there are at most ten of them. -/
theorem descriptors_bounded_iff (hzero : 0 ∉ threads)
    (hanswers : ∀ pid ∈ threads, ∃ answer, TracedEvent f threads (pid, answer)) :
    (∃ bound, ∀ events, (∀ event ∈ events, TracedEvent f threads event) →
      (Tgids.events events).fds ≤ bound) ↔ threads.encard ≤ pid2tgidCacheSize := by
  constructor
  · rintro ⟨bound, hbound⟩
    by_contra hcard
    have hnonempty : Nonempty ProcAnswer := ⟨statusOf42⟩
    choose! answer hanswer using hanswers
    obtain ⟨events, hevents, hgt⟩ := exists_fds_gt ⟨hzero, hanswer⟩ hcard bound
    exact absurd (hbound events hevents) (Nat.not_le_of_lt hgt)
  · intro hcard
    refine ⟨pid2tgidCacheSize, fun events hevents => ?_⟩
    obtain ⟨_, used, hholds, _, hfds⟩ := fds_eq_length hzero hcard hevents
    rw [hfds]
    exact hholds.length_le

/-- An event of a thread with the sample file. -/
theorem tracedEvent_statusOf42 (hpid : pid ∈ threads) :
    TracedEvent (fun _ => 42) threads (pid, statusOf42) :=
  ⟨hpid, ⟨rfl, rfl, rfl⟩, answersFor_statusOf42 pid⟩

/-- The events of one thread. -/
theorem descriptors_bounded_iff_43 :
    ∃ bound, ∀ events, (∀ event ∈ events, TracedEvent (fun _ => 42) {43} event) →
      (Tgids.events events).fds ≤ bound := by
  have hzero : (0 : Pid) ∉ ({43} : Set Pid) := by simp
  refine (descriptors_bounded_iff hzero fun pid hpid => ?_).mpr ?_
  · exact ⟨statusOf42, tracedEvent_statusOf42 hpid⟩
  · rw [Set.encard_singleton]
    exact Nat.one_le_cast.mpr (by decide)

/-- Eleven threads of one process. -/
theorem descriptors_unbounded :
    ¬∀ (f : Pid → Pid) (threads : Set Pid), 0 ∉ threads →
      (∀ pid ∈ threads, ∃ answer, TracedEvent f threads (pid, answer)) →
        ∃ bound, ∀ events, (∀ event ∈ events, TracedEvent f threads event) →
          (Tgids.events events).fds ≤ bound := by
  intro hclaim
  have hzero : (0 : Pid) ∉ Set.Icc (43 : Pid) 53 := by simp
  have hcard : ¬(Set.Icc (43 : Pid) 53).encard ≤ pid2tgidCacheSize := by
    rw [← Finset.coe_Icc, Set.encard_coe_eq_coe_finsetCard, Nat.cast_le]
    decide
  obtain ⟨bound, hbound⟩ := hclaim (fun _ => 42) (Set.Icc 43 53) hzero fun pid hpid =>
    ⟨statusOf42, tracedEvent_statusOf42 hpid⟩
  have hanswered : Answered (fun _ => 42) (Set.Icc (43 : Pid) 53) fun _ => statusOf42 :=
    ⟨hzero, fun pid hpid => tracedEvent_statusOf42 hpid⟩
  obtain ⟨events, hevents, hgt⟩ := exists_fds_gt hanswered hcard bound
  exact absurd (hbound events hevents) (Nat.not_le_of_lt hgt)

end Utrace
