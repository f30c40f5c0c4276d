import Utrace.Native.Tgid
import Mathlib.Data.List.Nodup

/-!
# What the cache of group ids holds

The pids of the entries fill a prefix, each of them once. A lookup that finds its pid leaves
them alone, and one that does not puts it into the first free entry or over another pid.
-/

namespace Utrace

variable {cache : Pid2tgidCache} {used : List Pid} {pid tgid : Pid} {f : Pid → Pid}
  {entries before after : List Pid2tgidEntry} {entry : Pid2tgidEntry} {i idx : Nat}

namespace Pid2tgidCache

/-- The pids of the entries. -/
def pids (cache : Pid2tgidCache) : List Pid := cache.entries.map (·.pid)

/-- The pids fill a prefix, each once. -/
structure Holds (cache : Pid2tgidCache) (used : List Pid) : Prop where
  filled : ∃ n, cache.pids = used ++ List.replicate n 0
  nonzero : 0 ∉ used
  nodup : used.Nodup

/-- The group ids are those of the kernel. -/
def Knows (cache : Pid2tgidCache) (f : Pid → Pid) : Prop :=
  ∀ entry ∈ cache.entries, entry.pid ≠ 0 → entry.tgid = f entry.pid

/-- The cache has as many pids as entries. -/
theorem length_pids (cache : Pid2tgidCache) : cache.pids.length = pid2tgidCacheSize := by
  rw [pids, List.length_map, cache.size]

/-- At first no entry is used. -/
theorem holds_zeroed : zeroed.Holds [] :=
  ⟨⟨pid2tgidCacheSize, by rw [pids, zeroed, List.map_replicate]; rfl⟩, List.not_mem_nil,
    List.nodup_nil⟩

/-- Nothing wrong is known then. -/
theorem knows_zeroed (f : Pid → Pid) : zeroed.Knows f := by
  intro entry hentry hpid
  rw [List.eq_of_mem_replicate hentry] at hpid
  exact (hpid rfl).elim

/-- No more entries are used than there are. -/
theorem Holds.length_le (h : cache.Holds used) : used.length ≤ pid2tgidCacheSize := by
  obtain ⟨n, hpids⟩ := h.filled
  rw [← cache.length_pids, hpids, List.length_append]
  exact Nat.le_add_right ..

/-- A pid is found exactly if its entry is used. -/
theorem Holds.mem_iff (h : cache.Holds used) (hpid : pid ≠ 0) :
    pid ∈ cache.pids ↔ pid ∈ used := by
  obtain ⟨n, hpids⟩ := h.filled
  rw [hpids, List.mem_append]
  refine or_iff_left fun hmem => ?_
  exact hpid (List.eq_of_mem_replicate hmem)

/-- The entry written lies between others that stay. -/
theorem entries_write (hi : i < cache.entries.length) (g : Pid2tgidEntry → Pid2tgidEntry) :
    ∃ before entry after, cache.entries = before ++ entry :: after ∧ before.length = i ∧
      (cache.write i g).entries = before ++ g entry :: after := by
  refine ⟨cache.entries.take i, cache.entries[i], cache.entries.drop (i + 1), ?_, ?_, ?_⟩
  · rw [← List.drop_eq_getElem_cons hi, List.take_append_drop]
  · rw [List.length_take, Nat.min_eq_left hi.le]
  · exact List.modify_eq_take_cons_drop hi

/-- A write through a pointer to an entry changes that entry only. -/
theorem entries_write_of_split (hsplit : cache.entries = before ++ entry :: after)
    (g : Pid2tgidEntry → Pid2tgidEntry) :
    (cache.write before.length g).entries = before ++ g entry :: after := by
  have hlt : before.length < cache.entries.length := by
    rw [hsplit, List.length_append, List.length_cons]
    omega
  obtain ⟨before', entry', after', hsplit', hlength, hwrite⟩ := entries_write hlt g
  obtain ⟨rfl, hcons⟩ := List.append_inj (hsplit.symm.trans hsplit') hlength.symm
  cases hcons
  exact hwrite

end Pid2tgidCache

/-! ## Lookup in the cache -/

/-- A pid without an entry is missed, and nothing changes. -/
theorem pid2tgidCacheGet_miss (h : pid = 0 ∨ pid ∉ cache.pids) :
    pid2tgidCacheGet cache pid = (0, cache) := by
  unfold pid2tgidCacheGet
  split
  · rfl
  · rename_i hpid
    have hnone : cache.entries.findIdx? (fun entry => entry.pid = pid) = none := by
      rw [List.findIdx?_eq_none_iff]
      intro entry hentry
      rw [decide_eq_false_iff_not]
      rintro rfl
      exact h.resolve_left hpid (List.mem_map_of_mem hentry)
    rw [hnone]

/-- A pid with an entry is hit, and counted. -/
theorem pid2tgidCacheGet_hit (hpid : pid ≠ 0) (hmem : pid ∈ cache.pids) :
    ∃ before entry after, cache.entries = before ++ entry :: after ∧ entry.pid = pid ∧
      (pid2tgidCacheGet cache pid).1 = entry.tgid ∧
      (pid2tgidCacheGet cache pid).2.entries =
        before ++ { entry with refCount := entry.refCount + 1 } :: after := by
  rw [pid2tgidCacheGet, if_neg hpid]
  cases hfind : cache.entries.findIdx? fun entry => entry.pid = pid with
  | none =>
    obtain ⟨entry, hentry, hentryPid⟩ := List.mem_map.mp hmem
    have hne := List.findIdx?_eq_none_iff.mp hfind entry hentry
    simp [hentryPid] at hne
  | some i =>
    obtain ⟨hi, hfound, _⟩ := List.findIdx?_eq_some_iff_getElem.mp hfind
    obtain ⟨before, entry, after, hentries, hlength, hwrite⟩ := Pid2tgidCache.entries_write hi
      fun entry => { entry with refCount := entry.refCount + 1 }
    have hget : cache.entries[i]? = some entry := by simp [hentries, ← hlength]
    refine ⟨before, entry, after, hentries, ?_, ?_, hwrite⟩
    · rw [List.getElem?_eq_getElem hi, Option.some.injEq] at hget
      rw [hget] at hfound
      simpa using hfound
    · dsimp only
      rw [hget]
      rfl

/-! ## The scan for an entry to write -/

/-- The first free entry. -/
theorem putScan_free (hpid : pid ≠ 0) (hfree : entry.pid = 0)
    (hbefore : ∀ entry ∈ before, entry.pid ≠ pid ∧ entry.pid ≠ 0) (i idx : Nat)
    (after : List Pid2tgidEntry) :
    putScan pid i idx (before ++ entry :: after) = some (i + before.length) := by
  induction before generalizing i idx with
  | nil =>
    rw [List.nil_append, putScan, if_neg (by rw [hfree]; exact Ne.symm hpid), if_pos hfree]
    rfl
  | cons first before ih =>
    obtain ⟨hne, hzero⟩ := hbefore first (List.mem_cons_self ..)
    have hrest := ih (fun entry hentry => hbefore entry (List.mem_cons_of_mem _ hentry))
    rw [List.cons_append, putScan, if_neg hne, if_neg hzero, hrest, List.length_cons]
    congr 1
    omega

/-- Where no entry is free, one of those passed. -/
theorem putScan_full (h : ∀ entry ∈ entries, entry.pid ≠ pid ∧ entry.pid ≠ 0) (i idx : Nat) :
    ∃ j, putScan pid i idx entries = some j ∧ (j = idx ∨ j < i + entries.length) := by
  induction entries generalizing i idx with
  | nil => exact ⟨idx, rfl, Or.inl rfl⟩
  | cons first entries ih =>
    obtain ⟨hne, hzero⟩ := h first (List.mem_cons_self ..)
    rw [putScan, if_neg hne, if_neg hzero, List.length_cons]
    obtain ⟨j, hj, hwhere⟩ := ih (fun entry hentry => h entry (List.mem_cons_of_mem _ hentry))
      (i + 1) (if first.refCount < 0xFFFFFFFF then i else idx)
    refine ⟨j, hj, ?_⟩
    rcases hwhere with rfl | hlt
    · split
      · exact Or.inr (by omega)
      · exact Or.inl rfl
    · exact Or.inr (by omega)

/-- Where no entry is free, and none was found a great many times, the last one. -/
theorem putScan_last {last : Pid2tgidEntry} (h : ∀ entry ∈ before ++ [last],
      entry.pid ≠ pid ∧ entry.pid ≠ 0 ∧ entry.refCount < 0xFFFFFFFF) (i idx : Nat) :
    putScan pid i idx (before ++ [last]) = some (i + before.length) := by
  induction before generalizing i idx with
  | nil =>
    obtain ⟨hne, hzero, hcount⟩ := h last (by simp)
    rw [List.nil_append, putScan, if_neg hne, if_neg hzero, if_pos hcount]
    rfl
  | cons first before ih =>
    obtain ⟨hne, hzero, _⟩ := h first (List.mem_cons_self ..)
    rw [List.cons_append, putScan, if_neg hne, if_neg hzero,
      ih fun entry hentry => h entry (List.mem_cons_of_mem _ hentry), List.length_cons]
    congr 1
    omega

/-- A new pid is put into the first free entry, or over another where all are taken. -/
theorem pid2tgidCachePut_cases (h : cache.Holds used) (hpid : pid ≠ 0) (hmiss : pid ∉ cache.pids)
    (tgid : Pid) :
    ∃ before entry after, cache.entries = before ++ entry :: after ∧
      (pid2tgidCachePut cache pid tgid).entries =
        before ++ { entry with pid := pid, tgid := tgid } :: after ∧
      (before.map (·.pid) = used ∧ (∃ n, after.map (·.pid) = List.replicate n 0) ∨
        cache.pids = used ∧ used.length = pid2tgidCacheSize) := by
  have hother : ∀ entry ∈ cache.entries, entry.pid ≠ pid := by
    intro entry hentry hentryPid
    exact hmiss (hentryPid ▸ List.mem_map_of_mem hentry)
  obtain ⟨n, hpids⟩ := h.filled
  rw [pid2tgidCachePut, if_neg hpid]
  cases n with
  | zero =>
    rw [List.replicate_zero, List.append_nil] at hpids
    have htaken : ∀ entry ∈ cache.entries, entry.pid ≠ pid ∧ entry.pid ≠ 0 := by
      intro entry hentry
      refine ⟨hother entry hentry, fun hzero => h.nonzero ?_⟩
      rw [← hpids, ← hzero]
      exact List.mem_map_of_mem hentry
    obtain ⟨j, hj, hwhere⟩ := putScan_full htaken 0 0
    have hlt : j < cache.entries.length := by
      have hsize := cache.size
      simp only [pid2tgidCacheSize] at hsize
      omega
    obtain ⟨before, entry, after, hentries, _, hwrite⟩ := Pid2tgidCache.entries_write hlt
      fun entry => { entry with pid := pid, tgid := tgid }
    rw [hj]
    exact ⟨before, entry, after, hentries, hwrite,
      Or.inr ⟨hpids, by rw [← hpids, cache.length_pids]⟩⟩
  | succ n =>
    obtain ⟨before, rest, hentries, hbefore, hrest⟩ := List.map_eq_append_iff.mp hpids
    obtain ⟨entry, after, rfl, hfree, hafter⟩ := List.map_eq_cons_iff.mp hrest
    have hscan : putScan pid 0 0 cache.entries = some before.length := by
      rw [hentries, putScan_free hpid hfree _ 0 0 after, Nat.zero_add]
      intro entry hentry
      refine ⟨hother entry (by simp [hentries, hentry]), fun hzero => h.nonzero ?_⟩
      rw [← hbefore, ← hzero]
      exact List.mem_map_of_mem hentry
    rw [hscan]
    exact ⟨before, entry, after, hentries,
      Pid2tgidCache.entries_write_of_split hentries fun entry =>
        { entry with pid := pid, tgid := tgid },
      Or.inl ⟨hbefore, n, hafter⟩⟩

/-! ## One call -/

/-- A lookup that finds the pid changes no pid and no group id. -/
theorem holds_knows_get (h : cache.Holds used) (hknows : cache.Knows f) (hpid : pid ≠ 0)
    (hmem : pid ∈ cache.pids) : (pid2tgidCacheGet cache pid).1 = f pid ∧
      (pid2tgidCacheGet cache pid).2.Holds used ∧ (pid2tgidCacheGet cache pid).2.Knows f := by
  obtain ⟨before, entry, after, hentries, rfl, hvalue, hentries'⟩ := pid2tgidCacheGet_hit hpid hmem
  have hpids : (pid2tgidCacheGet cache entry.pid).2.pids = cache.pids := by
    rw [Pid2tgidCache.pids, Pid2tgidCache.pids, hentries', hentries, List.map_append,
      List.map_append, List.map_cons, List.map_cons]
  have hentry := hknows entry (by simp [hentries]) hpid
  refine ⟨hvalue.trans hentry, ⟨by rw [hpids]; exact h.filled, h.nonzero, h.nodup⟩, ?_⟩
  intro other hother
  rw [hentries'] at hother
  rcases List.mem_append.mp hother with hmem | hmem
  · exact hknows other (by simp [hentries, hmem])
  · rcases List.mem_cons.mp hmem with rfl | hmem
    · exact fun _ => hentry
    · exact hknows other (by simp [hentries, hmem])

/-- A new pid comes behind the others, or takes the place of one. -/
theorem holds_put (h : cache.Holds used) (hpid : pid ≠ 0) (hmiss : pid ∉ cache.pids)
    (tgid : Pid) :
    used.length < pid2tgidCacheSize ∧
        (pid2tgidCachePut cache pid tgid).Holds (used ++ [pid]) ∨
      used.length = pid2tgidCacheSize ∧
        ∃ used', (pid2tgidCachePut cache pid tgid).Holds used' := by
  have hnew : pid ∉ used := fun hmem => hmiss ((h.mem_iff hpid).mpr hmem)
  obtain ⟨before, entry, after, hentries, hput, hfree | hfull⟩ :=
    pid2tgidCachePut_cases h hpid hmiss tgid
  · obtain ⟨rfl, n, hafter⟩ := hfree
    refine Or.inl ⟨?_, ⟨n, ?_⟩, ?_, ?_⟩
    · rw [← cache.size, hentries, List.length_map, List.length_append, List.length_cons]
      omega
    · rw [Pid2tgidCache.pids, hput, List.map_append, List.map_cons, hafter, List.append_assoc]
      rfl
    · rw [List.mem_append, List.mem_singleton, not_or]
      exact ⟨h.nonzero, Ne.symm hpid⟩
    · rw [← List.concat_eq_append]
      exact h.nodup.concat hnew
  · obtain ⟨hpids, hlength⟩ := hfull
    have hsplit : used = before.map (·.pid) ++ entry.pid :: after.map (·.pid) := by
      rw [← hpids, Pid2tgidCache.pids, hentries, List.map_append, List.map_cons]
    refine Or.inr ⟨hlength, before.map (·.pid) ++ pid :: after.map (·.pid), ⟨0, ?_⟩, ?_, ?_⟩
    · rw [Pid2tgidCache.pids, hput, List.map_append, List.map_cons, List.replicate_zero,
        List.append_nil]
    · have hzero := h.nonzero
      rw [hsplit] at hzero
      simp only [List.mem_append, List.mem_cons, not_or] at hzero ⊢
      exact ⟨hzero.1, Ne.symm hpid, hzero.2.2⟩
    · have hnodup := h.nodup
      rw [hsplit] at hnodup hnew
      simp only [List.mem_append, List.mem_cons, not_or] at hnew
      rw [List.nodup_middle, List.nodup_cons] at hnodup ⊢
      exact ⟨by simp [hnew], hnodup.2⟩

/-- Putting the right group id keeps what is known right. -/
theorem knows_put (hknows : cache.Knows f) (h : cache.Holds used) (hpid : pid ≠ 0)
    (hmiss : pid ∉ cache.pids) : (pid2tgidCachePut cache pid (f pid)).Knows f := by
  obtain ⟨before, entry, after, hentries, hput, _⟩ := pid2tgidCachePut_cases h hpid hmiss (f pid)
  intro other hother
  rw [hput] at hother
  rcases List.mem_append.mp hother with hmem | hmem
  · exact hknows other (by simp [hentries, hmem])
  · rcases List.mem_cons.mp hmem with rfl | hmem
    · exact fun _ => rfl
    · exact hknows other (by simp [hentries, hmem])

/-- What is answered about a live thread gives its group id, which is not zero. -/
structure AnswersFor (f : Pid → Pid) (pid : Pid) (answer : ProcAnswer) : Prop where
  live : f pid ≠ 0
  read : (procTgid answer).1 = f pid

/-- A call that does not find the pid reads the file and puts the pid into the cache. -/
theorem pid2tgid_miss {s : Tgids} {answer : ProcAnswer} (hmiss : pid = 0 ∨ pid ∉ s.cache.pids)
    (hanswer : AnswersFor f pid answer) : pid2tgid s pid answer =
      (f pid, ⟨pid2tgidCachePut s.cache pid (f pid), s.fds + (procTgid answer).2⟩) := by
  rw [pid2tgid, pid2tgidCacheGet_miss hmiss, if_neg (not_not.mpr rfl)]
  dsimp only
  rw [hanswer.read, if_pos hanswer.live]

/-- A call returns the group id. It finds the pid, or it reads the file and puts the pid into
the cache. -/
theorem pid2tgid_cases {s : Tgids} {answer : ProcAnswer} (h : s.cache.Holds used)
    (hknows : s.cache.Knows f) (hanswer : AnswersFor f pid answer) :
    (pid2tgid s pid answer).1 = f pid ∧ (pid2tgid s pid answer).2.cache.Knows f ∧
      (pid ∈ used ∧ (pid2tgid s pid answer).2.cache.Holds used ∧
          (pid2tgid s pid answer).2.fds = s.fds ∨
        pid ∉ used ∧ (∃ used', (pid2tgid s pid answer).2.cache.Holds used') ∧
          (pid ≠ 0 → used.length < pid2tgidCacheSize →
            (pid2tgid s pid answer).2.cache.Holds (used ++ [pid])) ∧
          (pid2tgid s pid answer).2.fds = s.fds + (procTgid answer).2) := by
  by_cases hmem : pid ∈ used
  · have hpid : pid ≠ 0 := fun hzero => h.nonzero (hzero ▸ hmem)
    obtain ⟨hvalue, hholds, hknows'⟩ := holds_knows_get h hknows hpid ((h.mem_iff hpid).mpr hmem)
    have hstep : pid2tgid s pid answer =
        (f pid, { s with cache := (pid2tgidCacheGet s.cache pid).2 }) := by
      rw [pid2tgid, if_pos (by rw [hvalue]; exact hanswer.live), hvalue]
    rw [hstep]
    exact ⟨rfl, hknows', Or.inl ⟨hmem, hholds, rfl⟩⟩
  · have hmiss : pid = 0 ∨ pid ∉ s.cache.pids := by
      by_cases hpid : pid = 0
      · exact Or.inl hpid
      · exact Or.inr fun hin => hmem ((h.mem_iff hpid).mp hin)
    rw [pid2tgid_miss hmiss hanswer]
    refine ⟨rfl, ?_, Or.inr ⟨hmem, ?_, ?_, rfl⟩⟩
    · by_cases hpid : pid = 0
      · rw [pid2tgidCachePut, if_pos hpid]
        exact hknows
      · exact knows_put hknows h hpid (hmiss.resolve_left hpid)
    · by_cases hpid : pid = 0
      · rw [pid2tgidCachePut, if_pos hpid]
        exact ⟨used, h⟩
      · rcases holds_put h hpid (hmiss.resolve_left hpid) (f pid) with ⟨_, hholds⟩ | ⟨_, hholds⟩
        · exact ⟨_, hholds⟩
        · exact hholds
    · intro hpid hroom
      rcases holds_put h hpid (hmiss.resolve_left hpid) (f pid) with ⟨_, hholds⟩ | ⟨hfull, _⟩
      · exact hholds
      · omega

/-- The status file of a thread in the group 42. -/
def statusOf42 : ProcAnswer where
  content := some "Name:\ttest\nTgid:\t42\nPid:\t43\n".toList

/-- The sample file answers for group 42. -/
theorem answersFor_statusOf42 (pid : Pid) : AnswersFor (fun _ => 42) pid statusOf42 :=
  ⟨by decide, by decide⟩

end Utrace
