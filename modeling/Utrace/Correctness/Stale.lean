import Utrace.Correctness.GroupIds
import Utrace.Interpretation.StatusFile

/-!
# What the stack held before

`pid2tgid` reads the status file into a buffer on the stack and parses the buffer as a string.
Nothing ends the string behind the bytes read, and where no process can be signalled nothing is
read at all.
-/

namespace Utrace

/-- Memory from the buffer of 1024 bytes on. A string that goes past the buffer ends behind
it. -/
structure Stack where
  bytes : List Char
  room : 1024 ≤ bytes.length
  ends : '\x00' ∈ bytes.drop 1024

/-- The same answer on another stack. -/
def ProcAnswer.withStack (answer : ProcAnswer) (stack : Stack) : ProcAnswer :=
  { answer with stale := stack.bytes }

/-- A lookup does not find the pid in the cache. -/
def Tgids.Misses (s : Tgids) (pid : Pid) : Prop := pid = 0 ∨ pid ∉ s.cache.pids

/-- The old contents of the buffer do not matter: they change neither the result nor the cache,
the result is parsed from the bytes read, and it is zero and leaves the cache alone where no
process can be signalled or the bytes have no field. -/
structure ReadsOnly (s : Tgids) (pid : Pid) (answer : ProcAnswer) : Prop where
  same : ∀ stack stack' : Stack, stack.bytes.drop 1024 = stack'.bytes.drop 1024 →
    pid2tgid s pid (answer.withStack stack) = pid2tgid s pid (answer.withStack stack')
  value : ∀ stack content, s.Misses pid → answer.killed → answer.opened →
    answer.content = some content →
    (pid2tgid s pid (answer.withStack stack)).1 = parseTgidStr (content.take 1024)
  zero : ∀ stack, s.Misses pid →
    (¬answer.killed ∨ answer.opened ∧ ∃ content, answer.content = some content ∧
      strstr "Tgid:".toList (cString (content.take 1024)) = none) →
    (pid2tgid s pid (answer.withStack stack)).1 = 0 ∧
      (pid2tgid s pid (answer.withStack stack)).2.cache = s.cache

/-- The process can be signalled, and bytes that are read tell the number. -/
def ProcAnswer.Settled (answer : ProcAnswer) : Prop :=
  answer.killed ∧ (answer.opened → ∀ content, answer.content = some content →
    Settles (content.take 1024))

variable {s : Tgids} {cache : Pid2tgidCache} {calls : List TgidCall} {pid tgid : Pid}
  {answer : ProcAnswer} {content : List Char}

/-! ## Reachable caches -/

/-- The entries taken have a group id. -/
def Pid2tgidCache.Known (cache : Pid2tgidCache) : Prop :=
  ∀ entry ∈ cache.entries, entry.pid ≠ 0 → entry.tgid ≠ 0

/-- Nothing wrong is known at first. -/
theorem Pid2tgidCache.known_zeroed : zeroed.Known := by
  intro entry hentry hpid
  rw [List.eq_of_mem_replicate hentry] at hpid
  exact (hpid rfl).elim

/-- Writing an entry. -/
theorem Pid2tgidCache.Known.write (h : cache.Known) (i : Nat)
    {g : Pid2tgidEntry → Pid2tgidEntry}
    (hg : ∀ entry, (entry.pid ≠ 0 → entry.tgid ≠ 0) → (g entry).pid ≠ 0 → (g entry).tgid ≠ 0) :
    (cache.write i g).Known := by
  intro entry hentry
  rcases Nat.lt_or_ge i cache.entries.length with hi | hi
  · obtain ⟨before, old, after, hsplit, _, hwrite⟩ := entries_write hi g
    rw [hwrite] at hentry
    rcases List.mem_append.mp hentry with hmem | hmem
    · exact h entry (by simp [hsplit, hmem])
    · rcases List.mem_cons.mp hmem with rfl | hmem
      · exact hg old (h old (by simp [hsplit]))
      · exact h entry (by simp [hsplit, hmem])
  · have hsame : (cache.write i g).entries = cache.entries := List.modify_eq_self hi
    rw [hsame] at hentry
    exact h entry hentry

/-- A look into the cache keeps it so. -/
theorem Pid2tgidCache.Known.get (h : cache.Known) (pid : Pid) :
    (pid2tgidCacheGet cache pid).2.Known := by
  unfold pid2tgidCacheGet
  split
  · exact h
  · split
    · exact h
    · exact h.write _ fun entry hentry => hentry

/-- So does putting a group id. -/
theorem Pid2tgidCache.Known.put (h : cache.Known) (htgid : tgid ≠ 0) (pid : Pid) :
    (pid2tgidCachePut cache pid tgid).Known := by
  unfold pid2tgidCachePut
  split
  · exact h
  · split
    · exact h
    · exact h.write _ fun entry _ _ => htgid

/-- So does `pid2tgid`. -/
theorem Pid2tgidCache.Known.pid2tgid (h : s.cache.Known) (pid : Pid) (answer : ProcAnswer) :
    (pid2tgid s pid answer).2.cache.Known := by
  unfold Utrace.pid2tgid
  dsimp only
  split
  · exact h.get pid
  · split
    · rename_i htgid
      exact (h.get pid).put htgid pid
    · exact h.get pid

/-- Only group ids read are put into the cache. -/
theorem known_run (calls : List TgidCall) : (Tgids.run calls).cache.Known := by
  induction calls using List.reverseRecOn with
  | nil => exact Pid2tgidCache.known_zeroed
  | append_singleton calls call ih =>
    rw [Tgids.run, List.foldl_append]
    cases call with
    | lookup pid answer => exact Pid2tgidCache.Known.pid2tgid ih pid answer
    | flush => exact Pid2tgidCache.known_zeroed

/-! ## One lookup -/

/-- A lookup that finds the pid asks nothing. -/
theorem pid2tgid_of_not_misses (h : s.cache.Known) (hhit : ¬s.Misses pid) :
    pid2tgid s pid answer = ((pid2tgidCacheGet s.cache pid).1,
      { s with cache := (pid2tgidCacheGet s.cache pid).2 }) := by
  obtain ⟨hpid, hmem⟩ := not_or.mp hhit
  obtain ⟨before, entry, after, hentries, rfl, hvalue, _⟩ :=
    pid2tgidCacheGet_hit hpid (not_not.mp hmem)
  have htgid := h entry (by simp [hentries]) hpid
  rw [pid2tgid, if_pos (by rw [hvalue]; exact htgid)]

/-- A lookup that does not find it returns what the file gives, and keeps it unless it is
zero. -/
theorem pid2tgid_of_misses (hmiss : s.Misses pid) :
    pid2tgid s pid answer = ((procTgid answer).1,
      ⟨if (procTgid answer).1 = 0 then s.cache
        else pid2tgidCachePut s.cache pid (procTgid answer).1, s.fds + (procTgid answer).2⟩) := by
  rw [pid2tgid, pid2tgidCacheGet_miss hmiss, if_neg (not_not.mpr rfl)]
  by_cases hzero : (procTgid answer).1 = 0
  · rw [if_neg (not_not.mpr hzero), if_pos hzero, hzero]
  · rw [if_pos hzero, if_neg hzero]

/-- The bytes read come first in the buffer. -/
theorem procTgid_read (hkilled : answer.killed) (hopened : answer.opened)
    (hcontent : answer.content = some content) (stack : Stack) :
    procTgid (answer.withStack stack) = (parseTgidStr (content.take 1024 ++
      stack.bytes.drop (content.take 1024).length), 1) := by
  simp [procTgid, ProcAnswer.withStack, hkilled, hopened, hcontent]

/-- Where nothing can be signalled the stack is parsed as it is. -/
theorem procTgid_unread (hkilled : ¬answer.killed) (stack : Stack) :
    procTgid (answer.withStack stack) = (parseTgidStr stack.bytes, 0) := by
  simp [procTgid, ProcAnswer.withStack, hkilled]

/-- A settled answer is the same on every stack. -/
theorem procTgid_settled (h : answer.Settled) (stack stack' : Stack) :
    procTgid (answer.withStack stack) = procTgid (answer.withStack stack') := by
  obtain ⟨hkilled, hsettles⟩ := h
  by_cases hopened : answer.opened = true
  · cases hcontent : answer.content with
    | none => simp [procTgid, ProcAnswer.withStack, hkilled, hopened, hcontent]
    | some content =>
      rw [procTgid_read hkilled hopened hcontent, procTgid_read hkilled hopened hcontent,
        (hsettles hopened content hcontent).append, (hsettles hopened content hcontent).append]
  · simp [procTgid, ProcAnswer.withStack, hkilled, hopened]

/-- A stack that goes on with given characters behind the bytes read. -/
def Stack.after (bytes more : List Char) : Stack where
  bytes := bytes ++ more ++ List.replicate 1024 '\x00' ++ ['\x00']
  room := by
    rw [List.length_append, List.length_append, List.length_replicate]
    omega
  ends := by
    have hroom : 1024 ≤ (bytes ++ more ++ List.replicate 1024 '\x00').length := by
      rw [List.length_append, List.length_replicate]
      omega
    rw [List.drop_append_of_le_length hroom]
    exact List.mem_append_right _ (List.mem_singleton_self _)

/-- Behind the bytes read there is what was on the stack. -/
theorem Stack.drop_after (bytes more : List Char) :
    (Stack.after bytes more).bytes.drop bytes.length =
      more ++ '\x00' :: List.replicate 1024 '\x00' := by
  have hbytes : (Stack.after bytes more).bytes =
      bytes ++ (more ++ '\x00' :: List.replicate 1024 '\x00') := by
    rw [← List.replicate_succ, List.replicate_succ', ← List.append_assoc, ← List.append_assoc]
    rfl
  rw [hbytes, List.drop_left]

/-- A zero ends the text the parser reads. -/
theorem parseTgidStr_zero (text rest : List Char) :
    parseTgidStr (text ++ '\x00' :: rest) = parseTgidStr text := by
  refine parseTgidStr_congr ?_
  rw [cString, List.takeWhile_append, List.takeWhile_cons_of_neg (by simp), List.append_nil,
    cString]
  split
  · rename_i hall
    exact ((List.takeWhile_prefix _).eq_of_length hall).symm
  · rfl

/-- What stands behind the bytes read is parsed as well. -/
theorem parseTgidStr_after (bytes more : List Char) :
    parseTgidStr (bytes ++ (Stack.after bytes more).bytes.drop bytes.length) =
      parseTgidStr (bytes ++ more) := by
  rw [Stack.drop_after, ← List.append_assoc, parseTgidStr_zero]

/-- Where no process can be signalled, a group id left on the stack is taken. -/
theorem ReadsOnly.killed (h : ReadsOnly s pid answer) (hmiss : s.Misses pid) :
    answer.killed := by
  by_contra hkilled
  have hzero := (h.zero (Stack.after [] "Tgid:5".toList) hmiss (Or.inl hkilled)).1
  rw [pid2tgid_of_misses hmiss, procTgid_unread hkilled] at hzero
  have hfive : parseTgidStr (Stack.after [] "Tgid:5".toList).bytes = 5 :=
    (parseTgidStr_after [] "Tgid:5".toList).trans (by decide)
  cases hfive.symm.trans hzero

/-! ## The result -/

/-- In every reachable state, the old contents of the buffer do not matter for a lookup exactly
when the pid is cached, or the process can be signalled and bytes that are read tell the number
whatever follows them. -/
theorem reads_only_iff : ReadsOnly (Tgids.run calls) pid answer ↔
    ¬(Tgids.run calls).Misses pid ∨ answer.Settled := by
  constructor
  · intro h
    by_cases hmiss : (Tgids.run calls).Misses pid
    · have hkilled := h.killed hmiss
      refine Or.inr ⟨hkilled, fun hopened content hcontent => ?_⟩
      refine settles_of_append fun more _ => ?_
      have hvalue := h.value (Stack.after (content.take 1024) more) content hmiss hkilled hopened
        hcontent
      rw [pid2tgid_of_misses hmiss, procTgid_read hkilled hopened hcontent,
        parseTgidStr_after] at hvalue
      exact hvalue
    · exact Or.inl hmiss
  · rintro (hhit | hsettled)
    · refine ⟨fun stack stack' _ => ?_, fun stack content hmiss => (hhit hmiss).elim,
        fun stack hmiss => (hhit hmiss).elim⟩
      rw [pid2tgid_of_not_misses (known_run calls) hhit,
        pid2tgid_of_not_misses (known_run calls) hhit]
    · refine ⟨fun stack stack' _ => ?_, fun stack content hmiss hkilled hopened hcontent => ?_,
        fun stack hmiss hnothing => ?_⟩
      · by_cases hmiss : (Tgids.run calls).Misses pid
        · rw [pid2tgid_of_misses hmiss, pid2tgid_of_misses hmiss,
            procTgid_settled hsettled stack stack']
        · rw [pid2tgid_of_not_misses (known_run calls) hmiss,
            pid2tgid_of_not_misses (known_run calls) hmiss]
      · rw [pid2tgid_of_misses hmiss, procTgid_read hkilled hopened hcontent,
          (hsettled.2 hopened content hcontent).append]
      · obtain ⟨hopened, content, hcontent, hnone⟩ :=
          hnothing.resolve_left (not_not.mpr hsettled.1)
        have hzero : (procTgid (answer.withStack stack)).1 = 0 := by
          rw [procTgid_read hsettled.1 hopened hcontent,
            (hsettled.2 hopened content hcontent).append, parseTgidStr_of_none hnone]
        rw [pid2tgid_of_misses hmiss, hzero]
        exact ⟨rfl, by rw [if_pos rfl]⟩

/-- A thread that cannot be signalled, and a group id left on the stack by an earlier lookup. -/
theorem group_id_left_five :
    ¬ReadsOnly (Tgids.run []) 5 { killed := false, content := none } := by
  intro h
  have hkilled := h.killed (Or.inr (by decide))
  cases hkilled

end Utrace
