import Utrace.Interpretation.TgidCache

/-!
# The entry replaced

A comment at the end of `pid2tgid_cache_put` calls the entry it replaces the least frequently
used one. The loop never lowers its bound, so that the entry is always the last one, and the
count of the entry replaced becomes that of the new one.
-/

namespace Utrace

/-- What the functions of the cache are called for. -/
inductive CacheCall where
  /-- `pid2tgid_cache_get(pid)`. -/
  | get (pid : Pid)
  /-- `pid2tgid_cache_put(pid, tgid)`. -/
  | put (pid tgid : Pid)

variable {cache : Pid2tgidCache} {calls : List CacheCall} {pid tgid : Pid} {i : Nat}
  {before : List Pid2tgidEntry} {last entry : Pid2tgidEntry}

namespace Pid2tgidCache

/-- The cache after one call. -/
def call (cache : Pid2tgidCache) : CacheCall → Pid2tgidCache
  | .get pid => (pid2tgidCacheGet cache pid).2
  | .put pid tgid => pid2tgidCachePut cache pid tgid

/-- The cache after calls, starting with the zeroed one. -/
def run (calls : List CacheCall) : Pid2tgidCache := calls.foldl call zeroed

/-- The entry a call finds. -/
def hit (cache : Pid2tgidCache) : CacheCall → Option Nat
  | .get pid => if pid = 0 then none else cache.entries.findIdx? fun entry => entry.pid = pid
  | .put _ _ => none

/-- How often the calls find their pid in entry `i`. -/
def hits (i : Nat) (cache : Pid2tgidCache) : List CacheCall → Nat
  | [] => 0
  | c :: calls => (if cache.hit c = some i then 1 else 0) + hits i (cache.call c) calls

/-- The new entry takes the place of one that no other is found less often than, and starts
with no hits of its own. -/
def ReplacesLfu (cache : Pid2tgidCache) (pid tgid : Pid) : Prop :=
  ∃ i victim, cache.entries[i]? = some victim ∧
    (∀ entry ∈ cache.entries, victim.refCount ≤ entry.refCount) ∧
    (pid2tgidCachePut cache pid tgid).entries = cache.entries.set i ⟨pid, tgid, 0⟩

/-! ## The counts -/

/-- A write changes the entry at its index only. -/
theorem getElem?_write (hentry : cache.entries[i]? = some entry) (j : Nat)
    (g : Pid2tgidEntry → Pid2tgidEntry) :
    (cache.write j g).entries[i]? = some (if j = i then g entry else entry) := by
  rw [write, List.getElem?_modify, hentry]
  rfl

/-- A call adds one to the count of the entry it finds. -/
theorem refCount_call (hentry : cache.entries[i]? = some entry) (c : CacheCall) :
    ∃ entry', (cache.call c).entries[i]? = some entry' ∧
      entry'.refCount = entry.refCount + if cache.hit c = some i then 1 else 0 := by
  cases c with
  | get pid =>
    by_cases hpid : pid = 0
    · exact ⟨entry, by simpa [call, pid2tgidCacheGet, hpid] using hentry, by simp [hit, hpid]⟩
    · cases hfind : cache.entries.findIdx? fun entry => entry.pid = pid with
      | none =>
        refine ⟨entry, ?_, by simp [hit, hpid, hfind]⟩
        simpa [call, pid2tgidCacheGet, hpid, hfind] using hentry
      | some j =>
        have hcall : cache.call (.get pid) =
            cache.write j fun entry => { entry with refCount := entry.refCount + 1 } := by
          simp [call, pid2tgidCacheGet, hpid, hfind]
        have hhit : cache.hit (.get pid) = some j := by simp [hit, hpid, hfind]
        rw [hcall, hhit]
        refine ⟨_, getElem?_write hentry j _, ?_⟩
        by_cases hj : j = i <;> simp [hj]
  | put pid tgid =>
    have hhit : cache.hit (.put pid tgid) ≠ some i := by simp [hit]
    rw [if_neg hhit, call, pid2tgidCachePut]
    by_cases hpid : pid = 0
    · exact ⟨entry, by simpa [hpid] using hentry, by simp⟩
    · rw [if_neg hpid]
      cases putScan pid 0 0 cache.entries with
      | none => exact ⟨entry, hentry, by simp⟩
      | some j =>
        refine ⟨_, getElem?_write hentry j _, ?_⟩
        by_cases hj : j = i <;> simp [hj]

/-- The calls add their hits to a count. -/
theorem refCount_foldl (calls : List CacheCall) (hentry : cache.entries[i]? = some entry) :
    ∃ entry', (calls.foldl call cache).entries[i]? = some entry' ∧
      entry'.refCount = entry.refCount + BitVec.ofNat 32 (hits i cache calls) := by
  induction calls generalizing cache entry with
  | nil => exact ⟨entry, hentry, (BitVec.add_zero _).symm⟩
  | cons c calls ih =>
    obtain ⟨next, hnext, hcount⟩ := refCount_call hentry c
    obtain ⟨final, hfinal, hrest⟩ := ih hnext
    refine ⟨final, hfinal, ?_⟩
    rw [hrest, hcount, hits, BitVec.ofNat_add, ← BitVec.add_assoc]
    by_cases hhit : cache.hit c = some i <;> simp [hhit]

/-- Each count is the number of hits since the cache was zeroed. -/
theorem refCount_run (calls : List CacheCall) (hi : i < pid2tgidCacheSize) :
    ∃ entry, (run calls).entries[i]? = some entry ∧
      entry.refCount = BitVec.ofNat 32 (hits i zeroed calls) := by
  have hzeroed : zeroed.entries[i]? = some {} := by
    rw [zeroed, List.getElem?_replicate, if_pos hi]
  obtain ⟨entry, hentry, hcount⟩ := refCount_foldl calls hzeroed
  exact ⟨entry, hentry, by simpa using hcount⟩

/-- Fewer hits than the bound are counted as they are. -/
theorem refCount_lt (hcounts : ∀ i < pid2tgidCacheSize, hits i zeroed calls < 0xFFFFFFFF) :
    ∀ entry ∈ (run calls).entries, entry.refCount < 0xFFFFFFFF := by
  intro entry hentry
  obtain ⟨i, hi, hget⟩ := List.getElem_of_mem hentry
  rw [(run calls).size] at hi
  obtain ⟨entry', hentry', hcount⟩ := refCount_run calls hi
  have hsame : entry' = entry := by
    rw [← hget]
    exact (List.getElem?_eq_some_iff.mp hentry').2.symm
  have hlt := hcounts i hi
  rw [← hsame, hcount, BitVec.lt_def, BitVec.toNat_ofNat, Nat.mod_eq_of_lt (by omega)]
  exact hlt

/-! ## The put -/

/-- The cache has a last slot. -/
theorem exists_last (cache : Pid2tgidCache) :
    ∃ before last, cache.entries = before ++ [last] ∧ before.length + 1 = pid2tgidCacheSize := by
  have hsize := cache.size
  rcases List.eq_nil_or_concat cache.entries with hnil | ⟨before, last, hentries⟩
  · rw [hnil] at hsize
    cases hsize
  · rw [List.concat_eq_append] at hentries
    rw [hentries, List.length_append, List.length_singleton] at hsize
    exact ⟨before, last, hentries, hsize⟩

/-- Where all entries are taken, a new pid goes over the last of them. -/
theorem put_full (hentries : cache.entries = before ++ [last])
    (hcounts : ∀ entry ∈ cache.entries, entry.refCount < 0xFFFFFFFF)
    (htaken : ∀ entry ∈ cache.entries, entry.pid ≠ 0) (hpid : pid ≠ 0)
    (hmiss : pid ∉ cache.pids) (tgid : Pid) :
    (pid2tgidCachePut cache pid tgid).entries =
      before ++ [{ last with pid := pid, tgid := tgid }] := by
  have hscan : putScan pid 0 0 cache.entries = some before.length := by
    have hall : ∀ entry ∈ before ++ [last],
        entry.pid ≠ pid ∧ entry.pid ≠ 0 ∧ entry.refCount < 0xFFFFFFFF := by
      rw [← hentries]
      intro entry hentry
      refine ⟨fun heq => hmiss ?_, htaken entry hentry, hcounts entry hentry⟩
      rw [← heq]
      exact List.mem_map_of_mem hentry
    rw [hentries, putScan_last hall, Nat.zero_add]
  rw [pid2tgidCachePut, if_neg hpid, hscan]
  exact entries_write_of_split hentries _

/-- The last entry is the right one to replace exactly when it was never found. -/
theorem replacesLfu_iff_last (hentries : cache.entries = before ++ [last])
    (hcounts : ∀ entry ∈ cache.entries, entry.refCount < 0xFFFFFFFF)
    (htaken : ∀ entry ∈ cache.entries, entry.pid ≠ 0) (hpid : pid ≠ 0)
    (hmiss : pid ∉ cache.pids) : cache.ReplacesLfu pid tgid ↔ last.refCount = 0 := by
  have hput := put_full hentries hcounts htaken hpid hmiss tgid
  constructor
  · rintro ⟨i, victim, hvictim, _, hset⟩
    rw [hput, hentries] at hset
    have hi : i < before.length + 1 := by
      have hlt := (List.getElem?_eq_some_iff.mp hvictim).1
      rwa [hentries, List.length_append] at hlt
    rcases Nat.lt_or_ge i before.length with hlt | hge
    · -- another entry written would leave the pid of the last one
      rw [List.set_append_left _ _ hlt] at hset
      have hlast := List.append_inj_right' hset rfl
      have hsame : pid = last.pid := congrArg Pid2tgidEntry.pid (List.singleton_inj.mp hlast)
      refine (hmiss ?_).elim
      rw [hsame]
      exact List.mem_map_of_mem (by simp [hentries])
    · rw [List.set_append_right _ _ hge, show i - before.length = 0 by omega] at hset
      have hlast := List.append_inj_right' hset rfl
      exact congrArg Pid2tgidEntry.refCount (List.singleton_inj.mp hlast)
  · intro hzero
    refine ⟨before.length, last, by simp [hentries], fun entry _ => ?_, ?_⟩
    · rw [hzero]
      rw [BitVec.le_def]
      exact Nat.zero_le _
    · rw [hput, hentries, List.set_append_right _ _ (Nat.le_refl _), Nat.sub_self, ← hzero]
      rfl

end Pid2tgidCache

/-! ## The result -/

/-- After any calls on the zeroed cache that fill it, the put of a new pid replaces a least
frequently used entry, with no hits passed on, exactly when no call found the last entry. -/
theorem replaces_lfu_iff
    (hcounts : ∀ i < pid2tgidCacheSize, Pid2tgidCache.hits i .zeroed calls < 0xFFFFFFFF)
    (htaken : ∀ entry ∈ (Pid2tgidCache.run calls).entries, entry.pid ≠ 0) (hpid : pid ≠ 0)
    (hmiss : pid ∉ (Pid2tgidCache.run calls).pids) :
    (Pid2tgidCache.run calls).ReplacesLfu pid tgid ↔
      Pid2tgidCache.hits (pid2tgidCacheSize - 1) .zeroed calls = 0 := by
  obtain ⟨before, last, hentries, hlength⟩ := (Pid2tgidCache.run calls).exists_last
  have hlast : before.length = pid2tgidCacheSize - 1 := Nat.eq_sub_of_add_eq hlength
  have hlt : pid2tgidCacheSize - 1 < pid2tgidCacheSize := by decide
  rw [Pid2tgidCache.replacesLfu_iff_last hentries (Pid2tgidCache.refCount_lt hcounts) htaken
    hpid hmiss]
  obtain ⟨entry, hentry, hcount⟩ := Pid2tgidCache.refCount_run calls hlt
  rw [hentries, ← hlast, List.getElem?_concat_length] at hentry
  rw [Option.some.inj hentry, hcount, ← BitVec.toNat_inj, BitVec.toNat_ofNat,
    Nat.mod_eq_of_lt (by have hfew := hcounts _ hlt; omega)]
  rfl

/-- Ten threads fill the cache. -/
def filling : List CacheCall := [.put 1 1, .put 2 2, .put 3 3, .put 4 4, .put 5 5, .put 6 6,
  .put 7 7, .put 8 8, .put 9 9, .put 10 10]

/-- After ten puts and one look at the first pid, the eleventh put replaces a least used entry. -/
theorem replaces_lfu_filling : (Pid2tgidCache.run (filling ++ [.get 1])).ReplacesLfu 11 11 :=
  (replaces_lfu_iff (by decide) (by decide) (by decide) (by decide)).mpr (by decide)

/-- The last entry was found once and the others never, and it is the one replaced. -/
theorem last_replaced_ten :
    (∀ i < pid2tgidCacheSize, Pid2tgidCache.hits i .zeroed (filling ++ [.get 10]) < 0xFFFFFFFF) ∧
      (∀ entry ∈ (Pid2tgidCache.run (filling ++ [.get 10])).entries, entry.pid ≠ 0) ∧
      11 ∉ (Pid2tgidCache.run (filling ++ [.get 10])).pids ∧
      ¬(Pid2tgidCache.run (filling ++ [.get 10])).ReplacesLfu 11 11 := by
  have hentries : (Pid2tgidCache.run (filling ++ [.get 10])).entries =
      (Pid2tgidCache.run filling).entries.take 9 ++ [⟨10, 10, 1⟩] := by decide
  refine ⟨by decide, by decide, by decide, ?_⟩
  rw [Pid2tgidCache.replacesLfu_iff_last hentries (by decide) (by decide) (by decide) (by decide)]
  decide

end Utrace
