import Utrace.Native.Types
import Mathlib.Data.Fintype.Basic
import Mathlib.Data.List.FinRange

/-!
# The thread slots of a process: `proc.c`, `tid2thread`

The slots are an array inside the process record, and a pointer to a slot is its index.
An index past the end names memory that is not the array's; what is found there is
passed in.
-/

namespace Utrace

/-- The fields `threads` and `hot_tid_idx` of `struct process`. -/
structure ThreadTable where
  threads : Fin maxThreadsTraced → Thread
  hotTidIdx : Int

namespace ThreadTable

/-- The table of a zero-filled record. -/
def zeroed : ThreadTable where
  threads _ := {}
  hotTidIdx := 0

/-- The slot an index names, unless it lies outside the array. -/
def slotAt (i : Int) : Option (Fin maxThreadsTraced) :=
  if h : 0 ≤ i ∧ i < maxThreadsTraced then some ⟨i.toNat, by omega⟩ else none

/-- `threads[i].tid`, where `beyond` is what lies outside the array. -/
def tidAt (table : ThreadTable) (beyond : Int → Pid) (i : Int) : Pid :=
  (slotAt i).elim (beyond i) fun k => (table.threads k).tid

end ThreadTable

/-- The loop of `reg_tid`, from a slot on: the slot that holds the tid, or else the first
free slot met. -/
def regScan (threads : Fin maxThreadsTraced → Thread) (tid : Pid) :
    List (Fin maxThreadsTraced) → Option (Fin maxThreadsTraced) →
      Fin maxThreadsTraced ⊕ Option (Fin maxThreadsTraced)
  | [], idxAva => .inr idxAva
  | i :: is, idxAva =>
    if (threads i).tid = 0 ∧ idxAva = none then regScan threads tid is (some i)
    else if (threads i).tid = tid then .inl i
    else regScan threads tid is idxAva

/-- `reg_tid`, with the index of the slot returned; `exit(1)` when no slot is left. -/
def regTid (table : ThreadTable) (tid : Pid) : Except Halt (ThreadTable × Nat) :=
  match regScan table.threads tid (List.finRange maxThreadsTraced) none with
  | .inl i => .ok (table, i)
  | .inr none => .error (.exit 1)
  | .inr (some idxAva) =>
    -- The counter the loop leaves behind.
    let i := maxThreadsTraced
    let thr := { table.threads idxAva with tid := tid, childIdx := BitVec.ofNat 8 i }
    .ok ({ threads := Function.update table.threads idxAva thr, hotTidIdx := i }, i)

/-- The first slot with a tid. -/
def scanTid (table : ThreadTable) (tid : Pid) : Option (Fin maxThreadsTraced) :=
  (List.finRange maxThreadsTraced).find? fun i => (table.threads i).tid = tid

/-- `dereg_tid`. -/
def deregTid (table : ThreadTable) (tid : Pid) : ThreadTable :=
  if tid = 0 then table
  else
    match scanTid table tid with
    | none => table
    | some i =>
      { threads := Function.update table.threads i { table.threads i with tid := 0 }
        hotTidIdx := if table.hotTidIdx = i then -1 else table.hotTidIdx }

/-- `get_proc`: how many slots away from `threads[0]` of its process the array is taken to
begin, for the thread in slot `k`. -/
def getProc (table : ThreadTable) (k : Fin maxThreadsTraced) : Int :=
  (k : Int) - (table.threads k).childIdx.toNat

/-- `tid2thread`, with the index of the slot. -/
def tid2thread (table : ThreadTable) (beyond : Int → Pid) (tid : Pid) : Option Int :=
  if tid = 0 then none
  else if table.hotTidIdx ≠ -1 ∧ table.tidAt beyond table.hotTidIdx = tid then
    some table.hotTidIdx
  else (scanTid table tid).map fun i => (i : Int)

/-! ## What `reg_tid` does -/

/-- The loop leaves early only at a slot that holds the tid. -/
theorem tid_of_regScan_inl {threads : Fin maxThreadsTraced → Thread} {tid : Pid}
    {is : List (Fin maxThreadsTraced)} {idxAva : Option (Fin maxThreadsTraced)}
    {k : Fin maxThreadsTraced} (h : regScan threads tid is idxAva = .inl k) :
    (threads k).tid = tid := by
  induction is generalizing idxAva with
  | nil => cases h
  | cons i is ih =>
    unfold regScan at h
    split at h
    · exact ih h
    · split at h
      · rename_i htid
        cases h
        exact htid
      · exact ih h

/-- Else it found the tid nowhere, and what it remembers is the first free slot. -/
theorem tid_of_regScan_inr {threads : Fin maxThreadsTraced → Thread} {tid : Pid}
    {is : List (Fin maxThreadsTraced)} {idxAva found : Option (Fin maxThreadsTraced)}
    (h : regScan threads tid is idxAva = .inr found) :
    (∀ k, found = some k → idxAva = some k ∨ (threads k).tid = 0) ∧
      (∀ i ∈ is, (threads i).tid = tid → tid = 0) ∧
      (found = none → idxAva = none ∧ ∀ i ∈ is, (threads i).tid ≠ 0) := by
  induction is generalizing idxAva with
  | nil =>
    cases h
    exact ⟨fun k hk => Or.inl hk, fun i hi => absurd hi List.not_mem_nil,
      fun hnone => ⟨hnone, fun i hi => absurd hi List.not_mem_nil⟩⟩
  | cons i is ih =>
    unfold regScan at h
    simp only [List.forall_mem_cons]
    split at h
    · rename_i hfree
      obtain ⟨hfound, hrest, hnone⟩ := ih h
      refine ⟨fun k hk => ?_, ⟨fun htid => htid.symm.trans hfree.1, hrest⟩, fun hk => ?_⟩
      · rcases hfound k hk with hk' | hk'
        · cases hk'
          exact Or.inr hfree.1
        · exact Or.inr hk'
      · cases (hnone hk).1
    · rename_i hfree
      split at h
      · cases h
      · rename_i htid
        obtain ⟨hfound, hrest, hnone⟩ := ih h
        refine ⟨hfound, ⟨fun heq => absurd heq htid, hrest⟩, fun hk => ?_⟩
        obtain ⟨hava, htaken⟩ := hnone hk
        exact ⟨hava, fun hzero => hfree ⟨hzero, hava⟩, htaken⟩

/-- `reg_tid` finds the tid and changes nothing, or puts it into a free slot, or finds neither
and gives up. -/
theorem regTid_cases (table : ThreadTable) (tid : Pid) :
    (∃ i, regTid table tid = .ok (table, i) ∧ ∃ k, (table.threads k).tid = tid) ∨
      (∃ table' i k, regTid table tid = .ok (table', i) ∧ (table.threads k).tid = 0 ∧
        (table'.threads k).tid = tid ∧ (∀ j, j ≠ k → table'.threads j = table.threads j) ∧
        ∀ j, (table.threads j).tid = tid → tid = 0) ∨
      regTid table tid = .error (.exit 1) ∧
        ∀ j, (table.threads j).tid ≠ 0 ∧ (table.threads j).tid ≠ tid := by
  unfold regTid
  cases hscan : regScan table.threads tid (List.finRange maxThreadsTraced) none with
  | inl k => exact Or.inl ⟨k, rfl, k, tid_of_regScan_inl hscan⟩
  | inr found =>
    obtain ⟨hfound, hother, hnone⟩ := tid_of_regScan_inr hscan
    cases found with
    | none =>
      have htaken := (hnone rfl).2
      refine Or.inr (Or.inr ⟨rfl, fun j => ⟨htaken j (List.mem_finRange j), fun htid => ?_⟩⟩)
      exact htaken j (List.mem_finRange j) (htid.trans (hother j (List.mem_finRange j) htid))
    | some k =>
      have hfree := (hfound k rfl).resolve_left (by simp)
      refine Or.inr (Or.inl ⟨_, _, k, rfl, hfree, ?_, fun j hj => ?_,
        fun j => hother j (List.mem_finRange j)⟩)
      · dsimp only
        rw [Function.update_self]
      · exact Function.update_of_ne hj ..

/-- `dereg_tid` frees a slot that holds the tid, or finds none and changes nothing. -/
theorem deregTid_cases (table : ThreadTable) {tid : Pid} (ht : tid ≠ 0) :
    (∃ k, (table.threads k).tid = tid ∧ ((deregTid table tid).threads k).tid = 0 ∧
        ∀ j, j ≠ k → (deregTid table tid).threads j = table.threads j) ∨
      (∀ k, (table.threads k).tid ≠ tid) ∧ deregTid table tid = table := by
  unfold deregTid
  rw [if_neg ht]
  cases hscan : scanTid table tid with
  | none =>
    refine Or.inr ⟨fun k htid => ?_, rfl⟩
    have hnone := List.find?_eq_none.mp hscan k (List.mem_finRange k)
    exact hnone (decide_eq_true htid)
  | some k =>
    have htid := List.find?_some (p := fun i => decide ((table.threads i).tid = tid)) hscan
    refine Or.inl ⟨k, of_decide_eq_true htid, ?_, fun j hj => ?_⟩
    · dsimp only
      rw [Function.update_self]
    · exact Function.update_of_ne hj ..

/-! ## An empty table -/

/-- No slot is taken. -/
def ThreadTable.Empty (table : ThreadTable) : Prop := ∀ i, (table.threads i).tid = 0

/-- An empty table registers no thread. -/
theorem scanTid_of_empty {table : ThreadTable} (h : table.Empty) {tid : Pid} (ht : tid ≠ 0) :
    scanTid table tid = none := by
  unfold scanTid
  rw [List.find?_eq_none]
  intro i _
  rw [h i]
  simpa using ht.symm

/-- Deregistering leaves an empty table as it is. -/
theorem deregTid_of_empty {table : ThreadTable} (h : table.Empty) (tid : Pid) :
    deregTid table tid = table := by
  unfold deregTid
  split
  · rfl
  · rename_i ht
    rw [scanTid_of_empty h ht]

/-- Once a free slot is remembered, a scan that meets no `tid` keeps it. -/
theorem regScan_of_free {threads : Fin maxThreadsTraced → Thread} {tid : Pid}
    {is : List (Fin maxThreadsTraced)} (h : ∀ i ∈ is, (threads i).tid ≠ tid)
    (idxAva : Fin maxThreadsTraced) :
    regScan threads tid is (some idxAva) = .inr (some idxAva) := by
  induction is with
  | nil => rfl
  | cons i is ih =>
    unfold regScan
    rw [if_neg (by simp), if_neg (h i (List.mem_cons_self ..))]
    exact ih fun j hj => h j (List.mem_cons_of_mem i hj)

/-- Over free slots the loop ends with one of them. -/
theorem regScan_of_empty {threads : Fin maxThreadsTraced → Thread} {tid : Pid} (ht : tid ≠ 0)
    {is : List (Fin maxThreadsTraced)} (h : ∀ i ∈ is, (threads i).tid = 0) (hne : is ≠ []) :
    ∃ idxAva, regScan threads tid is none = .inr (some idxAva) := by
  cases is with
  | nil => exact (hne rfl).elim
  | cons i is =>
    refine ⟨i, ?_⟩
    unfold regScan
    rw [if_pos ⟨h i (List.mem_cons_self ..), rfl⟩]
    exact regScan_of_free (fun j hj => by rw [h j (List.mem_cons_of_mem i hj)]; exact ht.symm) i

/-- In an empty table a free slot is found, but the index past the end is handed back and
remembered. -/
theorem regTid_of_empty {table : ThreadTable} (h : table.Empty) {tid : Pid} (ht : tid ≠ 0) :
    ∃ table', regTid table tid = .ok (table', maxThreadsTraced) ∧
      table'.hotTidIdx = maxThreadsTraced := by
  have hne : List.finRange maxThreadsTraced ≠ [] := by
    rw [ne_eq, List.finRange_eq_nil_iff]
    decide
  obtain ⟨idxAva, hscan⟩ := regScan_of_empty ht (fun i _ => h i) hne
  unfold regTid
  rw [hscan]
  exact ⟨_, rfl, rfl⟩

end Utrace
