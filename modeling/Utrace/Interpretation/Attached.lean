import Utrace.Interpretation.Bytes
import Utrace.Interpretation.Counted
import Utrace.Interpretation.Seen
import Utrace.Native.Session

/-!
# The text of every attached process

As long as no thread is disturbed while it is being stepped over a breakpoint, the tables of a
process and the flags of its threads tell where its text holds traps: at the entries that are
referenced, but for those a thread is being stepped over.
-/

namespace Utrace

/-! ## Registered slots -/

/-- The record of a slot, taken by a thread. -/
def Thread.takenBy (tid : Pid) (thr : Thread) : Thread := { thr with tid := tid }.bare

/-- Between two tables only free slots were given to threads. -/
structure ThreadTable.Registers (table table' : ThreadTable) : Prop where
  records : ∀ k tid, (table'.threads k).takenBy tid = (table.threads k).takenBy tid
  tids : ∀ k, (table.threads k).tid = 0 ∨ (table'.threads k).tid = (table.threads k).tid

namespace ThreadTable

variable {table table' table'' : ThreadTable}

/-- A table gives no slots away. -/
theorem Registers.refl (table : ThreadTable) : table.Registers table :=
  ⟨fun _ _ => rfl, fun _ => Or.inr rfl⟩

/-- One after the other, threads are given slots. -/
theorem Registers.trans (h : table.Registers table') (h' : table'.Registers table'') :
    table.Registers table'' := by
  constructor
  · intro k tid
    rw [h'.records, h.records]
  · intro k
    rcases h.tids k with hfree | hkept
    · exact Or.inl hfree
    · rcases h'.tids k with hfree | hkept'
      · exact Or.inl (hkept.symm.trans hfree)
      · exact Or.inr (hkept'.trans hkept)

/-- `reg_tid` gives a slot away. -/
theorem registers_regTid {tid : Pid} {r : ThreadTable × Nat} (h : regTid table tid = .ok r) :
    table.Registers r.1 := by
  unfold regTid at h
  cases hscan : regScan table.threads tid (List.finRange maxThreadsTraced) none with
  | inl k =>
    rw [hscan] at h
    cases h
    exact .refl table
  | inr found =>
    rw [hscan] at h
    cases found with
    | none => cases h
    | some free =>
      cases h
      have hfree := ((tid_of_regScan_inr hscan).1 free rfl).resolve_left nofun
      constructor
      · intro k tid'
        by_cases hk : k = free
        · subst hk
          simp [Thread.takenBy, Thread.bare]
        · simp [Function.update_of_ne hk]
      · intro k
        by_cases hk : k = free
        · subst hk
          exact Or.inl hfree
        · exact Or.inr (by simp [Function.update_of_ne hk])

/-- The same slot is written after both. -/
theorem Registers.write (h : table.Registers table') (i : Int) (thr : Thread) :
    (table.write i thr).Registers (table'.write i thr) := by
  unfold ThreadTable.write
  cases slotAt i with
  | none => exact h
  | some free =>
    constructor
    · intro k tid
      by_cases hk : k = free
      · subst hk
        simp
      · simpa [Function.update_of_ne hk] using h.records k tid
    · intro k
      by_cases hk : k = free
      · subst hk
        exact Or.inr (by simp)
      · simpa [Function.update_of_ne hk] using h.tids k

/-- A slot is found by its index. -/
theorem slotAt_val (k : Fin maxThreadsTraced) : slotAt (k : Int) = some k := by
  simp [slotAt]

/-- What `tid2thread` finds within the array holds the tid. -/
theorem tid_of_tid2thread {beyond : Int → Pid} {tid : Pid} {i : Int} {k : Fin maxThreadsTraced}
    (h : tid2thread table beyond tid = some i) (hk : slotAt i = some k) :
    (table.threads k).tid = tid := by
  unfold tid2thread at h
  split at h
  · cases h
  · split at h
    · rename_i hhot
      cases h
      simpa [tidAt, hk] using hhot.2
    · cases hscan : scanTid table tid with
      | none => simp [hscan] at h
      | some k' =>
        simp only [hscan] at h
        cases h
        have heq : k' = k := Option.some.inj ((slotAt_val k').symm.trans hk)
        rw [← heq]
        have htid := List.find?_some (p := fun i => decide ((table.threads i).tid = tid)) hscan
        exact of_decide_eq_true htid

/-- What `reg_tid` returns within the array holds the tid. -/
theorem tid_of_regTid {tid : Pid} {r : ThreadTable × Nat} {k : Fin maxThreadsTraced}
    (h : regTid table tid = .ok r) (hk : slotAt r.2 = some k) : (r.1.threads k).tid = tid := by
  unfold regTid at h
  cases hscan : regScan table.threads tid (List.finRange maxThreadsTraced) none with
  | inl k' =>
    rw [hscan] at h
    cases h
    have heq : k' = k := Option.some.inj ((slotAt_val k').symm.trans hk)
    rw [← heq]
    exact tid_of_regScan_inl hscan
  | inr found =>
    rw [hscan] at h
    cases found with
    | none => cases h
    | some free =>
      cases h
      simp [slotAt] at hk

end ThreadTable

/-- A thread that is found has its process on the list, and a slot within the array holds its
tid. -/
theorem Tracer.lookup_registers {tr : Tracer} {w : Wait} {p : ProcNode} {i : Int}
    (h : tr.lookup w = .ok (p, i)) :
    (∃ q ∈ tr.procs, q.addr = p.addr ∧ q.tracee = p.tracee ∧ q.table.Registers p.table) ∧
      ∀ k, ThreadTable.slotAt i = some k → (p.table.threads k).tid = w.tid := by
  unfold Tracer.lookup at h
  split at h
  · cases h
  cases hfound : pid2proc tr.procs w.pid with
  | none => simp [hfound] at h
  | some q =>
    have hmem : q ∈ tr.procs := List.mem_of_find?_eq_some hfound
    cases hslot : tid2thread q.table w.beyond w.tid with
    | some j =>
      simp only [hfound, hslot, Except.ok.injEq, Prod.mk.injEq] at h
      obtain ⟨rfl, rfl⟩ := h
      exact ⟨⟨q, hmem, rfl, rfl, .refl _⟩, fun k => ThreadTable.tid_of_tid2thread hslot⟩
    | none =>
      cases hreg : regTid q.table w.tid with
      | error halt => simp [hfound, hslot, hreg, Except.map] at h
      | ok r =>
        simp only [hfound, hslot, hreg, Except.map, Except.ok.injEq, Prod.mk.injEq] at h
        obtain ⟨rfl, rfl⟩ := h
        exact ⟨⟨q, hmem, rfl, rfl, ThreadTable.registers_regTid hreg⟩,
          fun k => ThreadTable.tid_of_regTid hreg⟩

/-! ## What the tables tell of the text -/

namespace ProcNode

/-- A thread of the process is being stepped over the breakpoint. -/
def Steps (p : ProcNode) (a : Addr) : Prop :=
  ∃ k, (p.table.threads k).breakpointBeingEnabled = some a

/-- A thread other than that of slot `k` is. -/
def StepsBut (p : ProcNode) (k : Fin maxThreadsTraced) (a : Addr) : Prop :=
  ∃ j, j ≠ k ∧ (p.table.threads j).breakpointBeingEnabled = some a

/-- By the tables a trap is planted: the breakpoints of the process are enabled, the entry is
referenced, and no thread is being stepped over it. -/
def Planted (p : ProcNode) (a : Addr) : Prop :=
  p.tracee.proc.breakpointsEnabled = 1 ∧ 0 < p.tracee.enabledAt a ∧ ¬p.Steps a

/-- A trap of the thread in slot `k` that disturbs no other thread being stepped: a step that ends
plants no trap under another one, and a return drops no last reference there. -/
structure Orderly (p : ProcNode) (k : Fin maxThreadsTraced) (brk : Addr) : Prop where
  rearm : ∀ a, (p.table.threads k).breakpointBeingEnabled = some a → ¬p.StepsBut k a
  last : (p.table.threads k).breakpointBeingEnabled = none →
    ∀ n, (p.table.threads k).callstack.returning brk = some n → ∀ a, p.StepsBut k a →
      frameRefs ((p.table.threads k).callstack.elems.take (n + 1)) a < p.tracee.enabledAt a

/-- The text is what it was when the process was opened, but for the traps the tables tell of. -/
def Told (image : Addr → Byte) (text : Set Addr) (p : ProcNode) : Prop :=
  ∀ a ∈ text, (p.Planted a → p.tracee.mem a = trap) ∧ (¬p.Planted a → p.tracee.mem a = image a)

/-- What is known of the text of a listed process: nothing is planted yet, or the cells are in
order, and a cell a thread is being stepped over is referenced and lifted. -/
inductive TextState (image : Addr → Byte) (text : Set Addr) (p : ProcNode) : Prop
  | fresh (hbe : p.tracee.proc.breakpointsEnabled = -1) (hsteps : ∀ a, ¬p.Steps a)
      (hcell : ∀ a ∈ text, (p.tracee.cell a).Fresh (image a))
  | planted (hbe : p.tracee.proc.breakpointsEnabled = 1)
      (hcell : ∀ a ∈ text, (p.tracee.cell a).Sound (image a) (p.Steps a))

/-- A listed process whose text is in order. -/
structure InOrder (image : Addr → Byte) (text : Set Addr) (p : ProcNode) : Prop where
  pid : p.tracee.proc.pid ≠ 0
  pushed : ∀ k, (p.table.threads k).callstack.Pushed
  state : p.TextState image text

variable {image : Addr → Byte} {text : Set Addr} {p : ProcNode}

/-- Of a process whose text is in order the tables tell the text. -/
theorem TextState.told (h : p.TextState image text) : p.Told image text := by
  intro a ha
  cases h with
  | fresh hbe _ hcell =>
    refine ⟨fun hplanted => ?_, fun _ => (hcell a ha).byte⟩
    exact absurd (hbe.symm.trans hplanted.1) (by decide)
  | planted hbe hcell =>
    have hsound := hcell a ha
    refine ⟨fun hplanted => hsound.trapped hplanted.2.2 hplanted.2.1, fun hnot => ?_⟩
    by_cases hsteps : p.Steps a
    · exact (hsound.stepped hsteps).2
    · refine hsound.original ?_
      by_contra hz
      have hnonneg := hsound.nonneg
      exact hnot ⟨hbe, lt_of_le_of_ne hnonneg (Ne.symm hz), hsteps⟩

/-- The text of a process with the same tables, and the same bytes there. -/
theorem Told.congr {p' : ProcNode} (h : p.Told image text)
    (hproc : p'.tracee.proc = p.tracee.proc) (htable : p'.table = p.table)
    (hmem : ∀ a ∈ text, p'.tracee.mem a = p.tracee.mem a) : p'.Told image text := by
  intro a ha
  have hplanted : p'.Planted a ↔ p.Planted a := by
    unfold Planted Steps Tracee.enabledAt Tracee.entry
    rw [hproc, htable]
  rw [hplanted, hmem a ha]
  exact h a ha

/-- The memory of the process changes outside its text. -/
theorem InOrder.store (h : p.InOrder image text) {mem : Addr → Byte}
    (hmem : ∀ a ∈ text, mem a = p.tracee.mem a) :
    InOrder image text { p with tracee := { p.tracee with mem := mem } } := by
  have hcell : ∀ a ∈ text, Tracee.cell { p.tracee with mem := mem } a = p.tracee.cell a :=
    fun a ha => Tracee.cell_store (hmem a ha)
  refine ⟨h.pid, h.pushed, ?_⟩
  cases h.state with
  | fresh hbe hsteps hc => exact .fresh hbe hsteps fun a ha => hcell a ha ▸ hc a ha
  | planted hbe hc => exact .planted hbe fun a ha => hcell a ha ▸ hc a ha

/-- A process just opened, with the bytes it has then. -/
theorem InOrder.opened (env : Env) (filename : String) {pid : Pid} (hpid : pid ≠ 0)
    {mem : Addr → Byte} (hmem : ∀ a ∈ text, mem a = image a) {addr : Nat} {table : ThreadTable}
    (htable : ThreadTable.zeroed.Registers table) :
    InOrder image text ⟨addr, openTracee env filename pid mem, table⟩ := by
  have hzeroed : ∀ k,
      (table.threads k).bare = { ({} : Thread) with tid := (table.threads k).tid } :=
    fun k => htable.records k (table.threads k).tid
  refine ⟨?_, fun k => ?_, ?_⟩
  · exact (Tracee.pid_of_header (header_openTracee env filename pid mem)).trans_ne hpid
  · have hcallstack := congrArg Thread.callstack (hzeroed k)
    change (table.threads k).callstack.Pushed
    rw [show (table.threads k).callstack = _ from hcallstack]
    exact fun _ hmem => by cases hmem
  · cases TextState.opened env filename pid mem text with
    | fresh hbe _ hcell =>
      refine .fresh hbe ?_ fun a ha => hmem a ha ▸ hcell a ha
      rintro a ⟨k, hk⟩
      have hbeing := congrArg Thread.breakpointBeingEnabled (hzeroed k)
      cases (show (table.threads k).breakpointBeingEnabled = none from hbeing).symm.trans hk
    | planted hbe => cases hbe
    | lifted hbe => cases hbe

/-- Giving free slots to threads touches neither the flags nor the calls. -/
theorem InOrder.registers {addr : Nat} {tracee : Tracee} {table table' : ThreadTable}
    (h : InOrder image text ⟨addr, tracee, table⟩) (hreg : table.Registers table') :
    InOrder image text ⟨addr, tracee, table'⟩ := by
  have hbeing : ∀ k, (table'.threads k).breakpointBeingEnabled =
      (table.threads k).breakpointBeingEnabled := by
    intro k
    have hrecord := congrArg Thread.breakpointBeingEnabled (hreg.records k 0)
    exact hrecord
  have hcallstack : ∀ k, (table'.threads k).callstack = (table.threads k).callstack := by
    intro k
    have hrecord := congrArg Thread.callstack (hreg.records k 0)
    exact hrecord
  have hsteps : ∀ a, Steps ⟨addr, tracee, table'⟩ a ↔ Steps ⟨addr, tracee, table⟩ a :=
    fun a => exists_congr fun k => by rw [hbeing]
  refine ⟨h.pid, fun k => ?_, ?_⟩
  · have hpushed := h.pushed k
    dsimp only at hpushed ⊢
    rwa [hcallstack]
  · cases h.state with
    | fresh hbe hnone hcell => exact .fresh hbe (fun a hs => hnone a ((hsteps a).mp hs)) hcell
    | planted hbe hcell =>
      refine .planted hbe fun a ha => ?_
      rw [hsteps]
      exact hcell a ha

end ProcNode

/-! ## One event -/

/-- As long as references are left, deleting some changes no byte. -/
theorem Cell.byte_delete_iterate (unset : Byte) (c : Cell) {k : Nat} (hk : (k : Int) < c.refs) :
    ((Cell.delete unset)^[k] c).byte = c.byte := by
  induction k with
  | zero => rfl
  | succ k ih =>
    rw [Function.iterate_succ_apply', Cell.byte_delete, Cell.refs_delete_iterate,
      if_neg (by omega), ih (by omega)]

/-- A trap of a thread leaves the cells the others are being stepped over as they have to be: what
it plants again is none of these, and what it pops is not their last reference. -/
theorem Hit.stepped_others {env : Env} {f f' : Focus} {stop : Stop} {brk : Addr}
    {orig : Addr → Byte} {text : Set Addr} {others : Addr → Prop} (h : Hit env f stop brk f')
    (hpid : f.tracee.proc.pid ≠ 0)
    (hcell : ∀ a ∈ text, (f.tracee.cell a).Sound (orig a)
      (f.thr.breakpointBeingEnabled = some a ∨ others a))
    (hrearm : ∀ a, f.thr.breakpointBeingEnabled = some a → ¬others a)
    (hlast : f.thr.breakpointBeingEnabled = none → ∀ n, f.thr.callstack.returning brk = some n →
      ∀ a, others a → frameRefs (f.thr.callstack.elems.take (n + 1)) a < f.tracee.enabledAt a)
    {a : Addr} (ha : a ∈ text) (hother : others a) :
    0 < (f'.tracee.cell a).refs ∧ f'.tracee.mem a = orig a := by
  have hsound := hcell a ha
  obtain ⟨hpos, hbyte⟩ := hsound.stepped (Or.inr hother)
  have hoff : ∀ {c : Addr → Cell}, SteppedOff env c brk f' → 0 < (c a).refs →
      (c a).byte = orig a → (c a).saved = some (orig a) →
        0 < (f'.tracee.cell a).refs ∧ f'.tracee.mem a = orig a := by
    intro c hoff hrefs hmem hsaved
    rw [← Tracee.byte_cell, hoff.cell]
    split
    · rename_i hbrk
      subst hbrk
      refine ⟨by rwa [Cell.refs, Cell.count_disable, ← Cell.refs], ?_⟩
      rw [Cell.disable, if_pos hrefs.ne', Cell.lift]
      cases hc : (c a).count with
      | none => exact hmem
      | some n => rw [hsaved, Option.getD_some]
    · exact ⟨hrefs, hmem⟩
  have hsaved := hsound.saved (Cell.count_ne_none_of_refs hpos)
  cases h with
  | rearm b hbeing ht =>
    have hne : a ≠ b := by
      rintro rfl
      exact hrearm a hbeing hother
    have hsame : f'.tracee.cell a = f.tracee.cell a := by
      rw [ht, cell_enableEntry, if_neg hne]
    rw [← Tracee.byte_cell, hsame]
    exact ⟨hpos, hbyte⟩
  | ret n _ hnone hreturning _ _ _ hoff' =>
    have hleft := hlast hnone n hreturning a hother
    rw [← Tracee.refs_cell] at hleft
    refine hoff hoff' ?_ ?_ ?_
    · rw [Focus.popCells, Cell.refs_delete_iterate]
      omega
    · rw [Focus.popCells, Cell.byte_delete_iterate _ _ hleft]
      exact hbyte
    · have hshared : (Focus.popCells env f (n + 1) a).Shared (orig a) _ :=
        hsound.toShared.delete_iterate hleft.le
      refine hshared.saved (Cell.count_ne_none_of_refs ?_)
      rw [Focus.popCells, Cell.refs_delete_iterate]
      omega
  | entry sym _ _ _ _ hoff' =>
    have hpushed : 0 < (f.pushCells stop.stackTop a).refs ∧
        (f.pushCells stop.stackTop a).byte = orig a ∧
          (f.pushCells stop.stackTop a).saved = some (orig a) := by
      unfold Focus.pushCells
      split
      · rw [decide_eq_true hpid, Cell.insert, if_neg fun hz => hpos.ne' hz.1]
        exact ⟨by simp only [Cell.refs, Option.getD_some] at hpos ⊢; omega, hbyte, hsaved⟩
      · exact ⟨hpos, hbyte, hsaved⟩
    exact hoff hoff' hpushed.1 hpushed.2.1 hpushed.2.2
  | stray _ _ _ ht =>
    rw [ht]
    exact ⟨hpos, hbyte⟩

/-- Once the breakpoints are enabled, an event changes neither the tracee nor the flag of its
thread, or lifts everything and lets the process go, or is a trap. -/
theorem handle_tracee {env : Env} {f f' : Focus} {stop : Stop} (h : handle env f stop = .ok f')
    (hpushed : f.thr.callstack.Pushed) (hbe : f.tracee.proc.breakpointsEnabled = 1) :
    (f'.tracee = f.tracee ∧ f'.thr.breakpointBeingEnabled = f.thr.breakpointBeingEnabled) ∨
      (f'.listed = false ∧ f'.tracee = disableAllBreakpoints env f.tracee) ∨
      (f'.listed = f.listed ∧
        ∃ brk, (waitForSomething env f stop).2 = .breakpoint brk ∧ Hit env f stop brk f') := by
  cases (handle_effect h).1 with
  | first hfirst => exact absurd (hbe.symm.trans hfirst) (by decide)
  | line _ _ ht _ hb => exact Or.inl ⟨ht, hb⟩
  | detach _ ht _ _ _ hlisted => exact Or.inr (Or.inl ⟨hlisted, ht⟩)
  | syscall _ _ _ ht _ hb => exact Or.inl ⟨ht (by rw [hbe]; decide), hb⟩
  | sysret _ _ _ _ _ _ _ _ ht _ _ hb => exact Or.inl ⟨ht, hb⟩
  | exec n hexec hsys => exact (hpushed.not_exec hexec hsys).elim
  | breakpoint _ hhit hclass =>
    obtain ⟨_, ip, _, hhandle⟩ := handle_of_class hclass (by rintro ⟨⟩)
    obtain ⟨-, -, hlisted, -⟩ := processBreakpoint_hit (hhandle.symm.trans h)
    exact Or.inr (Or.inr ⟨hlisted, _, hclass, hhit⟩)

namespace ProcNode

variable {env : Env} {image : Addr → Byte} {text : Set Addr} {p : ProcNode}
  {k : Fin maxThreadsTraced} {f f' : Focus} {stop : Stop}

/-- What the threads are being stepped over, once the record of one of them is written. -/
theorem steps_write {i : Int} (hi : ThreadTable.slotAt i = some k) (tracee : Tracee)
    (thr : Thread) (a : Addr) :
    Steps ⟨p.addr, tracee, p.table.write i thr⟩ a ↔
      thr.breakpointBeingEnabled = some a ∨ p.StepsBut k a := by
  unfold Steps StepsBut
  have hwrite : ∀ j, (p.table.write i thr).threads j =
      if j = k then thr else p.table.threads j := by
    intro j
    simp only [ThreadTable.write, hi, Option.elim_some]
    exact Function.update_apply ..
  constructor
  · rintro ⟨j, hj⟩
    dsimp only at hj
    rw [hwrite] at hj
    split at hj
    · exact Or.inl hj
    · rename_i hne
      exact Or.inr ⟨j, hne, hj⟩
  · rintro (hthr | ⟨j, hne, hj⟩)
    · exact ⟨k, by dsimp only; rwa [hwrite, if_pos rfl]⟩
    · exact ⟨j, by dsimp only; rwa [hwrite, if_neg hne]⟩

/-- The record of a thread is among those of the process. -/
theorem steps_iff (p : ProcNode) (k : Fin maxThreadsTraced) (a : Addr) :
    p.Steps a ↔ (p.table.threads k).breakpointBeingEnabled = some a ∨ p.StepsBut k a := by
  constructor
  · rintro ⟨j, hj⟩
    by_cases hne : j = k
    · exact Or.inl (hne ▸ hj)
    · exact Or.inr ⟨j, hne, hj⟩
  · rintro (hk | ⟨j, _, hj⟩)
    · exact ⟨k, hk⟩
    · exact ⟨j, hj⟩

/-- The first event plants every entry, whatever record it is handled with. -/
theorem InOrder.first {tr : Tracer} {w : Wait} {i : Int} (h : p.InOrder image text)
    (hbe : p.tracee.proc.breakpointsEnabled = -1)
    (hhandle : handle env (tr.focus w p i) w.stop = .ok f') :
    f'.listed = true ∧ InOrder image text ⟨p.addr, f'.tracee, p.table.write i f'.thr⟩ := by
  rw [handle_first (f := tr.focus w p i) hbe] at hhandle
  cases hhandle
  have hheader := header_enableAllBreakpoints p.tracee
  have hwritten : ∀ j, ((p.table.write i { p.table.slot w.past i with
      instructionPointer := 0 }).threads j).breakpointBeingEnabled =
        (p.table.threads j).breakpointBeingEnabled ∧
      ((p.table.write i { p.table.slot w.past i with
        instructionPointer := 0 }).threads j).callstack = (p.table.threads j).callstack := by
    intro j
    unfold ThreadTable.write ThreadTable.slot
    cases ThreadTable.slotAt i with
    | none => exact ⟨rfl, rfl⟩
    | some k =>
      by_cases hj : j = k
      · subst hj
        simp
      · simp [Function.update_of_ne hj]
  refine ⟨rfl, ?_, fun j => ?_, ?_⟩
  · change (enableAllBreakpoints p.tracee).proc.pid ≠ 0
    rw [Tracee.pid_of_header hheader]
    exact h.pid
  · have hpushed := h.pushed j
    rw [← (hwritten j).2] at hpushed
    exact hpushed
  · cases h.state with
    | fresh _ hsteps hcell =>
      refine .planted (congrArg Process.breakpointsEnabled hheader) fun a ha => ?_
      have hnone : ∀ a, ¬Steps ⟨p.addr, enableAllBreakpoints p.tracee, p.table.write i
          { p.table.slot w.past i with instructionPointer := 0 }⟩ a := by
        rintro a ⟨j, hj⟩
        exact hsteps a ⟨j, (hwritten j).1.symm.trans hj⟩
      have hshared := (hcell a ha).enable (Steps ⟨p.addr, enableAllBreakpoints p.tracee,
        p.table.write i { p.table.slot w.past i with instructionPointer := 0 }⟩ a)
      rw [← if_pos (c := p.tracee.proc.breakpointsEnabled ≤ 0) (by rw [hbe]; decide)
        (t := (p.tracee.cell a).enable) (e := p.tracee.cell a),
        ← cell_enableAllBreakpoints] at hshared
      exact { hshared with stepped := fun hs => absurd hs (hnone a) }
    | planted hone => exact absurd (hone.symm.trans hbe) (by decide)

/-- An event of a thread in its slot, orderly if it is a trap, leaves the text in order, and as the
tables tell if the process leaves the list. -/
theorem InOrder.event {tr : Tracer} {w : Wait} {i : Int} (h : p.InOrder image text)
    (hi : ThreadTable.slotAt i = some k) (hbe : p.tracee.proc.breakpointsEnabled = 1)
    (horderly : ∀ brk, tr.classify env w p i = .breakpoint brk → p.Orderly k brk)
    (hhandle : handle env (tr.focus w p i) w.stop = .ok f') :
    (f'.listed = true → InOrder image text ⟨p.addr, f'.tracee, p.table.write i f'.thr⟩) ∧
      (f'.listed = false → Told image text ⟨p.addr, f'.tracee, p.table⟩) := by
  have hthr : (tr.focus w p i).thr = p.table.threads k := by
    simp [Tracer.focus, ThreadTable.slot, hi]
  have hcell : ∀ a ∈ text, (p.tracee.cell a).Sound (image a)
      ((tr.focus w p i).thr.breakpointBeingEnabled = some a ∨ p.StepsBut k a) := by
    intro a ha
    rw [hthr, ← steps_iff]
    cases h.state with
    | fresh hfirst => exact absurd (hbe.symm.trans hfirst) (by decide)
    | planted _ hcell => exact hcell a ha
  have hpushed : (tr.focus w p i).thr.callstack.Pushed := hthr ▸ h.pushed k
  have hwritten : ∀ j, ((p.table.write i f'.thr).threads j).callstack.Pushed := by
    intro j
    simp only [ThreadTable.write, hi, Option.elim_some, Function.update_apply]
    split
    · exact (handle_effect hhandle).1.pushed hpushed
    · exact h.pushed j
  rcases handle_tracee hhandle hpushed hbe with ⟨ht, hb⟩ | ⟨hlisted, ht⟩ |
    ⟨hlisted, brk, hclass, hhit⟩
  · have ht : f'.tracee = p.tracee := ht
    rw [ht]
    refine ⟨fun _ => ⟨h.pid, hwritten, .planted hbe fun a ha => ?_⟩, fun _ => h.state.told⟩
    rw [steps_write hi, hb]
    exact hcell a ha
  · refine ⟨fun hl => absurd (hl.symm.trans hlisted) (by decide), fun _ a ha => ⟨?_, fun _ => ?_⟩⟩
    · rintro ⟨hone, -⟩
      have hzero : f'.tracee.proc.breakpointsEnabled = 0 := by
        rw [ht]
        rfl
      exact absurd (hzero.symm.trans hone) (by decide)
    · have hne : p.tracee.proc.breakpointsEnabled ≠ 0 := by
        rw [hbe]
        decide
      change f'.tracee.mem a = image a
      rw [ht]
      exact mem_disableAllBreakpoints hne (hcell a ha)
  · have hlisted : f'.listed = true := hlisted
    refine ⟨fun _ => ⟨?_, hwritten, .planted (hhit.breakpointsEnabled.trans hbe) fun a ha => ?_⟩,
      fun hl => absurd (hlisted.symm.trans hl) (by decide)⟩
    · change f'.tracee.proc.pid ≠ 0
      rw [Tracee.pid_of_header hhit.header_eq]
      exact h.pid
    · have horder := horderly brk hclass
      obtain ⟨hshared, hready⟩ := hhit.shared (p.StepsBut k) h.pid
        (fun a ha => (hcell a ha).toShared) fun a ha hb => (hcell a ha).stepped (Or.inl hb)
      rw [steps_write hi]
      refine { hshared a ha with stepped := ?_ }
      rintro (hown | hother)
      · exact hready a ha hown
      · refine hhit.stepped_others h.pid hcell (fun b hb => ?_)
          (fun hnone n hret b hb => ?_) ha hother
        · rw [hthr] at hb
          exact horder.rearm b hb
        · rw [hthr] at hnone hret ⊢
          exact horder.last hnone n hret b hb

end ProcNode

end Utrace
