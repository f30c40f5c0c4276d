import Utrace.Core.Slots
import Utrace.Correctness.Registration

/-!
# The tids in the slots

The loop of `reg_tid` passes the first free slot over and goes on to look for the tid behind
it, so a tid that has a slot is found there, and one that has none gets the slot that was passed
over. The index handed back is wrong, but what the slots hold is right.
-/

namespace Utrace

/-- What a call does to the set of tids that are registered. -/
def SlotCall.register (tids : Finset Pid) : SlotCall → Finset Pid
  | .reg tid => insert tid tids
  | .dereg tid => tids.erase tid

/-- The tids registered by the calls and not since deregistered. -/
def registered (calls : List SlotCall) : Finset Pid := calls.foldl SlotCall.register ∅

/-- The tids registered after one more call. -/
theorem registered_concat (calls : List SlotCall) (call : SlotCall) :
    registered (calls ++ [call]) = call.register (registered calls) := by
  rw [registered, List.foldl_append]
  rfl

/-- The tid of a slot. -/
def ThreadTable.tids (table : ThreadTable) (k : Fin maxThreadsTraced) : Pid :=
  (table.threads k).tid

variable {table : ThreadTable} {tids : Finset Pid} {tid : Pid}

/-! ## One call -/

/-- `reg_tid` with room for the tid: no slot that is taken changes, and no slot at all where the
tid is registered. -/
theorem Slotted.regTid (h : Slotted 0 table.tids tids) (ht : tid ≠ 0)
    (hroom : (insert tid tids).card ≤ maxThreadsTraced) :
    ∃ table' i, Utrace.regTid table tid = .ok (table', i) ∧
      Slotted 0 table'.tids (insert tid tids) ∧
      (∀ k, table.tids k ≠ 0 → table'.tids k = table.tids k) ∧
      (tid ∈ tids → table'.tids = table.tids) := by
  rcases regTid_cases table tid with
    ⟨i, hreg, hslot⟩ | ⟨table', i, k, hreg, hfree, hk, hother, hnew⟩ | ⟨_, hfull⟩
  · have hmem : tid ∈ tids := (h.mem_iff tid ht).mpr hslot
    refine ⟨table, i, hreg, ?_, fun _ _ => rfl, fun _ => rfl⟩
    rw [Finset.insert_eq_of_mem hmem]
    exact h
  · have hnew : ∀ j, table.tids j ≠ tid := fun j hj => ht (hnew j hj)
    have hother : ∀ j, j ≠ k → table'.tids j = table.tids j :=
      fun j hj => congrArg Thread.tid (hother j hj)
    refine ⟨table', i, hreg, h.fill ht hfree hnew hk hother, fun j hj => ?_, fun hmem => ?_⟩
    · apply hother
      rintro rfl
      exact hj hfree
    · obtain ⟨j, hj⟩ := (h.mem_iff tid ht).mp hmem
      exact (hnew j hj).elim
  · -- every slot has a tid of its own, and this one is one more
    have hcard : maxThreadsTraced ≤ tids.card := by
      have hle := h.card_le_of_full fun j => (hfull j).1
      rwa [Fintype.card_fin] at hle
    have hnotMem : tid ∉ tids := by
      rw [h.mem_iff tid ht]
      rintro ⟨j, hj⟩
      exact (hfull j).2 hj
    rw [Finset.card_insert_of_notMem hnotMem] at hroom
    omega

/-- `dereg_tid`: no slot with another tid changes. -/
theorem Slotted.deregTid (h : Slotted 0 table.tids tids) (ht : tid ≠ 0) :
    Slotted 0 (Utrace.deregTid table tid).tids (tids.erase tid) ∧
      ∀ k, table.tids k ≠ tid → (Utrace.deregTid table tid).tids k = table.tids k := by
  rcases deregTid_cases table ht with ⟨k, hslot, hk, hother⟩ | ⟨hnone, heq⟩
  · have hother : ∀ j, j ≠ k → (Utrace.deregTid table tid).tids j = table.tids j :=
      fun j hj => congrArg Thread.tid (hother j hj)
    refine ⟨h.clear hslot hk hother, fun j hj => hother j ?_⟩
    rintro rfl
    exact hj hslot
  · rw [heq]
    refine ⟨?_, fun _ _ => rfl⟩
    rw [h.erase_of_forall_ne ht hnone]
    exact h

variable {s u : Slots} {call : SlotCall} {calls before after : List SlotCall}

/-- A call with room for its tid does not end utrace. It keeps the slots in step with the
registered tids, and the slot of every tid that stays registered. -/
theorem Slotted.step (h : Slotted 0 s.table.tids tids) (ht : call.tid ≠ 0)
    (hroom : (call.register tids).card ≤ maxThreadsTraced) :
    ∃ u, s.step call = some u ∧ Slotted 0 u.table.tids (call.register tids) ∧
      ∀ tid ∈ call.register tids, ∀ k, s.table.tids k = tid → u.table.tids k = tid := by
  cases call with
  | reg new =>
    have ht : new ≠ 0 := ht
    obtain ⟨table', i, hreg, hslotted, hkeep, _⟩ := h.regTid ht hroom
    refine ⟨⟨table', some (new, i)⟩, ?_, hslotted, ?_⟩
    · rw [Slots.step, hreg]
      rfl
    · rintro tid hmem k rfl
      apply hkeep
      intro hzero
      rw [hzero] at hmem
      exact hslotted.free_notMem hmem
  | dereg old =>
    obtain ⟨hslotted, hkeep⟩ := h.deregTid ht
    refine ⟨⟨Utrace.deregTid s.table old, none⟩, rfl, hslotted, ?_⟩
    rintro tid hmem k rfl
    exact hkeep k (Finset.ne_of_mem_erase hmem)

/-! ## The calls of a run -/

/-- The calls have nonzero tids, and never register more of them than there are slots. -/
structure WithinSlots (calls : List SlotCall) : Prop where
  nonzero : ∀ call ∈ calls, call.tid ≠ 0
  room : ∀ before, before <+: calls → (registered before).card ≤ maxThreadsTraced

/-- A run that stays within the slots does so from its start. -/
theorem WithinSlots.start (h : WithinSlots (before ++ after)) : WithinSlots before :=
  ⟨fun call hmem => h.nonzero call (List.mem_append_left after hmem),
    fun first hfirst => h.room first (hfirst.trans (List.prefix_append before after))⟩

/-- The calls of a run, one after the other. -/
abbrev SlotRun : Slots → List SlotCall → Slots → Prop := Run Slots.step fun _ _ => True

/-- After every run the slots hold the registered tids. -/
theorem slotted_of_run (h : WithinSlots calls) (hrun : SlotRun ⟨.zeroed, none⟩ calls s) :
    Slotted 0 s.table.tids (registered calls) := by
  induction hrun with
  | nil => exact Slotted.empty fun _ => rfl
  | @snoc calls t call u hrun _ hstep ih =>
    have hroom := h.room _ List.prefix_rfl
    rw [registered_concat] at hroom ⊢
    obtain ⟨v, hv, hslotted, _⟩ := (ih h.start).step (h.nonzero call (by simp)) hroom
    cases hstep.symm.trans hv
    exact hslotted

/-- No call ends utrace. -/
theorem exists_run (h : WithinSlots calls) : ∃ s, SlotRun ⟨.zeroed, none⟩ calls s := by
  induction calls using List.reverseRecOn with
  | nil => exact ⟨_, .nil⟩
  | append_singleton calls call ih =>
    obtain ⟨s, hrun⟩ := ih h.start
    have hroom := h.room _ List.prefix_rfl
    rw [registered_concat] at hroom
    obtain ⟨u, hu, _⟩ := (slotted_of_run h.start hrun).step (h.nonzero call (by simp)) hroom
    exact ⟨u, hrun.snoc trivial hu⟩

/-- While a tid stays registered it stays in its slot. -/
theorem slot_kept (h : WithinSlots (before ++ after)) (hbefore : SlotRun ⟨.zeroed, none⟩ before s)
    (hafter : SlotRun s after u)
    (hstays : ∀ more, more <+: after → tid ∈ registered (before ++ more))
    {k : Fin maxThreadsTraced} (hk : s.table.tids k = tid) : u.table.tids k = tid := by
  induction hafter with
  | nil => exact hk
  | @snoc after t call u hafter _ hstep ih =>
    rw [← List.append_assoc] at h
    have hslotted := slotted_of_run h.start (hbefore.append hafter)
    have hroom := h.room _ List.prefix_rfl
    have hmem := hstays _ List.prefix_rfl
    rw [← List.append_assoc] at hmem
    rw [registered_concat] at hroom hmem
    obtain ⟨v, hv, _, hkeep⟩ := hslotted.step (h.nonzero call (by simp)) hroom
    cases hstep.symm.trans hv
    apply hkeep tid hmem
    apply ih h.start
    intro more hmore
    exact hstays more (hmore.trans (List.prefix_append after [call]))

/-- For every sequence of calls with nonzero tids that never needs more slots than there are:
no call ends utrace, and the nonzero tids in the slots are those registered and not since
deregistered, each in one slot. A tid stays in its slot while it is registered, and to register
it again changes no slot. -/
theorem registered_slotted (h : WithinSlots calls) :
    (∃ s, SlotRun ⟨.zeroed, none⟩ calls s) ∧
      ∀ s, SlotRun ⟨.zeroed, none⟩ calls s →
        (∀ tid, tid ≠ 0 → ((∃ k, (s.table.threads k).tid = tid) ↔ tid ∈ registered calls)) ∧
        (∀ tid ∈ registered calls, ∃! k, (s.table.threads k).tid = tid) ∧
        (∀ tid ∈ registered calls, ∃ table' i, regTid s.table tid = .ok (table', i) ∧
          ∀ k, (table'.threads k).tid = (s.table.threads k).tid) ∧
        ∀ before after t, calls = before ++ after → SlotRun ⟨.zeroed, none⟩ before t →
          SlotRun t after s → ∀ tid,
            (∀ more, more <+: after → tid ∈ registered (before ++ more)) →
              ∀ k, (t.table.threads k).tid = tid ↔ (s.table.threads k).tid = tid := by
  refine ⟨exists_run h, fun s hrun => ?_⟩
  have hslotted := slotted_of_run h hrun
  refine ⟨fun tid ht => (hslotted.mem_iff tid ht).symm, fun tid hmem => hslotted.existsUnique hmem,
    fun tid hmem => ?_, ?_⟩
  · have hne : tid ≠ 0 := by
      rintro rfl
      exact hslotted.free_notMem hmem
    have hroom : (insert tid (registered calls)).card ≤ maxThreadsTraced := by
      rw [Finset.insert_eq_of_mem hmem]
      exact h.room calls List.prefix_rfl
    obtain ⟨table', i, hreg, _, _, hsame⟩ := hslotted.regTid hne hroom
    exact ⟨table', i, hreg, fun k => congrFun (hsame hmem) k⟩
  · rintro before after t rfl hbefore hafter tid hstays k
    have hkept := fun {j} => slot_kept h hbefore hafter hstays (k := j)
    refine ⟨hkept, fun hk => ?_⟩
    -- its slot before is its slot now
    have hmem : tid ∈ registered before := by
      have hfirst := hstays [] List.nil_prefix
      rwa [List.append_nil] at hfirst
    obtain ⟨j, hj, _⟩ := (slotted_of_run h.start hbefore).existsUnique hmem
    have hall : tid ∈ registered (before ++ after) := hstays after List.prefix_rfl
    rw [(hslotted.existsUnique hall).unique hk (hkept hj)]
    exact hj

/-- A slot freed before another one that is taken. -/
theorem registered_slotted_hole :
    ∃ s, SlotRun ⟨.zeroed, none⟩ [.reg 1, .reg 2, .dereg 1, .reg 2] s ∧
      (∃! k, (s.table.threads k).tid = 2) ∧ ∀ k, (s.table.threads k).tid ≠ 1 := by
  have hwithin : WithinSlots [.reg 1, .reg 2, .dereg 1, .reg 2] := by
    refine ⟨by decide, fun before hbefore => ?_⟩
    rw [← List.mem_inits] at hbefore
    revert before
    decide
  obtain ⟨⟨s, hrun⟩, hall⟩ := registered_slotted hwithin
  obtain ⟨hslots, honce, _⟩ := hall s hrun
  refine ⟨s, hrun, honce 2 (by decide), fun k hk => ?_⟩
  have hmem := (hslots 1 (by decide)).mp ⟨k, hk⟩
  revert hmem
  decide

end Utrace
