import Utrace.Core.Run
import Utrace.Native.Threads

/-!
# Registering threads

`reg_tid` finds a free slot, and then uses the loop counter in its place: the slot is
given the wrong index, and what is returned and remembered lies past the array.
-/

namespace Utrace

/-- A call of `reg_tid` or `dereg_tid`. -/
inductive SlotCall where
  | reg (tid : Pid)
  | dereg (tid : Pid)
  deriving DecidableEq

namespace SlotCall

/-- The tid a call is about. -/
def tid : SlotCall → Pid
  | reg tid | dereg tid => tid

/-- Whether a call registers a tid. -/
def isReg : SlotCall → Bool
  | reg _ => true
  | dereg _ => false

end SlotCall

/-- The slots, with the tid and the index of the last `reg_tid`, if that was the last call. -/
structure Slots where
  table : ThreadTable
  returned : Option (Pid × Nat) := none

/-- One call; undefined where it ends utrace. -/
def Slots.step (s : Slots) : SlotCall → Option Slots
  | .reg tid => (regTid s.table tid).toOption.map fun r => ⟨r.1, some (tid, r.2)⟩
  | .dereg tid => some ⟨deregTid s.table tid, none⟩

/-- What the rest of utrace relies on. -/
structure Slots.Consistent (s : Slots) : Prop where
  /-- `reg_tid` returned a slot that holds the tid. -/
  returned : ∀ tid k, s.returned = some (tid, k) →
    ∃ h : k < maxThreadsTraced, (s.table.threads ⟨k, h⟩).tid = tid
  /-- `get_proc` finds the process from every occupied slot. -/
  owner : ∀ k, (s.table.threads k).tid ≠ 0 → getProc s.table k = 0
  /-- The remembered index is -1 or a slot. -/
  hot : s.table.hotTidIdx = -1 ∨ 0 ≤ s.table.hotTidIdx ∧ s.table.hotTidIdx < maxThreadsTraced
  /-- The remembered index changes no answer of `tid2thread`. -/
  cached : ∀ beyond tid, tid ≠ 0 →
    tid2thread s.table beyond tid = (scanTid s.table tid).map fun i => (i : Int)

/-- Nothing is registered, and slot 0 is remembered. -/
structure Slots.Untouched (s : Slots) : Prop where
  empty : s.table.Empty
  hot : s.table.hotTidIdx = 0

/-- A zeroed slot is untouched. -/
theorem Slots.Untouched.zeroed : Slots.Untouched ⟨.zeroed, none⟩ := ⟨fun _ => rfl, rfl⟩

/-- While nothing is registered, everything is consistent if nothing was returned. -/
theorem Slots.Untouched.consistent {s : Slots} (h : s.Untouched) (hret : s.returned = none) :
    s.Consistent := by
  refine ⟨?_, ?_, ?_, ?_⟩
  · intro tid k hk
    rw [hret] at hk
    cases hk
  · intro k hk
    exact (hk (h.empty k)).elim
  · rw [h.hot]
    exact Or.inr ⟨le_rfl, by decide⟩
  · intro beyond tid ht
    unfold tid2thread
    rw [if_neg ht, if_neg]
    rintro ⟨_, hat⟩
    have hzero : s.table.tidAt beyond 0 = 0 := h.empty ⟨0, by decide⟩
    rw [h.hot, hzero] at hat
    exact ht hat.symm

/-- A `dereg_tid` finds nothing to release. -/
theorem Slots.Untouched.dereg {s : Slots} (h : s.Untouched) (tid : Pid) :
    s.step (.dereg tid) = some ⟨s.table, none⟩ := by
  change some (Slots.mk (deregTid s.table tid) none) = _
  rw [deregTid_of_empty h.empty]

/-- From an untouched record, the next call leaves it consistent exactly when it is no
`reg_tid`. -/
theorem Slots.Untouched.consistent_iff {s u : Slots} {call : SlotCall} (h : s.Untouched)
    (ht : call.tid ≠ 0) (hs : s.step call = some u) : u.Consistent ↔ call.isReg = false := by
  cases call with
  | dereg tid =>
    rw [h.dereg tid, Option.some.injEq] at hs
    subst hs
    have huntouched : Slots.Untouched ⟨s.table, none⟩ := ⟨h.empty, h.hot⟩
    exact iff_of_true (huntouched.consistent rfl) rfl
  | reg tid =>
    obtain ⟨table', hreg, _⟩ : ∃ table', regTid s.table tid = .ok (table', maxThreadsTraced) ∧
        table'.hotTidIdx = maxThreadsTraced := regTid_of_empty h.empty ht
    simp only [Slots.step, hreg, Except.toOption, Option.map_some, Option.some.injEq] at hs
    subst hs
    refine iff_of_false (fun hc => ?_) nofun
    obtain ⟨hlt, _⟩ := hc.returned tid maxThreadsTraced rfl
    exact lt_irrefl _ hlt

/-- For every sequence of calls with nonzero tids on a zero-filled record: the record is
consistent after every call exactly when no call is a `reg_tid`. -/
theorem registration_consistent_iff (calls : List SlotCall) (s : Slots) :
    Run Slots.step (fun t call => call.tid ≠ 0 ∧ ∀ u, t.step call = some u → u.Consistent)
        ⟨.zeroed, none⟩ calls s ↔
      Run Slots.step (fun _ call => call.tid ≠ 0 ∧ call.isReg = false)
        ⟨.zeroed, none⟩ calls s := by
  refine Run.guard_iff (P := Slots.Untouched) .zeroed ?_ ?_
  · intro t call u ht _ hcall hs
    cases call with
    | reg tid => cases hcall
    | dereg tid =>
      rw [ht.dereg tid, Option.some.injEq] at hs
      subst hs
      exact ⟨ht.empty, ht.hot⟩
  · intro t call u ht htid hs
    exact ht.consistent_iff htid hs

/-- The first `reg_tid` of a process already returns the slot past the end. -/
theorem registration_past_the_end :
    ¬∀ (calls : List SlotCall) (s : Slots),
      Run Slots.step (fun _ call => call.tid ≠ 0) ⟨.zeroed, none⟩ calls s → s.Consistent := by
  intro hclaim
  have hempty : ThreadTable.zeroed.Empty := fun _ => rfl
  have hnonzero : (100 : Pid) ≠ 0 := by decide
  obtain ⟨table', hreg, _⟩ := regTid_of_empty hempty hnonzero
  have hs : Slots.step ⟨.zeroed, none⟩ (.reg 100) =
      some ⟨table', some (100, maxThreadsTraced)⟩ := by
    rw [Slots.step, hreg]
    rfl
  have hc := hclaim [.reg 100] _ (Run.single hnonzero hs)
  obtain ⟨hlt, _⟩ := hc.returned 100 maxThreadsTraced rfl
  exact lt_irrefl _ hlt

end Utrace
