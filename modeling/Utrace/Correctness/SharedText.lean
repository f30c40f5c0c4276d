import Utrace.Interpretation.Counted
import Utrace.Interpretation.Planted

/-!
# The text several threads share

The trap is planted again after a step whatever the other threads did meanwhile. Where
every step that ends finds its entry referenced and its trap still lifted, the table and
the text agree; where it does not, the trap itself is saved as the program's byte.
-/

namespace Utrace

variable {ι : Type*}

/-- Every entry that was ever planted saved the original byte, and where no thread is being
stepped over it, the trap is in memory exactly while the entry is referenced. -/
def Sys.TrapsInOrder (orig : Addr → Byte) (text : Set Addr) (s : Sys ι) : Prop :=
  ∀ a ∈ text, ∀ sbp, s.tracee.entry a = some sbp → sbp.origValue 0 ≠ none →
    sbp.origValue 0 = some (orig a) ∧
    ((∀ i, (s.threads i).breakpointBeingEnabled ≠ some a) →
      (s.tracee.mem a = trap ↔ 0 < sbp.enabled))

/-- A trap of thread `i` at `brk` that leaves the traps in order. -/
structure Sys.Orderly (orig : Addr → Byte) (text : Set Addr) (s : Sys ι) (i : ι) (brk : Addr) :
    Prop where
  /-- A step that ends finds its entry referenced and its trap lifted. -/
  step : ∀ a ∈ text, (s.threads i).breakpointBeingEnabled = some a →
    0 < s.tracee.enabledAt a ∧ s.tracee.mem a = orig a
  /-- A return drops no last reference where the program has a trap byte of its own. -/
  last : (s.threads i).breakpointBeingEnabled = none →
    ∀ n, (s.threads i).callstack.returning brk = some n → ∀ a ∈ text,
      0 < frameRefs ((s.threads i).callstack.elems.take (n + 1)) a →
      s.tracee.enabledAt a = frameRefs ((s.threads i).callstack.elems.take (n + 1)) a →
      orig a ≠ trap

/-- The inputs that leave the traps in order. -/
def Sys.OrderlyInput (env : Env) (orig : Addr → Byte) (text : Set Addr) (s : Sys ι) :
    Input ι → Prop
  | .stop i stop => ∀ brk, s.classify env i stop = .breakpoint brk → s.Orderly orig text i brk
  | _ => True

/-- What a run keeps: nothing is planted yet, or every cell of the text is in order and the
program has no trap of its own where an entry lost its last reference, or the process left
the list. -/
inductive Sys.SharedState (orig : Addr → Byte) (text : Set Addr) (s : Sys ι) : Prop
  | fresh (hbe : s.tracee.proc.breakpointsEnabled = -1)
      (hbeing : ∀ i, (s.threads i).breakpointBeingEnabled = none)
      (hcell : ∀ a ∈ text, (s.tracee.cell a).Fresh (orig a))
  | planted (hbe : s.tracee.proc.breakpointsEnabled = 1)
      (hcell : ∀ a ∈ text, (s.tracee.cell a).Shared (orig a)
        (∃ i, (s.threads i).breakpointBeingEnabled = some a))
      (hdrained : ∀ a ∈ text, (s.tracee.cell a).count = some 0 → orig a ≠ trap)
  | dropped (hlisted : s.listed = false)

/-- In every such state of a listed process the traps are in order. -/
theorem Sys.SharedState.trapsInOrder {orig : Addr → Byte} {text : Set Addr} {s : Sys ι}
    (h : s.SharedState orig text) (hl : s.listed = true) : s.TrapsInOrder orig text := by
  intro a ha sbp hentry hsaved
  have hcount : (s.tracee.cell a).count = some sbp.enabled :=
    Tracee.count_cell_eq_some.mpr ⟨sbp, hentry, rfl⟩
  have hvalue : (s.tracee.cell a).saved = sbp.origValue 0 := by simp [Tracee.cell, hentry]
  have hrefs : (s.tracee.cell a).refs = sbp.enabled := by rw [Cell.refs, hcount, Option.getD_some]
  cases h with
  | fresh _ _ hcell => exact (hsaved (hvalue ▸ (hcell a ha).saved)).elim
  | planted _ hcell hdrained =>
    have hshared := hcell a ha
    have hnonneg := hshared.nonneg
    have hsome : (s.tracee.cell a).count ≠ none := by
      rw [hcount]
      exact Option.some_ne_none _
    refine ⟨hvalue ▸ hshared.saved hsome, fun hnone => ?_⟩
    have hstill : ¬∃ i, (s.threads i).breakpointBeingEnabled = some a := by
      rintro ⟨i, hi⟩
      exact hnone i hi
    constructor
    · intro htrap
      by_contra hpos
      have hzero : sbp.enabled = 0 := by omega
      have horig : s.tracee.mem a = orig a := hshared.original (hrefs.trans hzero)
      exact hdrained a ha (hzero ▸ hcount) (horig.symm.trans htrap)
    · intro hpos
      exact hshared.trapped hstill (by omega)
  | dropped hlisted => cases hl.symm.trans hlisted

/-! ## One event of one of the threads -/

/-- Stepping off a breakpoint keeps every cell's count. -/
theorem SteppedOff.count {env : Env} {c : Addr → Cell} {brk : Addr} {f' : Focus}
    (h : SteppedOff env c brk f') (a : Addr) : (f'.tracee.cell a).count = (c a).count := by
  rw [h.cell]
  split
  · rename_i ha
    exact ha ▸ Cell.count_disable env.unset (c brk)
  · rfl

/-- Only a return can leave an entry without references. -/
theorem Hit.drained {env : Env} {f f' : Focus} {stop : Stop} {brk : Addr} {orig : Addr → Byte}
    {a : Addr} (h : Hit env f stop brk f') (hnonneg : 0 ≤ (f.tracee.cell a).refs)
    (hdrained : (f.tracee.cell a).count = some 0 → orig a ≠ trap)
    (hlast : f.thr.breakpointBeingEnabled = none →
      ∀ n, f.thr.callstack.returning brk = some n →
        0 < frameRefs (f.thr.callstack.elems.take (n + 1)) a →
        (f.tracee.cell a).refs = frameRefs (f.thr.callstack.elems.take (n + 1)) a → orig a ≠ trap) :
    (f'.tracee.cell a).count = some 0 → orig a ≠ trap := by
  intro hzero
  cases h with
  | rearm b _ ht =>
    refine hdrained ?_
    rw [ht, cell_enableEntry] at hzero
    split at hzero
    · rename_i ha
      rwa [Cell.count_plant, ← ha] at hzero
    · exact hzero
  | ret n _ hnone hreturning _ _ _ hoff =>
    rw [hoff.count, Focus.popCells] at hzero
    rcases Nat.eq_zero_or_pos (frameRefs (f.thr.callstack.elems.take (n + 1)) a) with hk | hk
    · rw [hk] at hzero
      exact hdrained hzero
    · rw [Cell.count_delete_iterate env.unset _ hk, Option.some.injEq] at hzero
      exact hlast hnone n hreturning hk (by omega)
  | entry _ _ _ _ _ hoff =>
    rw [hoff.count, Focus.pushCells] at hzero
    split at hzero
    · rw [Cell.count_insert, Option.some.injEq] at hzero
      omega
    · exact hdrained hzero
  | stray _ _ _ ht =>
    rw [ht] at hzero
    exact hdrained hzero

variable [DecidableEq ι]

/-- What thread `i` and the others are being stepped over, after an event of `i`. -/
theorem Sys.exists_being_put {s : Sys ι} {i : ι} {f' : Focus} (a : Addr) :
    (∃ j, ((s.put i f').threads j).breakpointBeingEnabled = some a) ↔
      f'.thr.breakpointBeingEnabled = some a ∨
        ∃ j, j ≠ i ∧ (s.threads j).breakpointBeingEnabled = some a := by
  constructor
  · rintro ⟨j, hj⟩
    by_cases he : j = i
    · subst he
      rw [Sys.threads_put_self] at hj
      exact Or.inl hj
    · rw [Sys.threads_put_of_ne s he] at hj
      exact Or.inr ⟨j, he, hj⟩
  · rintro (hi | ⟨j, he, hj⟩)
    · exact ⟨i, by rw [Sys.threads_put_self]; exact hi⟩
    · exact ⟨j, by rw [Sys.threads_put_of_ne s he]; exact hj⟩

/-- An event that changes neither the tracee nor what its thread is being stepped over. -/
theorem Sys.SharedState.put_same {orig : Addr → Byte} {text : Set Addr} {s : Sys ι} {i : ι}
    {f' : Focus} (h : s.SharedState orig text) (hl : s.listed = true)
    (htracee : f'.tracee = s.tracee)
    (hbeing : f'.thr.breakpointBeingEnabled = (s.threads i).breakpointBeingEnabled) :
    (s.put i f').SharedState orig text := by
  have hthreads : ∀ j, ((s.put i f').threads j).breakpointBeingEnabled =
      (s.threads j).breakpointBeingEnabled := by
    intro j
    by_cases hj : j = i
    · subst hj
      rw [Sys.threads_put_self, hbeing]
    · rw [Sys.threads_put_of_ne s hj]
  have htracee' : (s.put i f').tracee = s.tracee := htracee
  cases h with
  | fresh hbe hnone hcell =>
    exact .fresh (htracee' ▸ hbe) (fun j => (hthreads j).trans (hnone j)) (htracee' ▸ hcell)
  | planted hbe hcell hdrained =>
    refine .planted (htracee' ▸ hbe) (fun a ha => ?_) (htracee' ▸ hdrained)
    rw [htracee']
    simp only [hthreads]
    exact hcell a ha
  | dropped hlisted => cases hl.symm.trans hlisted

/-- A trap that meets the condition keeps the traps in order. -/
theorem Sys.SharedState.hit {env : Env} {orig : Addr → Byte} {text : Set Addr} {s : Sys ι}
    {i : ι} {stop : Stop} {brk : Addr} {f' : Focus} (hpid : s.tracee.proc.pid ≠ 0)
    (hbe : s.tracee.proc.breakpointsEnabled = 1)
    (hcell : ∀ a ∈ text, (s.tracee.cell a).Shared (orig a)
      (∃ i, (s.threads i).breakpointBeingEnabled = some a))
    (hdrained : ∀ a ∈ text, (s.tracee.cell a).count = some 0 → orig a ≠ trap)
    (horderly : s.Orderly orig text i brk) (hhit : Hit env (s.focus i stop) stop brk f') :
    (s.put i f').SharedState orig text := by
  have hsplit : ∀ a, (∃ j, (s.threads j).breakpointBeingEnabled = some a) ↔
      (s.threads i).breakpointBeingEnabled = some a ∨
        ∃ j, j ≠ i ∧ (s.threads j).breakpointBeingEnabled = some a := by
    intro a
    constructor
    · rintro ⟨j, hj⟩
      by_cases he : j = i
      · exact Or.inl (he ▸ hj)
      · exact Or.inr ⟨j, he, hj⟩
    · rintro (hi | ⟨j, _, hj⟩)
      · exact ⟨i, hi⟩
      · exact ⟨j, hj⟩
  obtain ⟨hshared, _⟩ := hhit.shared
    (fun a => ∃ j, j ≠ i ∧ (s.threads j).breakpointBeingEnabled = some a) hpid
    (fun a ha => (hcell a ha).congr (hsplit a)) horderly.step
  refine .planted (hhit.breakpointsEnabled.trans hbe) (fun a ha => ?_) (fun a ha => ?_)
  · exact (hshared a ha).congr (Sys.exists_being_put a).symm
  · exact hhit.drained (hcell a ha).nonneg (hdrained a ha)
      fun hnone n hret hpos hrefs => horderly.last hnone n hret a ha hpos hrefs

/-- The first event plants every entry. -/
theorem Sys.SharedState.first {orig : Addr → Byte} {text : Set Addr} {s : Sys ι} {i : ι}
    {f' : Focus} (h : s.SharedState orig text) (hl : s.listed = true)
    (hfirst : s.tracee.proc.breakpointsEnabled = -1)
    (htracee : f'.tracee = enableAllBreakpoints s.tracee) :
    (s.put i f').SharedState orig text := by
  have htracee' : (s.put i f').tracee = enableAllBreakpoints s.tracee := htracee
  cases h with
  | fresh _ hbeing hcell =>
    have hcells : ∀ a, (s.put i f').tracee.cell a = (s.tracee.cell a).enable := by
      intro a
      rw [htracee', cell_enableAllBreakpoints, if_pos (by rw [hfirst]; decide)]
    refine .planted (by rw [htracee']; rfl) (fun a ha => ?_) (fun a ha hzero => ?_)
    · rw [hcells]
      exact (hcell a ha).enable _
    · rw [hcells, Cell.count_enable] at hzero
      have hpos := (hcell a ha).referenced (by rw [hzero]; exact Option.some_ne_none 0)
      rw [Cell.refs, hzero] at hpos
      exact (lt_irrefl _ hpos).elim
  | planted hone => cases hfirst.symm.trans hone
  | dropped hlisted => cases hl.symm.trans hlisted

/-- A step that meets the condition keeps the traps in order. -/
theorem Sys.SharedState.step {env : Env} {pid : Pid} {symbols : List LibrarySymbol}
    {orig : Addr → Byte} {text : Set Addr} {s s' : Sys ι} {input : Input ι} (hpid : pid ≠ 0)
    (hsteady : s.Steady pid symbols) (h : s.SharedState orig text)
    (hkeeps : s.KeepsText text input) (horderly : s.OrderlyInput env orig text input)
    (hs : s.step env input = some s') : s'.SharedState orig text := by
  cases input with
  | interrupt =>
    cases hs
    cases h with
    | fresh hbe hbeing hcell => exact .fresh hbe hbeing hcell
    | planted hbe hcell hdrained => exact .planted hbe hcell hdrained
    | dropped hlisted => exact .dropped hlisted
  | store mem =>
    cases hs
    have hcells : ∀ a ∈ text, Tracee.cell { s.tracee with mem := mem } a = s.tracee.cell a :=
      fun a ha => Tracee.cell_store (hkeeps a ha)
    cases h with
    | fresh hbe hbeing hcell => exact .fresh hbe hbeing fun a ha => hcells a ha ▸ hcell a ha
    | planted hbe hcell hdrained =>
      exact .planted hbe (fun a ha => hcells a ha ▸ hcell a ha)
        fun a ha => hcells a ha ▸ hdrained a ha
    | dropped hlisted => exact .dropped hlisted
  | stop i stop =>
    obtain ⟨hl, f', hf, rfl⟩ := Sys.step_stop_eq_some.mp hs
    cases (handle_effect hf).1 with
    | first hfirst ht _ _ => exact h.first hl hfirst ht
    | line _ _ ht _ hb => exact h.put_same hl ht hb
    | detach _ _ _ _ _ hlisted => exact .dropped hlisted
    | syscall _ _ _ ht _ hb => exact h.put_same hl (ht (hsteady.enabled_ne_zero hl)) hb
    | sysret _ _ _ _ _ _ _ _ ht _ _ hb => exact h.put_same hl ht hb
    | exec n hexec hsys => exact ((hsteady.pushed i).not_exec hexec hsys).elim
    | breakpoint hne hhit hclass =>
      cases h with
      | fresh hbe => exact (hne hbe).elim
      | planted hbe hcell hdrained =>
        exact Sys.SharedState.hit (hsteady.pid ▸ hpid) hbe hcell hdrained
          (horderly _ hclass) hhit
      | dropped hlisted => cases hl.symm.trans hlisted

omit [DecidableEq ι] in
/-- The state after opening is well shared. -/
theorem Sys.SharedState.opened (env : Env) (filename : String) (pid : Pid) (orig : Addr → Byte)
    (text : Set Addr) (tid : ι → Pid) :
    (Sys.opened env filename pid orig tid).SharedState orig text := by
  cases TextState.opened env filename pid orig text with
  | fresh hbe _ hcell => exact .fresh hbe (fun _ => rfl) hcell
  | planted hbe => cases hbe
  | lifted hbe => cases hbe

/-- In every run of a process with any number of threads whose steps all meet the condition,
the traps are in order in every state reached while the process is listed. -/
theorem shared_text_in_order (env : Env) (filename : String) {pid : Pid} (hpid : pid ≠ 0)
    (orig : Addr → Byte) (text : Set Addr) (tid : ι → Pid) {inputs : List (Input ι)} {s : Sys ι}
    (hr : Run (Sys.step env)
      (fun s input => s.KeepsText text input ∧ s.OrderlyInput env orig text input)
      (Sys.opened env filename pid orig tid) inputs s) (hl : s.listed = true) :
    s.TrapsInOrder orig text := by
  have hstate := hr.invariant
    (P := fun s => s.Steady pid (symbolsOf env (some filename)) ∧ s.SharedState orig text)
    ⟨Sys.Steady.opened .., Sys.SharedState.opened ..⟩
    fun _ _ _ ht hg hs => ⟨ht.1.step hs, ht.2.step hpid ht.1 hg.1 hg.2 hs⟩
  exact hstate.2.trapsInOrder hl

/-- Both threads executed the trap of `f` before the first of the two stops was handled; the
second step to end saves the trap that the first one planted. -/
theorem shared_text_trap_saved :
    ¬∀ (env : Env) (filename : String) (pid : Pid) (orig : Addr → Byte) (text : Set Addr)
      (tid : Bool → Pid) (inputs : List (Input Bool)) (s : Sys Bool), pid ≠ 0 →
      Run (Sys.step env) (Sys.KeepsText text) (Sys.opened env filename pid orig tid) inputs s →
      s.listed = true → s.TrapsInOrder orig text := by
  intro hclaim
  let inputs : List (Input Bool) := [.stop false (trapStop 0x3000),
    .stop false (trapStop 0x1000 0x3000), .stop true (trapStop 0x1000 0x4000),
    .stop false (trapStop 0x1000), .stop true (trapStop 0x1000)]
  have hobs : (runInputs (Sys.step twoFunctions) (fun _ input => Sys.noStore input)
      (Sys.opened twoFunctions "a.out" 7 nops fun i : Bool => if i then 8 else 7) inputs).any
      (fun s => s.listed &&
        (s.tracee.entry 0x1000).any fun sbp => sbp.origValue 0 == some trap) = true := by
    decide +kernel
  obtain ⟨s, hr, hs⟩ := exists_run_of_observe (Sys.keepsText_of_noStore Set.univ) hobs
  simp only [Bool.and_eq_true, beq_iff_eq, Option.any_eq_true] at hs
  obtain ⟨hlisted, sbp, hentry, hsaved⟩ := hs
  have horder := hclaim twoFunctions "a.out" 7 nops Set.univ _ inputs s (by decide) hr hlisted
  have hplanted : sbp.origValue 0 ≠ none := by
    rw [hsaved]
    exact Option.some_ne_none trap
  obtain ⟨horig, _⟩ := horder 0x1000 (Set.mem_univ _) sbp hentry hplanted
  rw [hsaved] at horig
  exact absurd horig (by decide)

/-- Every step that ends finds its entry referenced and its trap lifted, as a check. -/
def stepsFound (s : Sys Bool) : Input Bool → Bool
  | .stop i _ => (s.threads i).breakpointBeingEnabled.all fun a =>
      decide (0 < s.tracee.enabledAt a) && s.tracee.mem a == nops a
  | input => Sys.noStore input

/-- An input that passes the check is orderly and keeps the text. -/
theorem orderlyInput_of_stepsFound (s : Sys Bool) (input : Input Bool)
    (h : stepsFound s input = true) :
    s.KeepsText Set.univ input ∧ s.OrderlyInput twoFunctions nops Set.univ input := by
  cases input with
  | interrupt => exact ⟨trivial, trivial⟩
  | store mem => cases h
  | stop i stop =>
    have hnop : (0x90 : Byte) ≠ trap := by decide
    refine ⟨trivial, fun brk _ => ⟨fun a _ hbeing => ?_, fun _ _ _ _ _ _ _ => hnop⟩⟩
    simpa [stepsFound, hbeing] using h

/-- Two threads enter `f` one after the other, and the traps stay in order. -/
theorem shared_text_in_order_calls :
    ∃ s, Run (Sys.step twoFunctions) (fun s input => s.KeepsText Set.univ input ∧
        s.OrderlyInput twoFunctions nops Set.univ input)
        (Sys.opened twoFunctions "a.out" 7 nops fun i : Bool => if i then 8 else 7)
        [.stop false (trapStop 0x3000), .stop false (trapStop 0x1000 0x3000),
          .stop false (trapStop 0x1000), .stop true (trapStop 0x1000 0x4000)] s ∧
      s.tracee.enabledAt 0x1000 = 1 ∧ s.TrapsInOrder nops Set.univ := by
  have hobs : (runInputs (Sys.step twoFunctions) stepsFound
      (Sys.opened twoFunctions "a.out" 7 nops fun i : Bool => if i then 8 else 7)
      [.stop false (trapStop 0x3000), .stop false (trapStop 0x1000 0x3000),
        .stop false (trapStop 0x1000), .stop true (trapStop 0x1000 0x4000)]).any
      (fun s => s.listed && s.tracee.enabledAt 0x1000 == 1) = true := by
    decide +kernel
  obtain ⟨s, hr, hs⟩ := exists_run_of_observe orderlyInput_of_stepsFound hobs
  simp only [Bool.and_eq_true, beq_iff_eq] at hs
  exact ⟨s, hr, hs.2, shared_text_in_order _ _ (by decide) nops Set.univ _ hr hs.1⟩

end Utrace
