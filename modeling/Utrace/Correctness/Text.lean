import Utrace.Interpretation.Planted

/-!
# The text of a process with one thread

Whatever the thread does, utrace owes its text the original bytes, and holds every
byte it replaced in an entry that is still referenced.
-/

namespace Utrace

/-- Every byte of the text is its original, or the trap of a referenced entry that saved
the original; once the first event was handled, `disable_all_breakpoints` restores it. -/
theorem text_original_or_trap (env : Env) (filename : String) {pid : Pid} (hpid : pid ≠ 0)
    (orig : Addr → Byte) (text : Set Addr) {inputs : List (Input Unit)} {s : Sys Unit}
    (hr : Run (Sys.step env) (Sys.KeepsText text)
      (Sys.opened env filename pid orig fun _ => pid) inputs s) :
    (∀ a ∈ text, s.tracee.mem a = orig a ∨ s.tracee.mem a = trap ∧
      ∃ sbp, s.tracee.entry a = some sbp ∧ 0 < sbp.enabled ∧ sbp.origValue 0 = some (orig a)) ∧
    (s.tracee.proc.breakpointsEnabled ≠ -1 →
      ∀ a ∈ text, (disableAllBreakpoints env s.tracee).mem a = orig a) := by
  cases (hr.textState hpid ()).2 with
  | fresh hbe _ hcell =>
    refine ⟨fun a ha => Or.inl (hcell a ha).byte, fun hne => (hne hbe).elim⟩
  | planted hbe hcell =>
    refine ⟨fun a ha => ?_, fun _ a ha => mem_disableAllBreakpoints (by rw [hbe]; decide)
      (hcell a ha)⟩
    have hs := hcell a ha
    by_cases hz : (s.tracee.cell a).refs = 0
    · exact Or.inl (hs.original hz)
    · have hnonneg := hs.nonneg
      have hpos : 0 < (s.tracee.cell a).refs := by omega
      by_cases hstep : (s.threads ()).breakpointBeingEnabled = some a
      · exact Or.inl (hs.stepped hstep).2
      · refine Or.inr ⟨hs.trapped hstep hpos, ?_⟩
        have hsaved := hs.saved (Cell.count_ne_none_of_refs hpos)
        cases hentry : s.tracee.entry a with
        | none => simp [Tracee.cell, Cell.refs, hentry] at hpos
        | some sbp =>
          refine ⟨sbp, rfl, ?_, ?_⟩
          · simpa [Tracee.cell, Cell.refs, hentry] using hpos
          · simpa [Tracee.cell, hentry] using hsaved
  | lifted hbe hmem =>
    refine ⟨fun a ha => Or.inl (hmem a ha), fun _ a ha => ?_⟩
    rw [← Tracee.byte_cell, cell_disableAllBreakpoints, if_neg (by simp [hbe])]
    exact hmem a ha

/-- The thread stands on the entry of `f`, called from 0x3000: the other function is still
trapped, and can be put back. -/
theorem text_original_or_trap_call :
    ∃ s, Run (Sys.step twoFunctions) (Sys.KeepsText Set.univ)
        (Sys.opened twoFunctions "a.out" 7 nops fun _ : Unit => 7)
        [.stop () (trapStop 0x3000), .stop () (trapStop 0x1000 0x3000)] s ∧
      s.tracee.mem 0x2000 = trap ∧
      (disableAllBreakpoints twoFunctions s.tracee).mem 0x2000 = nops 0x2000 := by
  have hobs : (runInputs (Sys.step twoFunctions) (fun _ input => Sys.noStore input)
      (Sys.opened twoFunctions "a.out" 7 nops fun _ : Unit => 7)
      [.stop () (trapStop 0x3000), .stop () (trapStop 0x1000 0x3000)]).any (fun s =>
        s.tracee.mem 0x2000 == trap && s.tracee.proc.breakpointsEnabled != -1) = true := by
    decide +kernel
  obtain ⟨s, hr, hs⟩ := exists_run_of_observe (Sys.keepsText_of_noStore Set.univ) hobs
  simp only [Bool.and_eq_true, beq_iff_eq, bne_iff_ne, ne_eq] at hs
  exact ⟨s, hr, hs.1,
    (text_original_or_trap _ _ (by decide) nops Set.univ hr).2 hs.2 _ (Set.mem_univ _)⟩

end Utrace
