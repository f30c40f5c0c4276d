import Utrace.Core.Run
import Utrace.Interpretation.Planted

/-!
# The bytes utrace can put in the text

Whatever the threads do, and in whatever order, a cell of the text holds its original
byte or the trap, and so does what its entry saved.
-/

namespace Utrace

/-! ## What every operation on a cell keeps -/

/-- A property of cells that no operation of a live process takes away. -/
structure Cell.Closed (unset : Byte) (P : Cell → Prop) : Prop where
  plant : ∀ c, P c → P c.plant
  insert : ∀ c, P c → P (c.insert true)
  delete : ∀ c, P c → 1 ≤ c.refs → P (c.delete unset)
  disable : ∀ c, P c → P (c.disable unset)

/-- A property kept by one deletion is kept by all that are made. -/
theorem Cell.Closed.delete_iterate {unset : Byte} {P : Cell → Prop} (h : Cell.Closed unset P)
    {c : Cell} (hc : P c) {k : Nat} (hk : (k : Int) ≤ c.refs) :
    P ((Cell.delete unset)^[k] c) := by
  induction k with
  | zero => exact hc
  | succ k ih =>
    rw [Function.iterate_succ_apply']
    refine h.delete _ (ih (by omega)) ?_
    rw [refs_delete_iterate]
    omega

/-- Stepping off a breakpoint keeps it. -/
theorem SteppedOff.cell_closed {env : Env} {c : Addr → Cell} {brk : Addr} {f' : Focus}
    {P : Cell → Prop} (h : SteppedOff env c brk f') (hP : Cell.Closed env.unset P) {a : Addr}
    (ha : P (c a)) : P (f'.tracee.cell a) := by
  rw [h.cell]
  split
  · rename_i hx
    exact hP.disable _ (hx ▸ ha)
  · exact ha

/-- A hit keeps it. -/
theorem Hit.cell_closed {env : Env} {f f' : Focus} {stop : Stop} {brk : Addr} {P : Cell → Prop}
    (h : Hit env f stop brk f') (hP : Cell.Closed env.unset P) (hpid : f.tracee.proc.pid ≠ 0)
    {a : Addr} (ha : P (f.tracee.cell a)) : P (f'.tracee.cell a) := by
  cases h with
  | rearm b _ ht =>
    rw [ht, cell_enableEntry]
    split
    · rename_i hx
      exact hP.plant _ (hx ▸ ha)
    · exact ha
  | ret n _ _ _ _ _ hcounted hoff =>
    refine hoff.cell_closed hP ?_
    unfold Focus.popCells
    rcases hcounted a with hc | hc
    · exact hP.delete_iterate ha hc
    · rw [hc]
      exact ha
  | entry _ _ _ _ _ hoff =>
    refine hoff.cell_closed hP ?_
    unfold Focus.pushCells
    split
    · rw [decide_eq_true hpid]
      exact hP.insert _ ha
    · exact ha
  | stray _ _ _ ht => rwa [ht]

/-- After the first event, whatever no operation takes away every event keeps. -/
theorem Effect.cell_closed {env : Env} {f f' : Focus} {stop : Stop} {P : Cell → Prop}
    (h : Effect env f stop f') (hP : Cell.Closed env.unset P) (hpid : f.tracee.proc.pid ≠ 0)
    (hexec : f.thr.callstack.Pushed) (hbe : f.tracee.proc.breakpointsEnabled ≠ 0)
    (hfirst : f.tracee.proc.breakpointsEnabled ≠ -1) {a : Addr} (ha : P (f.tracee.cell a)) :
    P (f'.tracee.cell a) := by
  cases h with
  | first hminus => exact (hfirst hminus).elim
  | line _ _ ht => rwa [ht]
  | detach _ ht =>
    rw [ht, cell_disableAllBreakpoints, if_pos hbe]
    exact hP.disable _ ha
  | syscall _ _ _ ht => rwa [ht hbe]
  | sysret _ _ _ _ _ _ _ _ ht => rwa [ht]
  | exec n hn hsys => exact (hexec.not_exec hn hsys).elim
  | breakpoint _ hit => exact hit.cell_closed hP hpid ha

/-! ## Original bytes and traps -/

/-- A byte that is either the original or the trap. -/
def KnownByte (o b : Byte) : Prop := b = o ∨ b = trap

/-- A known byte is the original unless it is a trap the program does not have. -/
theorem KnownByte.eq_iff {o b : Byte} (h : KnownByte o b) : b = o ↔ b = trap → o = trap := by
  rcases h with h | h
  · exact ⟨fun _ ht => h ▸ ht, fun _ => h⟩
  · exact ⟨fun he _ => he ▸ h, fun ht => h.trans (ht h).symm⟩

namespace Cell

/-- The bytes of a cell are known, and an entry saved one. -/
structure Known (o : Byte) (c : Cell) : Prop where
  saved : ∀ b, c.saved = some b → KnownByte o b
  planted : c.count ≠ none → c.saved ≠ none
  byte : KnownByte o c.byte

/-- Where there are references there is an entry. -/
theorem count_of_refs_ne_zero {c : Cell} (h : c.refs ≠ 0) : c.count ≠ none := by
  intro hn
  exact h (by rw [refs, hn, Option.getD_none])

/-- Of an entry, what is written back is known. -/
theorem Known.getD {o unset : Byte} {c : Cell} (h : c.Known o) (hc : c.count ≠ none) :
    KnownByte o (c.saved.getD unset) := by
  obtain ⟨b, hb⟩ := Option.ne_none_iff_exists'.mp (h.planted hc)
  rw [hb, Option.getD_some]
  exact h.saved b hb

/-- Planting the trap keeps a cell known. -/
theorem Known.plant {o : Byte} {c : Cell} (h : c.Known o) : (c.plant).Known o := by
  unfold Cell.plant
  cases hc : c.count with
  | none => exact h
  | some n =>
    refine ⟨fun b hb => ?_, fun _ => Option.some_ne_none _, Or.inr rfl⟩
    exact Option.some.inj hb ▸ h.byte

/-- So does lifting it. -/
theorem Known.lift {o unset : Byte} {c : Cell} (h : c.Known o) : (c.lift unset).Known o := by
  unfold Cell.lift
  cases hc : c.count with
  | none => exact h
  | some n =>
    have hne : c.count ≠ none := by rw [hc]; exact Option.some_ne_none n
    exact ⟨h.saved, fun _ => h.planted hne, h.getD hne⟩

/-- So does another count. -/
theorem Known.recount {o : Byte} {c : Cell} (h : c.Known o) (hc : c.count ≠ none) (n : Int) :
    Cell.Known o ⟨some n, c.saved, c.byte⟩ :=
  ⟨h.saved, fun _ => h.planted hc, h.byte⟩

/-- No operation of a live process puts any other byte in the text. -/
theorem closed_known (o unset : Byte) : Closed unset (Known o) := by
  refine ⟨fun c h => h.plant, fun c h => ?_, fun c h hpos => ?_, fun c h => ?_⟩
  · unfold Cell.insert
    by_cases hz : c.refs = 0
    · rw [if_pos ⟨hz, rfl⟩]
      exact ⟨fun b hb => Option.some.inj hb ▸ h.byte, fun _ => Option.some_ne_none _, Or.inr rfl⟩
    · rw [if_neg fun hn => hz hn.1]
      exact h.recount (count_of_refs_ne_zero hz) _
  · have hne := count_of_refs_ne_zero (c := c) (by omega)
    unfold Cell.delete
    split
    · exact (h.recount hne _).lift
    · exact h.recount hne _
  · unfold Cell.disable
    split
    · exact h.lift
    · exact h

/-- Nothing was planted yet, an entry is referenced, and the byte is known. -/
structure Unplanted (o : Byte) (c : Cell) : Prop where
  saved : c.saved = none
  referenced : c.count ≠ none → 0 < c.refs
  byte : KnownByte o c.byte

/-- The first planting makes what an entry saved known. -/
theorem Unplanted.enable {o : Byte} {c : Cell} (h : c.Unplanted o) : (c.enable).Known o := by
  cases hc : c.count with
  | none =>
    have hsame : c.enable = c := by simp [Cell.enable, refs, hc]
    rw [hsame]
    exact ⟨fun b hb => (by cases h.saved.symm.trans hb), fun hne => (hne hc).elim, h.byte⟩
  | some n =>
    have hpos := h.referenced (by rw [hc]; exact Option.some_ne_none n)
    rw [Cell.enable, if_pos (by omega), Cell.plant, hc]
    refine ⟨fun b hb => ?_, fun _ => Option.some_ne_none _, Or.inr rfl⟩
    exact Option.some.inj hb ▸ h.byte

/-- A fresh cell is known once its breakpoint is enabled. -/
theorem Fresh.known {o : Byte} {c : Cell} (h : c.Fresh o) : (c.enable).Known o :=
  Unplanted.enable ⟨h.saved, h.referenced, Or.inl h.byte⟩

end Cell

/-! ## Every run -/

variable {ι : Type*} [DecidableEq ι]

/-- Before the first event the text is the original, and from then on its bytes are known. -/
structure Sys.KnownText (orig : Addr → Byte) (text : Set Addr) (s : Sys ι) : Prop where
  fresh : s.tracee.proc.breakpointsEnabled = -1 → ∀ a ∈ text, (s.tracee.cell a).Fresh (orig a)
  known : s.tracee.proc.breakpointsEnabled ≠ -1 → ∀ a ∈ text, (s.tracee.cell a).Known (orig a)

omit [DecidableEq ι] in
/-- An event leaves the bytes known, the first one included. -/
theorem Sys.KnownText.event {env : Env} {orig : Addr → Byte} {text : Set Addr} {s : Sys ι}
    {i : ι} {stop : Stop} {f' : Focus} (h : s.KnownText orig text)
    (heffect : Effect env (s.focus i stop) stop f') (hpid : s.tracee.proc.pid ≠ 0)
    (hpushed : (s.threads i).callstack.Pushed) (hbe : s.tracee.proc.breakpointsEnabled ≠ 0) :
    ∀ a ∈ text, (f'.tracee.cell a).Known (orig a) := by
  intro a ha
  by_cases hfirst : s.tracee.proc.breakpointsEnabled = -1
  · cases heffect with
    | first _ ht =>
      rw [ht, cell_enableAllBreakpoints, if_pos (by
        change s.tracee.proc.breakpointsEnabled ≤ 0
        rw [hfirst]
        decide)]
      exact (h.fresh hfirst a ha).known
    | line _ hne => exact (hne hfirst).elim
    | detach hne => exact (hne hfirst).elim
    | syscall _ _ hne => exact (hne hfirst).elim
    | sysret _ _ _ hne => exact (hne hfirst).elim
    | exec n hn hsys => exact (hpushed.not_exec hn hsys).elim
    | breakpoint hne => exact (hne hfirst).elim
  · exact heffect.cell_closed (Cell.closed_known (orig a) env.unset) hpid hpushed hbe hfirst
      (h.known hfirst a ha)

/-- In every run of a process with any number of threads the bytes of its text are known. -/
theorem Run.knownText {env : Env} {filename : String} {pid : Pid} {orig : Addr → Byte}
    {text : Set Addr} {tid : ι → Pid} {inputs : List (Input ι)} {s : Sys ι} (hpid : pid ≠ 0)
    (hr : Run (Sys.step env) (Sys.KeepsText text) (Sys.opened env filename pid orig tid) inputs s) :
    s.Steady pid (symbolsOf env (some filename)) ∧ s.KnownText orig text := by
  refine hr.invariant (P := fun s => s.Steady pid (symbolsOf env (some filename)) ∧
    s.KnownText orig text) ⟨Sys.Steady.opened .., ?_⟩ ?_
  · cases TextState.opened env filename pid orig text with
    | fresh hbe _ hcell => exact ⟨fun _ => hcell, fun hne => (hne hbe).elim⟩
    | planted hbe => cases hbe
    | lifted hbe => cases hbe
  · rintro t input u ⟨hsteady, hknown⟩ hkeeps hstep
    refine ⟨hsteady.step hstep, ?_⟩
    cases input with
    | interrupt =>
      cases hstep
      exact ⟨hknown.fresh, hknown.known⟩
    | store mem =>
      cases hstep
      exact ⟨fun hbe a ha => (Tracee.cell_store (hkeeps a ha)) ▸ hknown.fresh hbe a ha,
        fun hbe a ha => (Tracee.cell_store (hkeeps a ha)) ▸ hknown.known hbe a ha⟩
    | stop i stop =>
      have hafter := hsteady.enabled_of_stop hstep
      obtain ⟨hl, f', hf, rfl⟩ := Sys.step_stop_eq_some.mp hstep
      exact ⟨fun hbe => (hafter hbe).elim, fun _ => hknown.event (handle_effect hf).1
        (hsteady.pid ▸ hpid) (hsteady.pushed i) (hsteady.enabled_ne_zero hl)⟩

end Utrace
