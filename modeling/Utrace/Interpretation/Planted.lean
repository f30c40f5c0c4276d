import Utrace.Interpretation.Invariant

/-!
# What one thread leaves in the text

With a single thread every cell of the text is in one of two conditions. Before the
first event nothing is planted. From then on a referenced cell holds the trap over its
saved original byte, except the one the thread is being stepped over, which holds the
original byte until the step is reported.
-/

namespace Utrace

namespace Cell

/-- Nothing was planted yet, and an entry is referenced. -/
structure Fresh (o : Byte) (c : Cell) : Prop where
  byte : c.byte = o
  saved : c.saved = none
  referenced : c.count ≠ none → 0 < c.refs

/-- The condition of a cell with original byte `o` once the breakpoints are planted, where
`stepping` tells whether a thread is being stepped over it. -/
structure Shared (o : Byte) (stepping : Prop) (c : Cell) : Prop where
  saved : c.count ≠ none → c.saved = some o
  nonneg : 0 ≤ c.refs
  trapped : ¬stepping → 0 < c.refs → c.byte = trap
  original : c.refs = 0 → c.byte = o

/-- The condition where no other thread can have planted the trap again meanwhile. -/
structure Sound (o : Byte) (stepping : Prop) (c : Cell) : Prop extends Shared o stepping c where
  stepped : stepping → 0 < c.refs ∧ c.byte = o

/-- Where there are references there is a count. -/
theorem count_ne_none_of_refs {c : Cell} (h : 0 < c.refs) : c.count ≠ none := by
  intro hn
  simp [refs, hn] at h

/-- A planted cell is in order whoever is being stepped over it. -/
theorem shared_planted (o : Byte) (stepping : Prop) {n : Int} (hn : 0 < n) :
    Shared o stepping ⟨some n, some o, trap⟩ := by
  refine ⟨fun _ => rfl, ?_, fun _ _ => rfl, fun hz => ?_⟩ <;>
    simp only [refs, Option.getD_some] at * <;> omega

/-- A fresh cell is sound once its breakpoint is enabled. -/
theorem Fresh.enable {o : Byte} {c : Cell} (h : c.Fresh o) (stepping : Prop) :
    (c.enable).Shared o stepping := by
  cases hc : c.count with
  | none =>
    have hrefs : c.refs = 0 := by simp [refs, hc]
    have hsame : c.enable = c := by simp [Cell.enable, hrefs]
    rw [hsame]
    exact ⟨fun hne => (hne hc).elim, hrefs.ge, fun _ hp => by omega, fun _ => h.byte⟩
  | some n =>
    have hrefs : c.refs = n := by simp [refs, hc]
    have hpos := h.referenced (by simp [hc])
    have hplant : c.enable = ⟨some n, some o, trap⟩ := by
      rw [Cell.enable, if_pos (by omega), plant, hc, h.byte]
    rw [hplant]
    exact shared_planted o stepping (by omega)

namespace Shared

variable {o unset : Byte} {p q : Prop} {c : Cell}

/-- Only whether it is stepped over matters. -/
theorem congr (h : c.Shared o p) (hpq : p ↔ q) : c.Shared o q := by
  rwa [← propext hpq]

/-- An insertion keeps a cell shared. -/
theorem insert (h : c.Shared o p) : (c.insert true).Shared o p := by
  have hnonneg := h.nonneg
  by_cases hz : c.refs = 0
  · have hplant : c.insert true = ⟨some 1, some o, trap⟩ := by
      simp [Cell.insert, hz, plant, h.original hz]
    rw [hplant]
    exact shared_planted o p one_pos
  · have hpos : 0 < c.refs := by omega
    have hkeep : c.insert true = ⟨some (c.refs + 1), c.saved, c.byte⟩ := by
      simp [Cell.insert, hz]
    have hsaved := h.saved (count_ne_none_of_refs hpos)
    rw [hkeep]
    refine ⟨fun _ => hsaved, ?_, fun hp _ => h.trapped hp hpos, fun hn => ?_⟩ <;>
      simp only [refs, Option.getD_some] at * <;> omega

/-- So does a deletion of a reference there is. -/
theorem delete (h : c.Shared o p) (hpos : 1 ≤ c.refs) : (c.delete unset).Shared o p := by
  have hsaved := h.saved (count_ne_none_of_refs (by omega))
  have hrefs : (c.delete unset).refs = c.refs - 1 := by rw [refs, count_delete, Option.getD_some]
  refine ⟨fun _ => by rw [saved_delete, hsaved], by omega, fun hp hmore => ?_, fun hz => ?_⟩
  · rw [byte_delete, if_neg (by omega), h.trapped hp (by omega)]
  · rw [byte_delete, if_pos (by omega), hsaved, Option.getD_some]

/-- So do deletions, down to no reference. -/
theorem delete_iterate (h : c.Shared o p) {k : Nat} (hk : (k : Int) ≤ c.refs) :
    ((Cell.delete unset)^[k] c).Shared o p := by
  induction k with
  | zero => exact h
  | succ k ih =>
    rw [Function.iterate_succ_apply']
    refine (ih (by omega)).delete ?_
    rw [refs_delete_iterate]
    omega

/-- With its trap lifted a cell holds the original byte. -/
theorem byte_disable (h : c.Shared o p) : (c.disable unset).byte = o := by
  rw [Cell.disable]
  split
  · rename_i hz
    rw [lift]
    cases hc : c.count with
    | none => simp [refs, hc] at hz
    | some n => simp [h.saved (by simp [hc])]
  · rename_i hz
    exact h.original (not_not.mp hz)

/-- Lifting the trap of a referenced cell readies it for a step. -/
theorem disable (h : c.Shared o p) (hstep : c.refs ≠ 0 → q) : (c.disable unset).Shared o q := by
  have hrefs : (c.disable unset).refs = c.refs := by rw [refs, count_disable, refs]
  have hnonneg := h.nonneg
  refine ⟨fun hne => ?_, by omega, fun hq hpos => ?_, fun _ => h.byte_disable⟩
  · rw [count_disable] at hne
    have hsaved : (c.disable unset).saved = c.saved := by
      rw [Cell.disable]
      split
      · exact saved_lift unset c
      · rfl
    rw [hsaved, h.saved hne]
  · exact (hq (hstep (by omega))).elim

/-- Planting the trap of a referenced cell over the original byte ends a step. -/
theorem plant (hpos : 0 < c.refs) (hbyte : c.byte = o) : (c.plant).Shared o q := by
  cases hc : c.count with
  | none => simp [refs, hc] at hpos
  | some n =>
    have hn : c.refs = n := by simp [refs, hc]
    have hplant : c.plant = ⟨some n, some o, trap⟩ := by rw [Cell.plant, hc, hbyte]
    rw [hplant]
    exact shared_planted o q (by omega)

end Shared

end Cell

/-! ## One trap of one thread -/

/-- The cells of the text, while other threads may be stepped over some of them. -/
def TextShared (orig : Addr → Byte) (text : Set Addr) (others : Addr → Prop) (t : Tracee)
    (being : Option Addr) : Prop :=
  ∀ a ∈ text, (t.cell a).Shared (orig a) (being = some a ∨ others a)

/-- The cell the thread is being stepped over is referenced and holds its original byte. -/
def StepReady (orig : Addr → Byte) (text : Set Addr) (t : Tracee) (being : Option Addr) : Prop :=
  ∀ a ∈ text, being = some a → 0 < (t.cell a).refs ∧ t.mem a = orig a

/-- Standing on a breakpoint again keeps the text in order. -/
theorem SteppedOff.shared {env : Env} {c : Addr → Cell} {brk : Addr} {f' : Focus}
    {orig : Addr → Byte} {text : Set Addr} {others : Addr → Prop} (h : SteppedOff env c brk f')
    (hcell : ∀ a ∈ text, (c a).Shared (orig a) (others a)) :
    TextShared orig text others f'.tracee f'.thr.breakpointBeingEnabled ∧
      StepReady orig text f'.tracee f'.thr.breakpointBeingEnabled := by
  constructor
  · intro a ha
    rw [h.cell, h.being]
    by_cases hx : a = brk
    · subst hx
      rw [if_pos rfl]
      exact (hcell a ha).disable fun hz => Or.inl (by rw [if_neg hz])
    · rw [if_neg hx]
      refine (hcell a ha).congr ?_
      by_cases hz : (c brk).refs = 0 <;> simp [hz, Ne.symm hx]
  · intro a ha hbeing
    rw [h.being] at hbeing
    have hz : (c brk).refs ≠ 0 := by
      intro hz
      rw [if_pos hz] at hbeing
      cases hbeing
    rw [if_neg hz, Option.some.injEq] at hbeing
    subst hbeing
    have hnonneg := (hcell brk ha).nonneg
    have hcount : (f'.tracee.cell brk).refs = (c brk).refs := by
      rw [h.cell, if_pos rfl, Cell.refs, Cell.count_disable, Cell.refs]
    refine ⟨by omega, ?_⟩
    rw [← Tracee.byte_cell, h.cell, if_pos rfl]
    exact (hcell brk ha).byte_disable

/-- Whatever `process_breakpoint` does about a trap keeps the text in order, if a step that
ends finds its cell as it was left. -/
theorem Hit.shared {env : Env} {f f' : Focus} {stop : Stop} {brk : Addr} {orig : Addr → Byte}
    {text : Set Addr} (others : Addr → Prop) (h : Hit env f stop brk f')
    (hpid : f.tracee.proc.pid ≠ 0)
    (hshared : TextShared orig text others f.tracee f.thr.breakpointBeingEnabled)
    (hready : StepReady orig text f.tracee f.thr.breakpointBeingEnabled) :
    TextShared orig text others f'.tracee f'.thr.breakpointBeingEnabled ∧
      StepReady orig text f'.tracee f'.thr.breakpointBeingEnabled := by
  have hstill : f.thr.breakpointBeingEnabled = none →
      ∀ a ∈ text, (f.tracee.cell a).Shared (orig a) (others a) := by
    intro hnone a ha
    exact (hshared a ha).congr (by simp [hnone])
  cases h with
  | rearm b hbeing ht _ hafter =>
    rw [ht, hafter]
    refine ⟨fun a ha => ?_, fun _ _ => nofun⟩
    rw [cell_enableEntry]
    by_cases hx : a = b
    · subst hx
      rw [if_pos rfl]
      obtain ⟨hpos, hbyte⟩ := hready a ha hbeing
      exact Cell.Shared.plant hpos hbyte
    · rw [if_neg hx]
      exact (hshared a ha).congr (by simp [hbeing, Ne.symm hx])
  | ret n _ hnone _ _ _ hcounted hoff =>
    refine hoff.shared fun a ha => ?_
    unfold Focus.popCells
    rcases hcounted a with hc | hc
    · exact (hstill hnone a ha).delete_iterate hc
    · rw [hc]
      exact hstill hnone a ha
  | entry _ hnone _ _ _ hoff =>
    refine hoff.shared fun a ha => ?_
    unfold Focus.pushCells
    split
    · rw [decide_eq_true hpid]
      exact (hstill hnone a ha).insert
    · exact hstill hnone a ha
  | stray hnone _ _ ht _ hafter =>
    rw [ht, hafter, ← hnone]
    exact ⟨hshared, hready⟩

/-! ## One event of the only thread -/

/-- What is known of the text between two events: nothing is planted yet, or every
referenced cell is, but for the one the thread stands on, or everything was lifted. -/
inductive TextState (orig : Addr → Byte) (text : Set Addr) (t : Tracee) (being : Option Addr) : Prop
  | fresh (hbe : t.proc.breakpointsEnabled = -1) (hbeing : being = none)
      (hcell : ∀ a ∈ text, (t.cell a).Fresh (orig a))
  | planted (hbe : t.proc.breakpointsEnabled = 1)
      (hcell : ∀ a ∈ text, (t.cell a).Sound (orig a) (being = some a))
  | lifted (hbe : t.proc.breakpointsEnabled = 0) (hmem : ∀ a ∈ text, t.mem a = orig a)

/-- The flag is part of the record. -/
theorem breakpointsEnabled_of_header {t t' : Tracee} (h : t'.header = t.header) :
    t'.proc.breakpointsEnabled = t.proc.breakpointsEnabled := by
  change t'.header.breakpointsEnabled = t.header.breakpointsEnabled
  rw [h]

/-- `disable_all_breakpoints` puts the original byte back. -/
theorem mem_disableAllBreakpoints {env : Env} {t : Tracee} {a : Addr} {o : Byte}
    {stepping : Prop} (hbe : t.proc.breakpointsEnabled ≠ 0)
    (h : (t.cell a).Sound o stepping) : (disableAllBreakpoints env t).mem a = o := by
  rw [← Tracee.byte_cell, cell_disableAllBreakpoints, if_pos hbe, Cell.disable]
  by_cases hz : (t.cell a).refs = 0
  · rw [if_neg (by simpa using hz)]
    exact h.original hz
  · have hnonneg := h.nonneg
    have hne := Cell.count_ne_none_of_refs (c := t.cell a) (by omega)
    rw [if_pos hz, Cell.lift]
    cases hc : (t.cell a).count with
    | none => exact (hne hc).elim
    | some n => simp [h.saved hne]

/-- The cells of the text, when there is one thread only. -/
theorem TextState.of_shared {orig : Addr → Byte} {text : Set Addr} {t : Tracee}
    {being : Option Addr} (hbe : t.proc.breakpointsEnabled = 1)
    (hshared : TextShared orig text (fun _ => False) t being)
    (hready : StepReady orig text t being) : TextState orig text t being := by
  refine .planted hbe fun a ha => ?_
  exact { (hshared a ha).congr (iff_of_eq (or_false _)) with stepped := hready a ha }

/-- A trap leaves the flag of the process alone. -/
theorem Hit.breakpointsEnabled {env : Env} {f f' : Focus} {stop : Stop} {brk : Addr}
    (h : Hit env f stop brk f') :
    f'.tracee.proc.breakpointsEnabled = f.tracee.proc.breakpointsEnabled := by
  cases h with
  | rearm b _ ht =>
    rw [ht]
    exact breakpointsEnabled_of_header (header_enableEntry f.tracee b)
  | ret _ _ _ _ _ _ _ _ hh => exact breakpointsEnabled_of_header hh
  | entry _ _ _ _ _ _ hh => exact breakpointsEnabled_of_header hh
  | stray _ _ _ ht => rw [ht]

/-- A hit keeps the text planted. -/
theorem Hit.textState {env : Env} {f f' : Focus} {stop : Stop} {brk : Addr}
    {orig : Addr → Byte} {text : Set Addr} (h : Hit env f stop brk f')
    (hpid : f.tracee.proc.pid ≠ 0) (hbe : f.tracee.proc.breakpointsEnabled = 1)
    (hcell : ∀ a ∈ text, (f.tracee.cell a).Sound (orig a)
      (f.thr.breakpointBeingEnabled = some a)) :
    TextState orig text f'.tracee f'.thr.breakpointBeingEnabled := by
  obtain ⟨hshared, hready⟩ := h.shared (fun _ => False) hpid
    (fun a ha => (hcell a ha).toShared.congr (iff_of_eq (or_false _)).symm)
    fun a ha => (hcell a ha).stepped
  exact .of_shared (h.breakpointsEnabled.trans hbe) hshared hready

/-- An event of the only thread keeps the text in order. -/
theorem Effect.textState {env : Env} {f f' : Focus} {stop : Stop} {orig : Addr → Byte}
    {text : Set Addr} (h : Effect env f stop f') (hpid : f.tracee.proc.pid ≠ 0)
    (hexec : f.thr.callstack.Pushed) (hbe : f.tracee.proc.breakpointsEnabled ≠ 0)
    (htext : TextState orig text f.tracee f.thr.breakpointBeingEnabled) :
    TextState orig text f'.tracee f'.thr.breakpointBeingEnabled := by
  cases h with
  | first hfirst ht _ hb =>
    cases htext with
    | fresh _ hbeing hcell =>
      have hbe' : f'.tracee.proc.breakpointsEnabled = 1 := by rw [ht]; rfl
      refine .planted hbe' fun a ha => ?_
      rw [ht, hb, hbeing, cell_enableAllBreakpoints, if_pos (by rw [hfirst]; decide)]
      exact { (hcell a ha).enable _ with stepped := nofun }
    | planted hone => rw [hfirst] at hone; cases hone
    | lifted hz => exact (hbe hz).elim
  | line _ _ ht _ hb => rwa [ht, hb]
  | detach hne ht _ hb =>
    cases htext with
    | fresh hm => exact (hne hm).elim
    | planted hone hcell =>
      have hbe' : f'.tracee.proc.breakpointsEnabled = 0 := by rw [ht]; rfl
      refine .lifted hbe' fun a ha => ?_
      rw [ht]
      exact mem_disableAllBreakpoints hbe (hcell a ha)
    | lifted hz => exact (hbe hz).elim
  | syscall _ _ _ ht _ hb => rwa [ht hbe, hb]
  | sysret _ _ _ _ _ _ _ _ ht _ _ hb => rwa [ht, hb]
  | exec n hn hsys => exact (hexec.not_exec hn hsys).elim
  | breakpoint hne hit =>
    cases htext with
    | fresh hm => exact (hne hm).elim
    | planted hone hcell => exact hit.textState hpid hone hcell
    | lifted hz => exact (hbe hz).elim

/-! ## Every run of one thread -/

/-- The text is in order in the state a process with one thread is opened in. -/
theorem TextState.opened (env : Env) (filename : String) (pid : Pid) (orig : Addr → Byte)
    (text : Set Addr) : TextState orig text (openTracee env filename pid orig) none := by
  refine .fresh ?_ rfl fun a _ => ?_
  · exact congrArg Process.breakpointsEnabled (header_openTracee env filename pid orig)
  · rw [cell_openTracee]
    refine ⟨rfl, rfl, fun hne => ?_⟩
    by_cases hz : symbolRefs (symbolsOf env (some filename)) a = 0
    · simp [hz] at hne
    · simp only [hz, if_false, Cell.refs, Option.getD_some]
      omega

/-- A write of the process outside its text. -/
theorem TextState.store {orig : Addr → Byte} {text : Set Addr} {t : Tracee} {being : Option Addr}
    (h : TextState orig text t being) {mem : Addr → Byte} (hmem : ∀ a ∈ text, mem a = t.mem a) :
    TextState orig text { t with mem := mem } being := by
  have hcell : ∀ a ∈ text, Tracee.cell { t with mem := mem } a = t.cell a :=
    fun a ha => Tracee.cell_store (hmem a ha)
  cases h with
  | fresh hbe hbeing hc => exact .fresh hbe hbeing fun a ha => hcell a ha ▸ hc a ha
  | planted hbe hc => exact .planted hbe fun a ha => hcell a ha ▸ hc a ha
  | lifted hbe hm => exact .lifted hbe fun a ha => (hmem a ha).trans (hm a ha)

/-- Whatever happens to a process with one thread, its text is in order. -/
theorem Run.textState {ι : Type*} [DecidableEq ι] [Subsingleton ι] {env : Env}
    {filename : String} {pid : Pid} {orig : Addr → Byte} {text : Set Addr} {tid : ι → Pid}
    {inputs : List (Input ι)} {s : Sys ι} (hpid : pid ≠ 0)
    (hr : Run (Sys.step env) (Sys.KeepsText text) (Sys.opened env filename pid orig tid) inputs s)
    (i : ι) :
    s.Steady pid (symbolsOf env (some filename)) ∧
      TextState orig text s.tracee (s.threads i).breakpointBeingEnabled := by
  refine hr.invariant (P := fun s => s.Steady pid (symbolsOf env (some filename)) ∧
    TextState orig text s.tracee (s.threads i).breakpointBeingEnabled)
    ⟨Sys.Steady.opened .., TextState.opened ..⟩ ?_
  rintro t input u ⟨hsteady, htext⟩ hkeeps hstep
  refine ⟨hsteady.step hstep, ?_⟩
  cases input with
  | interrupt =>
    cases hstep
    exact htext
  | store mem =>
    cases hstep
    exact htext.store hkeeps
  | stop j stop =>
    obtain ⟨hl, f', hf, rfl⟩ := Sys.step_stop_eq_some.mp hstep
    obtain rfl : i = j := Subsingleton.elim i j
    rw [Sys.threads_put_self]
    exact (handle_effect hf).1.textState (hsteady.pid ▸ hpid) (hsteady.pushed i)
      (hsteady.enabled_ne_zero hl) htext

end Utrace
