import Utrace.Interpretation.Bytes
import Utrace.Interpretation.Counted

/-!
# What a forked child inherits

`process_syscall` lifts no trap at the entry of a `fork`, so the child runs a copy of the
instrumented text. An unfollowed child keeps the traps; for a followed one its own table
saves them as the program's bytes.
-/

namespace Utrace

variable {ι : Type*}

/-- Every breakpoint address holds the original byte in a copy of the memory. -/
def Sys.CopyClean (orig : Addr → Byte) (text : Set Addr) (s : Sys ι) : Prop :=
  ∀ a ∈ text, s.tracee.entry a ≠ none → s.tracee.mem a = orig a

/-- `open_pid` on a child with a copy of the memory, and its first event. -/
def followed (env : Env) (filename : String) (child : Pid) (mem : Addr → Byte) (first : Stop) :
    Option (Sys Unit) :=
  (Sys.opened env filename child mem fun _ => child).step env (.stop () first)

/-- Every entry of the table of a followed child saved the original byte. -/
def ChildClean (env : Env) (orig : Addr → Byte) (text : Set Addr) (filename : String)
    (child : Pid) (mem : Addr → Byte) : Prop :=
  ∀ first s, followed env filename child mem first = some s →
    ∀ a ∈ text, ∀ sbp, s.tracee.entry a = some sbp → sbp.origValue 0 = some (orig a)

/-- Nothing has to be lifted at `a`: the entry there is not referenced, or the thread is being
stepped over it, or the program has a trap of its own there. -/
def Sys.Lifted (orig : Addr → Byte) (s : Sys ι) (i : ι) (a : Addr) : Prop :=
  0 < s.tracee.enabledAt a → (s.threads i).breakpointBeingEnabled = some a ∨ orig a = trap

/-! ## The child -/

/-- The first event of a child plants the table of its file. -/
theorem followed_eq (env : Env) (filename : String) (child : Pid) (mem : Addr → Byte)
    (first : Stop) :
    ∃ s, followed env filename child mem first = some s ∧
      s.tracee = enableAllBreakpoints (openTracee env filename child mem) := by
  obtain ⟨_, f, hf, htracee, _⟩ := Sys.opened_event env filename child mem (fun _ => child) () first
  exact ⟨_, Sys.step_stop_eq_some.mpr ⟨rfl, f, hf, rfl⟩, htracee⟩

/-- In a followed child each symbol's address holds a trap and its count, and the rest its own
byte. -/
theorem cell_followed (env : Env) (filename : String) (child : Pid) (mem : Addr → Byte)
    (a : Addr) :
    (enableAllBreakpoints (openTracee env filename child mem)).cell a =
      if symbolRefs (symbolsOf env (some filename)) a = 0 then ⟨none, none, mem a⟩
      else ⟨some (symbolRefs (symbolsOf env (some filename)) a), some (mem a), trap⟩ := by
  have hbe : (openTracee env filename child mem).proc.breakpointsEnabled = -1 :=
    congrArg Process.breakpointsEnabled (header_openTracee env filename child mem)
  rw [cell_enableAllBreakpoints, if_pos (by rw [hbe]; decide), cell_openTracee]
  by_cases hz : symbolRefs (symbolsOf env (some filename)) a = 0 <;>
    simp [hz, Cell.enable, Cell.refs, Cell.plant]

/-- The table of a child is clean exactly when the copy is, at the symbols of its file. -/
theorem childClean_iff (env : Env) (orig : Addr → Byte) (text : Set Addr) (filename : String)
    (child : Pid) (mem : Addr → Byte) :
    ChildClean env orig text filename child mem ↔
      ∀ a ∈ text, symbolRefs (symbolsOf env (some filename)) a ≠ 0 → mem a = orig a := by
  have hentry : ∀ a, symbolRefs (symbolsOf env (some filename)) a ≠ 0 → ∃ sbp,
      (enableAllBreakpoints (openTracee env filename child mem)).entry a = some sbp ∧
        sbp.origValue 0 = some (mem a) := by
    intro a hz
    have hcell := cell_followed env filename child mem a
    rw [if_neg hz] at hcell
    obtain ⟨sbp, hsbp, _⟩ := Tracee.count_cell_eq_some.mp (congrArg Cell.count hcell)
    have hsaved := congrArg Cell.saved hcell
    exact ⟨sbp, hsbp, by simpa [Tracee.cell, hsbp] using hsaved⟩
  constructor
  · intro hclean a ha hz
    obtain ⟨s, hs, htracee⟩ := followed_eq env filename child mem { status := .stopped sigtrap }
    obtain ⟨sbp, hsbp, hsaved⟩ := hentry a hz
    have horig := hclean _ s hs a ha sbp (htracee ▸ hsbp)
    exact Option.some.inj (hsaved.symm.trans horig)
  · intro hmem first s hs a ha sbp hsbp
    obtain ⟨s', hs', htracee⟩ := followed_eq env filename child mem first
    obtain rfl : s' = s := Option.some.inj (hs'.symm.trans hs)
    rw [htracee] at hsbp
    by_cases hz : symbolRefs (symbolsOf env (some filename)) a = 0
    · have hcell := cell_followed env filename child mem a
      rw [if_pos hz] at hcell
      rw [Tracee.count_cell_eq_none.mp (congrArg Cell.count hcell)] at hsbp
      cases hsbp
    · obtain ⟨sbp', hsbp', hsaved⟩ := hentry a hz
      rw [Option.some.inj (hsbp.symm.trans hsbp'), hsaved, hmem a ha hz]

/-- Where the bytes of a copy are told by a condition on their addresses, so are both children. -/
theorem Sys.copy_iff_of_bytes {orig : Addr → Byte} {text : Set Addr} {s : Sys ι}
    {clean : Addr → Prop} (h : ∀ a ∈ text, s.tracee.mem a = orig a ↔ clean a) (env : Env) :
    (s.CopyClean orig text ↔ ∀ a ∈ text, s.tracee.entry a ≠ none → clean a) ∧
      ∀ childFile child, ChildClean env orig text childFile child s.tracee.mem ↔
        ∀ a ∈ text, symbolRefs (symbolsOf env (some childFile)) a ≠ 0 → clean a := by
  constructor
  · exact forall₂_congr fun a ha => imp_congr_right fun _ => h a ha
  · intro childFile child
    rw [childClean_iff]
    exact forall₂_congr fun a ha => imp_congr_right fun _ => h a ha

/-! ## The parent -/

variable [DecidableEq ι]

/-- The entry of a system call changes no byte, no entry and no pending step. -/
theorem Sys.Steady.syscall_entry {env : Env} {pid : Pid} {symbols : List LibrarySymbol}
    {s s₁ : Sys ι} {i : ι} {entry : Stop} {n : Int} (h : s.Steady pid symbols)
    (hentry : s.step env (.stop i entry) = some s₁)
    (hclass : s.classify env i entry = .syscall n) :
    s.tracee.proc.breakpointsEnabled = 1 ∧ s₁.tracee = s.tracee := by
  obtain ⟨hl, f', hf, rfl⟩ := Sys.step_stop_eq_some.mp hentry
  unfold Sys.classify at hclass
  obtain ⟨hbe, ip, _, hhandle⟩ := handle_of_class hclass (by rintro ⟨⟩)
  have hone : s.tracee.proc.breakpointsEnabled = 1 := (h.enabled hl).resolve_left hbe
  refine ⟨hone, ?_⟩
  change f'.tracee = s.tracee
  have hok : processSyscall env ((s.focus i entry).withIp ip) n = f' :=
    Except.ok.inj (hhandle.symm.trans hf)
  rw [← hok]
  exact tracee_processSyscall env (by
    change s.tracee.proc.breakpointsEnabled ≠ 0
    rw [hone]
    decide) n

omit [DecidableEq ι] in
/-- With one thread, the memory is clean at an address exactly when nothing had to be lifted
there. -/
theorem TextState.clean_iff {orig : Addr → Byte} {text : Set Addr} {s : Sys ι} {i : ι}
    (h : TextState orig text s.tracee (s.threads i).breakpointBeingEnabled)
    (hbe : s.tracee.proc.breakpointsEnabled = 1) {a : Addr} (ha : a ∈ text) :
    s.tracee.mem a = orig a ↔ s.Lifted orig i a := by
  cases h with
  | fresh hminus => cases hbe.symm.trans hminus
  | lifted hzero => cases hbe.symm.trans hzero
  | planted _ hcell =>
    have hsound := hcell a ha
    constructor
    · intro hmem hpos
      by_cases hstep : (s.threads i).breakpointBeingEnabled = some a
      · exact Or.inl hstep
      · exact Or.inr (hmem.symm.trans (hsound.trapped hstep hpos))
    · intro hlifted
      rcases hsound.nonneg.eq_or_lt with hz | hpos
      · exact hsound.original hz.symm
      · by_cases hstep : (s.threads i).breakpointBeingEnabled = some a
        · exact (hsound.stepped hstep).2
        · have htrap : s.tracee.mem a = trap := hsound.trapped hstep hpos
          rw [htrap, (hlifted hpos).resolve_left hstep]

/-- Where no thread but `i` runs, nothing changes the text between two of its stops. -/
theorem Run.tracee_between [Subsingleton ι] {env : Env} {text : Set Addr} {s₁ s₂ : Sys ι} {i : ι}
    {between : List (Input ι)}
    (hr : Run (Sys.step env) (fun s input => s.KeepsText text input ∧ ∀ stop, input ≠ .stop i stop)
      s₁ between s₂) :
    s₂.tracee.proc = s₁.tracee.proc ∧ ∀ a ∈ text, s₂.tracee.mem a = s₁.tracee.mem a := by
  refine hr.invariant (P := fun s => s.tracee.proc = s₁.tracee.proc ∧
    ∀ a ∈ text, s.tracee.mem a = s₁.tracee.mem a) ⟨rfl, fun _ _ => rfl⟩ ?_
  rintro t input u ⟨hproc, hmem⟩ ⟨hkeeps, hother⟩ hstep
  cases input with
  | interrupt =>
    cases hstep
    exact ⟨hproc, hmem⟩
  | store mem =>
    cases hstep
    exact ⟨hproc, fun a ha => (hkeeps a ha).trans (hmem a ha)⟩
  | stop j stop => exact (hother stop (by rw [Subsingleton.elim i j])).elim

/-- For every reachable state, every system call entered (a fork is one) and every moment until
its exit at which the kernel may copy the memory:
an unfollowed child holds the original byte at every breakpoint address, and the table of a
followed child saved it, exactly when the copy has a trap at such an address only where the
program has one. With one thread, that is when no entry there is referenced, but for the one
the thread is being stepped over. -/
theorem fork_copy_iff (env : Env) (filename : String) {pid : Pid} (hpid : pid ≠ 0)
    (orig : Addr → Byte) (text : Set Addr) (tid : ι → Pid) {inputs between : List (Input ι)}
    {s s₁ s₂ : Sys ι} {i : ι} {entry : Stop} {n : Int}
    (hr : Run (Sys.step env) (Sys.KeepsText text) (Sys.opened env filename pid orig tid) inputs s)
    (hentry : s.step env (.stop i entry) = some s₁)
    (hclass : s.classify env i entry = .syscall n)
    (hbetween : Run (Sys.step env)
      (fun s input => s.KeepsText text input ∧ ∀ stop, input ≠ .stop i stop) s₁ between s₂) :
    ((s₂.CopyClean orig text ↔ ∀ a ∈ text, s₂.tracee.entry a ≠ none →
        s₂.tracee.mem a = trap → orig a = trap) ∧
      ∀ childFile child, ChildClean env orig text childFile child s₂.tracee.mem ↔
        ∀ a ∈ text, symbolRefs (symbolsOf env (some childFile)) a ≠ 0 →
          s₂.tracee.mem a = trap → orig a = trap) ∧
    (Subsingleton ι →
      (s₂.CopyClean orig text ↔ ∀ a ∈ text, s.tracee.entry a ≠ none → s.Lifted orig i a) ∧
      ∀ childFile child, ChildClean env orig text childFile child s₂.tracee.mem ↔
        ∀ a ∈ text, symbolRefs (symbolsOf env (some childFile)) a ≠ 0 → s.Lifted orig i a) := by
  have hkeeps : s.KeepsText text (.stop i entry) := trivial
  have hr₂ := (hr.snoc hkeeps hentry).append (hbetween.mono fun _ _ hg => hg.1)
  obtain ⟨hsteady, -⟩ := hr.knownText hpid
  obtain ⟨hone, htracee⟩ := hsteady.syscall_entry hentry hclass
  constructor
  · obtain ⟨hsteady₂, hknown⟩ := hr₂.knownText hpid
    have hbe₂ : s₂.tracee.proc.breakpointsEnabled ≠ -1 := by
      refine hbetween.invariant (P := fun s => s.Steady pid (symbolsOf env (some filename)) ∧
        s.tracee.proc.breakpointsEnabled ≠ -1)
        ⟨hsteady.step hentry, hsteady.enabled_of_stop hentry⟩ ?_ |>.2
      exact fun _ _ _ ht _ hs => ⟨ht.1.step hs, ht.1.enabled_step ht.2 hs⟩
    exact Sys.copy_iff_of_bytes (fun a ha => (hknown.known hbe₂ a ha).byte.eq_iff) env
  · intro hsub
    obtain ⟨hproc, hmem⟩ := hbetween.tracee_between
    have hlifted : ∀ a ∈ text, s₂.tracee.mem a = orig a ↔ s.Lifted orig i a := by
      intro a ha
      rw [hmem a ha, htracee]
      exact TextState.clean_iff (hr.textState hpid i).2 hone ha
    have hentries : ∀ a, s₂.tracee.entry a = s.tracee.entry a := by
      intro a
      rw [Tracee.entry, hproc, htracee, Tracee.entry]
    have hcopy := Sys.copy_iff_of_bytes hlifted env
    simp only [hentries] at hcopy
    exact hcopy

/-- The stop at the entry of a `fork`. -/
def forkStop : Stop := { status := .stopped sigtrap, origEax := 2 }

/-- Right after the first event the only thread of the process forks. -/
theorem exists_fork :
    ∃ s s₁ : Sys Unit, Run (Sys.step twoFunctions) (Sys.KeepsText Set.univ)
        (Sys.opened twoFunctions "a.out" 7 nops fun _ => 7) [.stop () (trapStop 0x3000)] s ∧
      s.step twoFunctions (.stop () forkStop) = some s₁ ∧
      s.classify twoFunctions () forkStop = .syscall 2 ∧
      s₁.tracee.entry 0x1000 ≠ none ∧ s₁.tracee.mem 0x1000 = trap ∧
      (s.threads ()).breakpointBeingEnabled = none ∧ s.tracee.enabledAt 0x1000 = 1 := by
  have hobs : (runInputs (Sys.step twoFunctions) (fun _ input => Sys.noStore input)
      (Sys.opened twoFunctions "a.out" 7 nops fun _ : Unit => 7)
      [.stop () (trapStop 0x3000)]).any (fun s =>
        (s.step twoFunctions (.stop () forkStop)).any fun s₁ =>
          s.classify twoFunctions () forkStop == .syscall 2 &&
          (s₁.tracee.entry 0x1000).isSome && s₁.tracee.mem 0x1000 == trap &&
          (s.threads ()).breakpointBeingEnabled == none &&
          s.tracee.enabledAt 0x1000 == 1) = true := by
    decide +kernel
  obtain ⟨s, hr, hs⟩ := exists_run_of_observe (Sys.keepsText_of_noStore Set.univ) hobs
  simp only [Option.any_eq_true, Bool.and_eq_true, beq_iff_eq] at hs
  obtain ⟨s₁, hs₁, ⟨⟨⟨hclass, hentry⟩, hmem⟩, hbeing⟩, hcount⟩ := hs
  exact ⟨s, s₁, hr, hs₁, hclass, Option.ne_none_iff_isSome.mpr hentry, hmem, hbeing, hcount⟩

/-- The child of that fork runs into the trap of `f` with nobody to trace it. -/
theorem fork_copy_trapped :
    ¬∀ (env : Env) (filename : String) (pid : Pid) (orig : Addr → Byte) (text : Set Addr)
      (inputs between : List (Input Unit)) (s s₁ s₂ : Sys Unit) (entry : Stop) (n : Int),
      pid ≠ 0 → Run (Sys.step env) (Sys.KeepsText text)
        (Sys.opened env filename pid orig fun _ => pid) inputs s →
      s.step env (.stop () entry) = some s₁ → s.classify env () entry = .syscall n →
      forkP n = true → Run (Sys.step env)
        (fun s input => s.KeepsText text input ∧ ∀ stop, input ≠ .stop () stop) s₁ between s₂ →
      (env.optf = false → s₂.CopyClean orig text) ∧
      (env.optf = true → ∀ childFile child, env.pid2name child = some childFile →
        ChildClean env orig text childFile child s₂.tracee.mem) := by
  intro hclaim
  obtain ⟨s, s₁, hr, hstep, hclass, hentry, hmem, -⟩ := exists_fork
  obtain ⟨hclean, -⟩ := hclaim twoFunctions "a.out" 7 nops Set.univ _ [] s s₁ s₁ forkStop 2
    (by decide) hr hstep hclass (by decide) .nil
  have horig := hclean rfl 0x1000 (Set.mem_univ _) hentry
  rw [hmem] at horig
  exact absurd horig (by decide)

/-- The same fork, by the general result: the entry of `f` is referenced and not lifted. -/
theorem fork_copy_iff_example :
    ∃ s s₁ : Sys Unit, s.step twoFunctions (.stop () forkStop) = some s₁ ∧
      ¬s.Lifted nops () 0x1000 ∧ ¬s₁.CopyClean nops Set.univ := by
  obtain ⟨s, s₁, hr, hstep, hclass, hentry, hmem, hbeing, hcount⟩ := exists_fork
  have hiff := fork_copy_iff twoFunctions "a.out" (by decide) nops Set.univ _ hr hstep hclass .nil
  have hdirty : ¬s.Lifted nops () 0x1000 := by
    intro hlifted
    rcases hlifted (by rw [hcount]; decide) with hstepping | htrap
    · cases hbeing.symm.trans hstepping
    · exact absurd htrap (by decide)
  have hentry' : s.tracee.entry 0x1000 ≠ none := by
    intro hnone
    rw [Tracee.enabledAt, hnone] at hcount
    cases hcount
  refine ⟨s, s₁, hstep, hdirty, fun hclean => hdirty ?_⟩
  exact (hiff.2 inferInstance).1.mp hclean 0x1000 (Set.mem_univ _) hentry'

end Utrace
