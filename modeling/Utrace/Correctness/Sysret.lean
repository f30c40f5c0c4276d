import Utrace.Interpretation.Effect
import Utrace.Native.Session
import Utrace.Native.System

/-!
# What the exit of a fork or clone leaves alone

The exit of `fork`, `vfork` or `clone` should pop its own entry and make the child known, and
nothing else. With `-f`, though, a fork passes the thread where a process is expected, which
writes to the bottom of the call stack, and a clone registers its result without a look at
it.
-/

namespace Utrace

variable {env : Env} {w : Wait} {tr tr' : Tracer} {table table' : ThreadTable} {f f' : Focus}

/-- `process_sysret`, with the calls it makes into `proc.c`: the thread and its process, all
processes, and the slots of this one. -/
def sysretWithCalls (env : Env) (w : Wait) (tr : Tracer) (table : ThreadTable) (f : Focus) :
    Except Halt (Focus × Tracer × ThreadTable) :=
  (processSysret env f w.stop w.stop.origEax).bind fun f' =>
    (makeCalls env w f'.calls (tr, table)).map fun s => (f', s)

/-- A clone that is followed and created a thread. -/
def Cloned (env : Env) (w : Wait) : Prop :=
  cloneP w.stop.origEax = true ∧ env.optf = true ∧ 0 < w.stop.eax

/-- A fork that is followed and created a process. -/
def Forked (env : Env) (w : Wait) : Prop :=
  forkP w.stop.origEax = true ∧ env.optf = true ∧ 0 < w.stop.eax

/-- What is promised of the state after the exit. -/
structure SysretFrame (env : Env) (w : Wait) (tr : Tracer) (table : ThreadTable) (f : Focus)
    (after : Focus × Tracer × ThreadTable) : Prop where
  /-- The top entry is popped, and the others are as they were. -/
  stack : after.1.thr.callstack = f.thr.callstack.pop
  /-- A new thread gets a slot, and no other slot changes hands. -/
  threads : ∀ k, (after.2.2.threads k).tid = (table.threads k).tid ∨
    Cloned env w ∧ (after.2.2.threads k).tid = w.stop.eax
  /-- A new process is opened, and no other. -/
  procs : after.2.1 = tr ∨ Forked env w ∧ openPid env tr w w.stop.eax = .ok after.2.1
  /-- A failed call leaves the tables alone. -/
  failed : w.stop.eax < 0 → after.2 = (tr, table)

/-- utrace may give up where a new thread finds no slot; else it goes on. -/
def SysretFrames (env : Env) (w : Wait) (tr : Tracer) (table : ThreadTable) (f : Focus) : Prop :=
  (∃ after, sysretWithCalls env w tr table f = .ok after ∧ SysretFrame env w tr table f after) ∨
    Cloned env w ∧ sysretWithCalls env w tr table f = .error (.exit 1)

/-- Where a thread is taken for a process, `callstack[0].return_addr` already holds what is
written there; where that entry is the one to be popped, it must only be positive. -/
def BottomKept (cs : Callstack) : Prop :=
  ∃ elem, cs.elems.getLast? = some elem ∧
    if cs.depth = 1 then 0 < elem.returnAddr.toInt else elem.returnAddr = 1

/-- The exits that change nothing else. -/
def SysretKeeps (env : Env) (w : Wait) (table : ThreadTable) (f : Focus) : Prop :=
  env.optf = true →
    (cloneP w.stop.origEax = true →
      0 < w.stop.eax ∨ ∃ k, (table.threads k).tid = w.stop.eax) ∧
    (forkP w.stop.origEax = true → BottomKept f.thr.callstack)

/-! ## The overlay -/

/-- The oldest element gets another return address. -/
theorem elems_setBottom (cs : Callstack) (addr : Addr) : (cs.setBottom addr).elems =
    cs.elems.modify (cs.elems.length - 1) fun elem => { elem with returnAddr := addr } := rfl

/-- The last of a list is changed. -/
theorem modify_concat {α : Type*} (xs : List α) (x : α) (g : α → α) :
    (xs ++ [x]).modify xs.length g = xs ++ [g x] := by
  induction xs with
  | nil => rfl
  | cons y xs ih => rw [List.cons_append, List.length_cons, List.modify_succ_cons, ih]; rfl

/-- The write to the bottom of the stack is harmless exactly where it changes nothing. -/
theorem setBottom_pop_iff {cs : Callstack} {top elem : CallstackElement}
    {rest : List CallstackElement} (htop : cs.elems = top :: rest)
    (hrest : rest.getLast? = some elem) :
    (cs.setBottom 1).pop = cs.pop ↔ elem.returnAddr = 1 := by
  obtain ⟨before, rfl⟩ := List.getLast?_eq_some_iff.mp hrest
  have hbottom : (cs.setBottom 1).pop.elems = before ++ [{ elem with returnAddr := 1 }] := by
    have hlength : (top :: (before ++ [elem])).length - 1 = before.length + 1 := by simp
    rw [Callstack.elems_pop, elems_setBottom, htop, hlength, List.modify_succ_cons,
      modify_concat, List.tail_cons]
  rw [Callstack.ext_iff, hbottom, Callstack.elems_pop, htop, List.tail_cons,
    List.append_cancel_left_eq, List.cons.injEq]
  constructor
  · rintro ⟨hsame, _⟩
    rw [← hsame]
  · intro h
    refine ⟨?_, rfl⟩
    rw [← h]

/-- With a system call on top, the overlay goes through and changes nothing that stays. -/
theorem enableAllBreakpointsThread_iff {top : CallstackElement} {rest : List CallstackElement}
    (htop : f.thr.callstack.elems = top :: rest) (hsys : top.isSyscall = true) :
    (∃ f₁, enableAllBreakpointsThread f = .ok f₁ ∧
      f₁.thr.callstack.pop = f.thr.callstack.pop) ↔ BottomKept f.thr.callstack := by
  have hdepth : f.thr.callstack.depth = rest.length + 1 := by
    rw [Callstack.depth, htop, List.length_cons]
  unfold enableAllBreakpointsThread BottomKept
  rw [hdepth]
  cases hlast : rest.getLast? with
  | none =>
    obtain rfl := List.getLast?_eq_none_iff.mp hlast
    rw [htop]
    simp only [List.getLast?_singleton, Option.some.injEq, hsys, and_true, List.length_nil,
      Nat.zero_add, if_true, exists_eq_left']
    split
    · rename_i hle
      exact iff_of_false (by simp) (not_lt.mpr hle)
    · rename_i hle
      refine iff_of_true ⟨_, rfl, ?_⟩ (not_le.mp hle)
      apply Callstack.ext
      rw [Callstack.elems_pop, Callstack.elems_pop, elems_setBottom, htop]
      rfl
  | some elem =>
    have hrest : rest ≠ [] := by
      rintro rfl
      cases hlast
    have hbottom : (top :: rest).getLast? = some elem := by
      rw [List.getLast?_cons_of_ne_nil hrest, hlast]
    have hone : ¬rest.length + 1 = 1 := by
      have hpos := List.length_pos_iff.mpr hrest
      omega
    rw [htop, hbottom]
    simp only [Option.some.injEq, exists_eq_left', if_neg hone]
    split
    · rename_i hwild
      refine iff_of_false (by simp) fun haddr => ?_
      rw [haddr] at hwild
      exact absurd hwild.1 (by decide)
    · rw [← setBottom_pop_iff htop hlast]
      constructor
      · rintro ⟨f₁, hf₁, hpop⟩
        cases hf₁
        exact hpop
      · intro hpop
        exact ⟨_, rfl, hpop⟩

/-- The fork branch goes through and keeps the rest of the stack. -/
theorem sysretFork_iff {stop : Stop} {n : Int}
    (htop : f.thr.callstack.elems.head?.map CallstackElement.cUn = some (.syscall n)) :
    (∃ f₁, sysretFork env f stop n = .ok f₁ ∧ f₁.thr.callstack.pop = f.thr.callstack.pop) ↔
      (forkP n = true ∧ env.optf = true → BottomKept f.thr.callstack) := by
  obtain ⟨top, hhead, hcUn⟩ := Option.map_eq_some_iff.mp htop
  obtain ⟨rest, helems⟩ := List.head?_eq_some_iff.mp hhead
  have hsys : top.isSyscall = true := by rw [CallstackElement.isSyscall, hcUn]
  unfold sysretFork
  by_cases hfork : forkP n = true ∧ env.optf = true
  · have hsame : ∀ f₀ : Focus, f₀.thr = f.thr → ((∃ f₁, enableAllBreakpointsThread f₀ = .ok f₁ ∧
        f₁.thr.callstack.pop = f.thr.callstack.pop) ↔ BottomKept f.thr.callstack) := by
      intro f₀ hthr
      rw [← hthr] at helems ⊢
      exact enableAllBreakpointsThread_iff helems hsys
    rw [if_pos hfork, hsame _ (by split <;> rfl)]
    exact ⟨fun h _ => h, fun h => h hfork⟩
  · rw [if_neg hfork]
    exact iff_of_true ⟨f, rfl, rfl⟩ fun h => absurd h hfork

/-! ## The calls -/

/-- The exit goes through, and then its calls do. -/
theorem sysretWithCalls_eq_ok {after : Focus × Tracer × ThreadTable} :
    sysretWithCalls env w tr table f = .ok after ↔
      processSysret env f w.stop w.stop.origEax = .ok after.1 ∧
        makeCalls env w after.1.calls (tr, table) = .ok after.2 := by
  unfold sysretWithCalls
  cases processSysret env f w.stop w.stop.origEax with
  | error halt => simp [Except.bind]
  | ok f' =>
    simp only [Except.bind, Except.ok.injEq]
    constructor
    · intro h
      cases hcalls : makeCalls env w f'.calls (tr, table) with
      | error halt => simp [hcalls, Except.map] at h
      | ok s =>
        rw [hcalls] at h
        cases h
        exact ⟨rfl, hcalls⟩
    · rintro ⟨rfl, hcalls⟩
      rw [hcalls]
      rfl

/-- Opening a child goes through. -/
theorem exists_openPid (env : Env) (tr : Tracer) (w : Wait) (child : Pid) :
    ∃ tr', openPid env tr w child = .ok tr' := by
  rcases openPid_cases env tr w child with ⟨_, _, _, _, _, hopen⟩ | ⟨_, hopen⟩
  · exact ⟨_, hopen⟩
  · exact ⟨_, hopen⟩

/-! ## The two exits -/

/-- `fork` is no `execve`. -/
theorem execP_of_forkP {n : Int} (h : forkP n = true) : execP n = false := by
  unfold forkP at h
  simp only [Bool.or_eq_true, beq_iff_eq] at h
  rcases h with rfl | rfl <;> rfl

/-- Nor is `clone` either of them. -/
theorem forkP_execP_of_cloneP {n : Int} (h : cloneP n = true) :
    forkP n = false ∧ execP n = false := by
  have hn : n = 120 := beq_iff_eq.mp h
  subst hn
  exact ⟨rfl, rfl⟩

/-- The exit of a fork keeps the frame exactly where the overlay does. -/
theorem sysretFrames_fork_iff (hcalls : f.calls = [])
    (htop : f.thr.callstack.elems.head?.map CallstackElement.cUn = some (.syscall w.stop.origEax))
    (hfork : forkP w.stop.origEax = true) :
    SysretFrames env w tr table f ↔ (env.optf = true → BottomKept f.thr.callstack) := by
  have hexec := execP_of_forkP hfork
  have hclone := cloneP_of_forkP hfork
  have hkept : (forkP w.stop.origEax = true ∧ env.optf = true → BottomKept f.thr.callstack) ↔
      (env.optf = true → BottomKept f.thr.callstack) :=
    ⟨fun h hoptf => h ⟨hfork, hoptf⟩, fun h hboth => h hboth.2⟩
  have hiff : (∃ f₁, sysretFork env f w.stop w.stop.origEax = .ok f₁ ∧
      f₁.thr.callstack.pop = f.thr.callstack.pop) ↔ _ := sysretFork_iff htop
  rw [← hkept, ← hiff]
  constructor
  · rintro (⟨after, hok, hframe⟩ | ⟨hcloned, _⟩)
    · have hexit := (sysretWithCalls_eq_ok.mp hok).1
      obtain ⟨f₁, hf₁, _, hcs, _⟩ := processSysret_popped htop hexec hexit
      exact ⟨f₁, hf₁, hcs.symm.trans hframe.stack⟩
    · rw [Cloned, hclone] at hcloned
      cases hcloned.1
  · rintro ⟨f₁, hf₁, hpop⟩
    obtain ⟨f', hf'⟩ := processSysret_of_sysretFork htop hf₁
    obtain ⟨g, hg, _, hcs, _⟩ := processSysret_popped htop hexec hf'
    obtain ⟨g', hg', hmade⟩ := calls_processSysret hf'
    rw [hf₁] at hg hg'
    cases hg
    cases hg'
    have hstack := hcs.trans hpop
    have hsame : (sysretClone env f₁ w.stop w.stop.origEax).calls = f₁.calls := by
      rw [sysretClone, if_neg (by simp [hclone])]
    rw [hsame] at hmade
    rcases calls_sysretFork hf₁ with hnone | ⟨hboth, heax, hopen⟩
    · have hok : sysretWithCalls env w tr table f = .ok (f', tr, table) := by
        rw [sysretWithCalls_eq_ok, hmade, hnone, hcalls]
        exact ⟨hf', rfl⟩
      exact Or.inl ⟨_, hok, hstack, fun k => Or.inl rfl, Or.inl rfl, fun _ => rfl⟩
    · obtain ⟨tr', htr'⟩ := exists_openPid env tr w w.stop.eax
      have hok : sysretWithCalls env w tr table f = .ok (f', tr', table) := by
        rw [sysretWithCalls_eq_ok, hmade, hopen, hcalls]
        refine ⟨hf', ?_⟩
        rw [makeCalls, htr']
        rfl
      exact Or.inl ⟨_, hok, hstack, fun k => Or.inl rfl,
        Or.inr ⟨⟨hboth.1, hboth.2, heax⟩, htr'⟩, fun hneg => absurd heax (not_lt.mpr hneg.le)⟩

/-- The exit of a clone pops the entry, and with `-f` it registers its result. -/
theorem sysretWithCalls_clone (hcalls : f.calls = [])
    (htop : f.thr.callstack.elems.head?.map CallstackElement.cUn = some (.syscall w.stop.origEax))
    (hclone : cloneP w.stop.origEax = true) :
    ∃ f', f'.thr.callstack = f.thr.callstack.pop ∧ ∀ tr table,
      sysretWithCalls env w tr table f =
        if env.optf then (regTid table w.stop.eax).map fun r => (f', tr, r.1)
        else .ok (f', tr, table) := by
  obtain ⟨hfork, hexec⟩ := forkP_execP_of_cloneP hclone
  obtain ⟨f', hf', hstack⟩ := processSysret_exists_pop env w.stop htop hfork hexec
  have hsame : sysretFork env f w.stop w.stop.origEax = .ok f := by
    rw [sysretFork, if_neg (by simp [hfork])]
  have hmade : f'.calls = if env.optf then [.regTid w.stop.eax] else [] := by
    obtain ⟨g, hg, hmade⟩ := calls_processSysret hf'
    rw [hsame] at hg
    cases hg
    rw [hmade, sysretClone]
    cases env.optf <;> simp [hclone, hcalls]
  refine ⟨f', hstack, fun tr table => ?_⟩
  rw [sysretWithCalls, hf', Except.bind, hmade]
  cases env.optf with
  | false => rfl
  | true =>
    rw [if_pos rfl, if_pos rfl]
    cases hreg : regTid table w.stop.eax with
    | error halt =>
      rw [makeCalls, hreg]
      rfl
    | ok r =>
      rw [makeCalls, hreg]
      rfl

/-- An exit that pops the entry and leaves the tables alone keeps the frame. -/
theorem sysretFrames_of_same (hok : sysretWithCalls env w tr table f = .ok (f', tr, table))
    (hstack : f'.thr.callstack = f.thr.callstack.pop) : SysretFrames env w tr table f :=
  Or.inl ⟨_, hok, hstack, fun _ => Or.inl rfl, Or.inl rfl, fun _ => rfl⟩

/-- Where the result of a clone is registered in a free slot, the frame is kept exactly where it
is a new thread, or no thread at all. -/
theorem sysretFrames_free_iff {k : Fin maxThreadsTraced}
    (hok : sysretWithCalls env w tr table f = .ok (f', tr, table'))
    (hstack : f'.thr.callstack = f.thr.callstack.pop) (hcloned : Cloned env w ↔ 0 < w.stop.eax)
    (hfree : (table.threads k).tid = 0) (hnew : (table'.threads k).tid = w.stop.eax)
    (hothers : ∀ j, j ≠ k → table'.threads j = table.threads j) :
    SysretFrames env w tr table f ↔ 0 < w.stop.eax ∨ (table.threads k).tid = w.stop.eax := by
  constructor
  · rintro (⟨after, hafter, hframe⟩ | ⟨hpos, _⟩)
    · rw [hok] at hafter
      cases hafter
      rcases hframe.threads k with hkept | ⟨hpos, _⟩
      · exact Or.inr (hkept.symm.trans hnew)
      · exact Or.inl (hcloned.mp hpos)
    · exact Or.inl (hcloned.mp hpos)
  · intro hres
    refine Or.inl ⟨(f', tr, table'), hok, hstack, fun j => ?_, Or.inl rfl, fun hneg => ?_⟩
    · by_cases hj : j = k
      · subst hj
        rcases hres with hpos | hzero
        · exact Or.inr ⟨hcloned.mpr hpos, hnew⟩
        · exact Or.inl (hnew.trans hzero.symm)
      · exact Or.inl (congrArg Thread.tid (hothers j hj))
    · have hnonneg : w.stop.eax = 0 ∨ 0 < w.stop.eax :=
        hres.symm.imp_left fun hheld => hheld.symm.trans hfree
      omega

/-- The exit of a clone keeps the frame exactly where its result is a new thread, or a slot
holds it already. -/
theorem sysretFrames_clone_iff (hcalls : f.calls = [])
    (htop : f.thr.callstack.elems.head?.map CallstackElement.cUn = some (.syscall w.stop.origEax))
    (hclone : cloneP w.stop.origEax = true) :
    SysretFrames env w tr table f ↔
      (env.optf = true → 0 < w.stop.eax ∨ ∃ k, (table.threads k).tid = w.stop.eax) := by
  obtain ⟨f', hstack, hwhole⟩ := @sysretWithCalls_clone env w f hcalls htop hclone
  have hwhole := hwhole tr table
  cases hoptf : env.optf with
  | false =>
    rw [hoptf] at hwhole
    exact iff_of_true (sysretFrames_of_same hwhole hstack) (by simp)
  | true =>
    simp only [forall_true_left]
    have hcloned : Cloned env w ↔ 0 < w.stop.eax := by simp [Cloned, hclone, hoptf]
    rw [hoptf, if_pos rfl] at hwhole
    rcases regTid_cases table w.stop.eax with ⟨i, hreg, hheld⟩ | ⟨table', i, k, hreg, hfree, hnew,
      hothers, hheld⟩ | ⟨hreg, hnone⟩
    · rw [hreg] at hwhole
      exact iff_of_true (sysretFrames_of_same hwhole hstack) (Or.inr hheld)
    · rw [hreg] at hwhole
      rw [sysretFrames_free_iff hwhole hstack hcloned hfree hnew hothers]
      apply or_congr_right
      exact ⟨fun h => ⟨k, h⟩, fun ⟨j, hj⟩ => hfree.trans (hheld j hj).symm⟩
    · rw [hreg] at hwhole
      constructor
      · rintro (⟨after, hok, _⟩ | ⟨hpos, _⟩)
        · rw [hwhole] at hok
          cases hok
        · exact Or.inl (hcloned.mp hpos)
      · rintro (hpos | ⟨k, hk⟩)
        · exact Or.inr ⟨hcloned.mpr hpos, hwhole⟩
        · exact ((hnone k).2 hk).elim

/-- For every thread at the exit of a `fork`, `vfork` or `clone`, with any result: the exit pops
the entry and touches the tables as promised exactly where `-f` is off, or the result of the
clone is a new thread or in a slot already, or the fork finds in `callstack[0].return_addr`
what it writes there. -/
theorem sysret_frames_iff (hcalls : f.calls = []) (hexit : syscallP f.thr w.stop = 2)
    (hcall : forkP w.stop.origEax = true ∨ cloneP w.stop.origEax = true) :
    SysretFrames env w tr table f ↔ SysretKeeps env w table f := by
  have htop := syscallP_eq_two hexit
  unfold SysretKeeps
  rcases hcall with hfork | hclone
  · rw [sysretFrames_fork_iff hcalls htop hfork]
    simp [hfork, cloneP_of_forkP hfork]
  · rw [sysretFrames_clone_iff hcalls htop hclone]
    simp [hclone, (forkP_execP_of_cloneP hclone).1]

/-- The exit of a call, with its result. -/
def exitStop (sysnum result : Int) : Wait where
  tid := 7
  pid := 7
  stop := { status := .stopped sigtrap, origEax := sysnum, eax := result }

/-- A thread in a system call made by a traced function. -/
def inSyscall (sysnum : Int) : Focus where
  tracee := openTracee twoFunctions "a.out" 7 nops
  thr :=
    { tid := 7
      callstack :=
        { elems := [⟨.syscall sysnum, 0⟩, ⟨.libfunc ⟨"f", 0x1000⟩, 0x3000⟩]
          bounded := by simp [maxCalldepth] } }
  output := {}

/-- A clone that created a thread. -/
theorem sysret_frames_iff_clone :
    SysretFrames { twoFunctions with optf := true } (exitStop 120 9) Session.start.tracer .zeroed
      (inSyscall 120) := by
  refine (sysret_frames_iff rfl (by decide) (by decide)).mpr fun _ => ⟨fun _ => ?_, ?_⟩
  · exact Or.inl (by decide)
  · intro hfork
    cases hfork

/-- A fork under `-f` loses the address the function below returns to. -/
theorem fork_overwrites_return :
    ¬∀ (env : Env) (w : Wait) (tr : Tracer) (table : ThreadTable) (f : Focus), f.calls = [] →
      syscallP f.thr w.stop = 2 →
        forkP w.stop.origEax = true ∨ cloneP w.stop.origEax = true →
          SysretFrames env w tr table f := by
  intro hclaim
  have hframes := hclaim { twoFunctions with optf := true } (exitStop 2 9) Session.start.tracer
    .zeroed (inSyscall 2) rfl (by decide) (by decide)
  obtain ⟨elem, hlast, hkept⟩ :=
    (sysretFrames_fork_iff rfl (by decide) (by decide)).mp hframes rfl
  have helem : elem = ⟨.libfunc ⟨"f", 0x1000⟩, 0x3000⟩ := Option.some.inj hlast.symm
  subst helem
  exact absurd hkept (by decide)

end Utrace
