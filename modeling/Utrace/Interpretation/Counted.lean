import Utrace.Interpretation.Invariant
import Mathlib.Algebra.Order.BigOperators.Group.Finset
import Mathlib.Data.Fintype.BigOperators

/-!
# The references of the table are counted

Every event moves as many references into the table as it puts frames on the stack of
its thread, and takes out as many as it pops. Summed over all threads, the count of an
entry is the symbols and the frames that name its address, so no lookup of a frame's or
a symbol's entry comes back empty.
-/

namespace Utrace

/-- The enabled count of the entry of an address, zero without an entry. -/
def Tracee.enabledAt (t : Tracee) (a : Addr) : Int :=
  ((t.entry a).map (·.enabled)).getD 0

/-- The references of a cell are the enabled count of its entry. -/
theorem Tracee.refs_cell (t : Tracee) (a : Addr) : (t.cell a).refs = t.enabledAt a := rfl

namespace Cell

/-- Cells with the same count have the same references. -/
theorem refs_congr {c c' : Cell} (h : c.count = c'.count) : c.refs = c'.refs := by
  rw [refs, refs, h]

/-- An insertion adds a reference. -/
theorem refs_insert (live : Bool) (c : Cell) : (c.insert live).refs = c.refs + 1 := by
  rw [refs, count_insert, Option.getD_some]

/-- Where there are references there is a count. -/
theorem exists_count_of_refs {c : Cell} (h : 0 < c.refs) : ∃ n, c.count = some n := by
  cases hc : c.count with
  | none => simp [refs, hc] at h
  | some n => exact ⟨n, rfl⟩

end Cell

/-! ## The balance of one event -/

/-- A push adds the reference of its element, where there is room and it is no system call. -/
theorem frameRefs_push (cs : Callstack) (elem : CallstackElement) (a : Addr) :
    frameRefs (cs.push elem).elems a = frameRefs cs.elems a +
      if cs.depth < maxCalldepth - 1 ∧ elem.isSyscall = false ∧ elem.returnAddr = a then 1
      else 0 := by
  rcases cs.push_cases elem with ⟨hfull, hpush⟩ | ⟨hroom, hpush⟩
  · rw [hpush, if_neg (by omega), Nat.add_zero]
  · rw [hpush, frameRefs_cons]
    simp only [hroom, true_and]

/-- Stepping off a breakpoint keeps all references. -/
theorem SteppedOff.refs {env : Env} {c : Addr → Cell} {brk : Addr} {f' : Focus}
    (h : SteppedOff env c brk f') (a : Addr) : (f'.tracee.cell a).refs = (c a).refs := by
  rw [h.cell]
  split
  · rename_i ha
    exact Cell.refs_congr (ha ▸ Cell.count_disable env.unset (c brk))
  · rfl

/-- A hit changes references and frames alike. -/
theorem Hit.balance {env : Env} {f f' : Focus} {stop : Stop} {brk : Addr}
    (h : Hit env f stop brk f') (a : Addr) :
    (f'.tracee.cell a).refs - frameRefs f'.thr.callstack.elems a =
      (f.tracee.cell a).refs - frameRefs f.thr.callstack.elems a := by
  cases h with
  | rearm b _ ht hcs =>
    have hcount : ((enableEntry f.tracee b).cell a).count = (f.tracee.cell a).count := by
      rw [cell_enableEntry]
      split
      · rename_i ha
        exact ha ▸ Cell.count_plant _
      · rfl
    rw [ht, hcs, Cell.refs_congr hcount]
  | ret n _ _ _ _ hcs _ hoff =>
    have hsplit := frameRefs_take_add_drop f.thr.callstack.elems (n + 1) a
    rw [hoff.refs, Focus.popCells, Cell.refs_delete_iterate, hcs, elems_iterate_pop]
    omega
  | entry sym _ _ _ hcs hoff =>
    rw [hoff.refs, hcs, frameRefs_push, Focus.pushCells]
    by_cases hp : f.thr.callstack.depth < maxCalldepth - 1 ∧ a = stop.stackTop
    · obtain ⟨hroom, rfl⟩ := hp
      rw [if_pos ⟨hroom, rfl⟩, if_pos ⟨hroom, rfl, rfl⟩, Cell.refs_insert]
      push_cast
      omega
    · rw [if_neg hp, if_neg (by rintro ⟨hroom, _, rfl⟩; exact hp ⟨hroom, rfl⟩)]
      push_cast
      omega
  | stray _ _ _ ht hcs => rw [ht, hcs]

/-- Outside a fork, an event changes the count of an entry by the references its thread's
frames gained or lost. -/
theorem Effect.balance {env : Env} {f f' : Focus} {stop : Stop} (h : Effect env f stop f')
    (hexec : f.thr.callstack.Pushed) (hbe : f.tracee.proc.breakpointsEnabled ≠ 0)
    (hfork : ∀ n, (waitForSomething env f stop).2 = .sysret n → forkP n = false) (a : Addr) :
    (f'.tracee.cell a).refs - frameRefs f'.thr.callstack.elems a =
      (f.tracee.cell a).refs - frameRefs f.thr.callstack.elems a := by
  cases h with
  | first _ ht hcs =>
    have hcount : ((enableAllBreakpoints f.tracee).cell a).count = (f.tracee.cell a).count := by
      rw [cell_enableAllBreakpoints]
      split
      · exact Cell.count_enable _
      · rfl
    rw [ht, hcs, Cell.refs_congr hcount]
  | line _ _ ht hcs => rw [ht, hcs]
  | detach _ ht hcs =>
    have hcount : ((disableAllBreakpoints env f.tracee).cell a).count =
        (f.tracee.cell a).count := by
      rw [cell_disableAllBreakpoints, if_pos hbe]
      exact Cell.count_disable _ _
    rw [ht, hcs, Cell.refs_congr hcount]
  | syscall n _ _ ht hcs =>
    have hframes : frameRefs f'.thr.callstack.elems a = frameRefs f.thr.callstack.elems a := by
      rw [hcs]
      cases execP n with
      | true => rfl
      | false =>
        change frameRefs (f.thr.callstack.push _).elems a = _
        rw [frameRefs_push, if_neg (by rintro ⟨_, hs, _⟩; cases hs), Nat.add_zero]
    rw [ht hbe, hframes]
  | sysret n elem rest _ hframes hsys hclass _ ht helems =>
    rcases helems with helems | hf
    · have hs : elem.isSyscall = true := by rw [CallstackElement.isSyscall, hsys]
      rw [ht, helems, hframes, frameRefs_cons, if_neg (by rw [hs]; rintro ⟨hn, _⟩; cases hn),
        Nat.add_zero]
    · cases (hfork n hclass).symm.trans hf
  | exec n hn hsys => exact (hexec.not_exec hn hsys).elim
  | breakpoint _ hit => exact hit.balance a

/-- The frame of a system call returns nowhere. -/
def Callstack.NullReturns (cs : Callstack) : Prop :=
  ∀ elem ∈ cs.elems, elem.isSyscall = true → elem.returnAddr = 0

/-- Pushing keeps the return addresses of system calls null. -/
theorem Callstack.NullReturns.push {cs : Callstack} (h : cs.NullReturns)
    {elem : CallstackElement} (helem : elem.isSyscall = true → elem.returnAddr = 0) :
    (cs.push elem).NullReturns := by
  unfold Callstack.NullReturns
  rcases cs.push_cases elem with ⟨_, hfull⟩ | ⟨_, hpush⟩
  · rw [hfull]
    exact h
  · rw [hpush]
    simp only [List.mem_cons, forall_eq_or_imp]
    exact ⟨helem, h⟩

/-- Outside a fork an event leaves every system call returning nowhere. -/
theorem Effect.nullReturns {env : Env} {f f' : Focus} {stop : Stop} (h : Effect env f stop f')
    (hexec : f.thr.callstack.Pushed)
    (hfork : ∀ n, (waitForSomething env f stop).2 = .sysret n → forkP n = false)
    (hf : f.thr.callstack.NullReturns) : f'.thr.callstack.NullReturns := by
  cases h with
  | first _ _ hcs => exact hcs ▸ hf
  | line _ _ _ hcs => exact hcs ▸ hf
  | detach _ _ hcs => exact hcs ▸ hf
  | syscall n _ _ _ hcs =>
    rw [hcs]
    split
    · exact hf
    · exact hf.push fun _ => rfl
  | sysret n elem rest _ hframes _ hclass _ _ helems =>
    rcases helems with helems | hfk
    · intro e he
      rw [helems] at he
      exact hf e (by rw [hframes]; exact List.mem_cons_of_mem _ he)
    · cases (hfork n hclass).symm.trans hfk
  | exec n hn hsys => exact (hexec.not_exec hn hsys).elim
  | breakpoint _ hit =>
    cases hit with
    | rearm _ _ _ hcs => exact hcs ▸ hf
    | ret n _ _ _ _ hcs =>
      intro e he
      rw [hcs, elems_iterate_pop] at he
      exact hf e (List.mem_of_mem_drop he)
    | entry _ _ _ _ hcs =>
      rw [hcs]
      exact hf.push nofun
    | stray _ _ _ _ hcs => exact hcs ▸ hf

/-! ## What counted references rule out -/

/-- The frames of the thread are counted, and the symbols of the process have entries. -/
structure Focus.Covered (f : Focus) : Prop where
  frames : ∀ a, (frameRefs f.thr.callstack.elems a : Int) ≤ (f.tracee.cell a).refs
  symbols : ∀ sym ∈ f.tracee.proc.listOfSymbols, 0 < (f.tracee.cell sym.enterAddr).refs

/-- Where the symbols and the frames are counted together, both are. -/
theorem Focus.covered_of_le {f : Focus}
    (h : ∀ a, (symbolRefs f.tracee.proc.listOfSymbols a + frameRefs f.thr.callstack.elems a : Int) ≤
      f.tracee.enabledAt a) : f.Covered := by
  constructor
  · intro a
    have hle := h a
    rw [Tracee.refs_cell]
    omega
  · intro sym hsym
    have hle := h sym.enterAddr
    have hpos : 0 < symbolRefs f.tracee.proc.listOfSymbols sym.enterAddr :=
      List.countP_pos_iff.mpr ⟨sym, hsym, by simp⟩
    rw [Tracee.refs_cell]
    omega

/-- Some of the frames refer to an address no more often than all. -/
theorem frameRefs_take_le (elems : List CallstackElement) (n : Nat) (a : Addr) :
    frameRefs (elems.take n) a ≤ frameRefs elems a := by
  have hsplit := frameRefs_take_add_drop elems n a
  omega

/-- The branch for a return comes to an end, unless the frame found is a system call. -/
theorem processReturn_exists (env : Env) {f : Focus} {brk : Addr} {n : Nat}
    (h : f.Covered) (hreturning : f.thr.callstack.returning brk = some n) :
    (∃ f', processReturn env f brk n = .ok f') ∨
      processReturn env f brk n = .error .wildPointer ∧
        ∃ m, f.thr.callstack.elems[n]?.map CallstackElement.cUn = some (.syscall m) := by
  obtain ⟨hlen, hbrk, _⟩ := List.findIdx?_eq_some_iff_getElem.mp hreturning
  have htake : f.thr.callstack.elems.take (n + 1) =
      f.thr.callstack.elems.take n ++ [f.thr.callstack.elems[n]] := by
    rw [List.take_add_one, List.getElem?_eq_getElem hlen]
    rfl
  obtain ⟨f₁, hf₁⟩ := callstackPops_exists env (f := f) (n := n) hlen.le fun x =>
    le_trans (by exact_mod_cast frameRefs_take_le f.thr.callstack.elems n x) (h.frames x)
  have habove := callstackPops_ok hf₁
  have hdrop : f₁.thr.callstack.elems =
      f.thr.callstack.elems[n] :: f.thr.callstack.elems.drop (n + 1) := by
    rw [habove.elems, List.drop_eq_getElem_cons hlen]
  obtain ⟨f₂, hf₂⟩ := callstackPop_exists env hdrop (by
    intro hs
    have hle := frameRefs_take_le f.thr.callstack.elems (n + 1) f.thr.callstack.elems[n].returnAddr
    rw [htake, frameRefs_append, frameRefs_cons, frameRefs_nil, if_pos ⟨hs, rfl⟩] at hle
    have hframes := h.frames f.thr.callstack.elems[n].returnAddr
    rw [habove.cell, Cell.refs_delete_iterate]
    omega)
  have hhead : f₁.thr.callstack.elems.head? = some f.thr.callstack.elems[n] := by rw [hdrop]; rfl
  unfold processReturn
  simp only [hf₁, hf₂, Except.bind, hhead, Option.map_some]
  cases hcUn : f.thr.callstack.elems[n].cUn with
  | syscall m =>
    exact Or.inr ⟨rfl, m, by rw [List.getElem?_eq_getElem hlen, Option.map_some, hcUn]⟩
  | libfunc sym =>
    refine Or.inl ?_
    have hpop := habove.trans (callstackPop_ok hf₂)
    have hs : f.thr.callstack.elems[n].isSyscall = false := by
      rw [CallstackElement.isSyscall, hcUn]
    have hpos : 0 < frameRefs (f.thr.callstack.elems.take (n + 1)) brk := by
      rw [htake, frameRefs_append, frameRefs_cons, frameRefs_nil,
        if_pos ⟨hs, by simpa using hbrk⟩]
      omega
    have hcount : ∃ k, (f₂.tracee.cell brk).count = some k := by
      rw [hpop.cell]
      exact ⟨_, Cell.count_delete_iterate env.unset _ hpos⟩
    obtain ⟨k, hk⟩ := hcount
    exact continueAfterBreakpoint_exists env (f := { f₂ with
      thr := { f₂.thr with returnAddr := brk }
      output := outputRight env f₂.output { f₂.thr with returnAddr := brk } sym.name }) hk

/-- The branch for a function entry comes to an end. -/
theorem processEntry_exists (env : Env) {f : Focus} {stop : Stop} {brk : Addr}
    {sym : LibrarySymbol} (h : f.Covered) (hsym : symbolAt f.tracee.proc brk = some sym) :
    ∃ f', processEntry env f stop sym = .ok f' := by
  have hpos := h.symbols sym (List.mem_of_find?_eq_some hsym)
  obtain ⟨n, hn⟩ := Cell.exists_count_of_refs hpos
  have hcount : ∃ k, ((callstackPushSymfunc
      { f with
        thr := { f.thr with stackPointer := stop.uesp, returnAddr := stop.stackTop }
        output := outputLeft env f.output
          { f.thr with stackPointer := stop.uesp, returnAddr := stop.stackTop } sym.name }
      sym).tracee.cell sym.enterAddr).count = some k := by
    unfold callstackPushSymfunc
    split
    · exact ⟨n, hn⟩
    · change ∃ k, ((insertBreakpoint f.tracee stop.stackTop).cell sym.enterAddr).count = some k
      rw [cell_insertBreakpoint]
      split
      · exact ⟨_, Cell.count_insert _ _⟩
      · exact ⟨n, hn⟩
  obtain ⟨k, hk⟩ := hcount
  exact continueAfterBreakpoint_exists env hk

/-- The only way `process_breakpoint` can fail is the frame of a system call whose null
return address was reached. -/
theorem processBreakpoint_exists (env : Env) {f : Focus} (stop : Stop) (brk : Addr)
    (h : f.Covered) :
    (∃ f', processBreakpoint env f stop brk = .ok f') ∨
      processBreakpoint env f stop brk = .error .wildPointer ∧
        ∃ n m, f.thr.callstack.returning brk = some n ∧
          f.thr.callstack.elems[n]?.map CallstackElement.cUn = some (.syscall m) := by
  unfold processBreakpoint
  cases f.thr.breakpointBeingEnabled with
  | some a => exact Or.inl ⟨_, rfl⟩
  | none =>
    cases hreturning : f.thr.callstack.returning brk with
    | some n =>
      rcases processReturn_exists env h hreturning with hok | ⟨herr, m, hm⟩
      · exact Or.inl hok
      · exact Or.inr ⟨herr, n, m, rfl, hm⟩
    | none =>
      cases hsym : symbolAt f.tracee.proc brk with
      | some sym => exact Or.inl (processEntry_exists env h hsym)
      | none => exact Or.inl ⟨_, rfl⟩

/-- The exit of a system call is handled, but for the forks that follow the stack's bottom
element as a pointer. -/
theorem processSysret_exists (env : Env) {f : Focus} (stop : Stop) {n : Int}
    (htop : f.thr.callstack.elems.head?.map CallstackElement.cUn = some (.syscall n)) :
    (∃ f', processSysret env f stop n = .ok f') ∨
      processSysret env f stop n = .error .wildPointer := by
  cases hfork : sysretFork env f stop n with
  | error halt =>
    refine Or.inr ?_
    unfold processSysret
    rw [hfork]
    unfold sysretFork enableAllBreakpointsThread at hfork
    split at hfork
    · split at hfork
      · cases hfork
      · split at hfork
        · cases hfork
          rfl
        · cases hfork
    · cases hfork
  | ok f₁ => exact Or.inl (processSysret_of_sysretFork htop hfork)

/-- An event of a thread whose frames are counted fails no assertion and looks up no entry
in vain. -/
theorem handle_exists (env : Env) {f : Focus} (stop : Stop) (h : f.Covered) :
    (∃ f', handle env f stop = .ok f') ∨ handle env f stop = .error .wildPointer ∨
      handle env f stop = .error (.exit 1) := by
  by_cases hbe : f.tracee.proc.breakpointsEnabled = -1
  · unfold handle
    rw [waitForSomething_first hbe]
    exact Or.inl ⟨_, rfl⟩
  · obtain ⟨ip, hhandle⟩ := handle_eq env stop hbe
    have hcovered : (f.withIp ip).Covered := ⟨h.frames, h.symbols⟩
    rw [hhandle]
    unfold Focus.classified
    by_cases h1 : syscallP f.thr stop = 1
    · rw [if_pos h1]
      exact Or.inl ⟨_, rfl⟩
    · by_cases h2 : syscallP f.thr stop = 2
      · rw [if_neg h1, if_pos h2]
        rcases processSysret_exists env (f := f.withIp ip) stop (syscallP_eq_two h2) with
          hok | herr
        · exact Or.inl hok
        · exact Or.inr (Or.inl herr)
      · rw [if_neg h1, if_neg h2]
        cases hstatus : stop.status with
        | exited retVal => exact Or.inl ⟨_, rfl⟩
        | signaled signum => exact Or.inl ⟨_, rfl⟩
        | other => exact Or.inr (Or.inr rfl)
        | stopped signum =>
          by_cases hs : signum = sigtrap
          · simp only [hs, ne_eq, not_true_eq_false, if_false, processEvent]
            rcases processBreakpoint_exists env stop (f.eip - decrPcAfterBreak) hcovered with
              hok | ⟨herr, _⟩
            · exact Or.inl hok
            · exact Or.inr (Or.inl herr)
          · simp only [hs, ne_eq, not_false_eq_true, if_true, processEvent]
            exact Or.inl ⟨_, rfl⟩

/-! ## Every run -/

variable {ι : Type*} [Fintype ι] [DecidableEq ι]

/-- The references the symbols and the frames of all threads hold to an address. -/
def Sys.references (s : Sys ι) (a : Addr) : Int :=
  symbolRefs s.tracee.proc.listOfSymbols a + ∑ i, (frameRefs (s.threads i).callstack.elems a : Int)

/-- Every entry counts exactly the references to its address. -/
structure Sys.Counted (s : Sys ι) : Prop where
  refs : ∀ a, s.tracee.enabledAt a = s.references a
  nullReturns : ∀ i, (s.threads i).callstack.NullReturns

omit [DecidableEq ι] in
/-- The symbols and the frames of one thread are counted. -/
theorem Sys.Counted.one_le {s : Sys ι} (h : s.Counted) (i : ι) (a : Addr) :
    (symbolRefs s.tracee.proc.listOfSymbols a + frameRefs (s.threads i).callstack.elems a : Int) ≤
      s.tracee.enabledAt a := by
  have hone := Finset.single_le_sum
    (f := fun j => (frameRefs (s.threads j).callstack.elems a : Int))
    (fun _ _ => Int.natCast_nonneg _) (Finset.mem_univ i)
  rw [h.refs, Sys.references]
  omega

omit [DecidableEq ι] in
/-- Where the references are counted, those of one thread are covered. -/
theorem Sys.Counted.covered {s : Sys ι} (h : s.Counted) (i : ι) (stop : Stop) :
    (s.focus i stop).Covered := Focus.covered_of_le (h.one_le i)

omit [DecidableEq ι] in
/-- They are counted at the opening. -/
theorem Sys.Counted.opened (env : Env) (filename : String) (pid : Pid) (mem : Addr → Byte)
    (tid : ι → Pid) : (Sys.opened env filename pid mem tid).Counted := by
  refine ⟨fun a => ?_, fun i elem hmem => by cases hmem⟩
  have hsymbols := congrArg Process.listOfSymbols (header_openTracee env filename pid mem)
  have hrefs : (Sys.opened env filename pid mem tid).references a =
      symbolRefs (symbolsOf env (some filename)) a := by
    unfold Sys.references
    rw [show (Sys.opened env filename pid mem tid).tracee.proc.listOfSymbols = _ from hsymbols]
    simp [Sys.opened]
  rw [hrefs, ← Tracee.refs_cell]
  change ((openTracee env filename pid mem).cell a).refs = _
  rw [cell_openTracee]
  by_cases hz : symbolRefs (symbolsOf env (some filename)) a = 0 <;> simp [Cell.refs, hz]

/-- The balance of one event, summed over the threads. -/
theorem Sys.Counted.refs_put {env : Env} {pid : Pid} {symbols : List LibrarySymbol} {s : Sys ι}
    {i : ι} {stop : Stop} {f' : Focus} (h : s.Counted) (hl : s.listed = true)
    (hsteady : s.Steady pid symbols) (hsteady' : (s.put i f').Steady pid symbols)
    (heffect : Effect env (s.focus i stop) stop f')
    (hnofork : ∀ n, (waitForSomething env (s.focus i stop) stop).2 = .sysret n →
      forkP n = false) (a : Addr) :
    (s.put i f').tracee.enabledAt a = (s.put i f').references a := by
  have hbalance := heffect.balance (hsteady.pushed i) (hsteady.enabled_ne_zero hl) hnofork a
  have hcount := h.refs a
  have hsymbols := hsteady'.symbols.trans hsteady.symbols.symm
  have hupdate : (fun j => (frameRefs ((s.put i f').threads j).callstack.elems a : Int)) =
      Function.update (fun j => (frameRefs (s.threads j).callstack.elems a : Int)) i
        (frameRefs f'.thr.callstack.elems a) := by
    funext j
    by_cases hj : j = i
    · subst hj
      simp
    · simp [hj, Sys.threads_put_of_ne s hj]
  have hsum := Finset.sum_erase_add (Finset.univ : Finset ι)
    (fun j => (frameRefs (s.threads j).callstack.elems a : Int)) (Finset.mem_univ i)
  unfold Sys.references at hcount ⊢
  rw [hsymbols, hupdate, Finset.sum_update_of_mem (Finset.mem_univ i),
    Finset.sdiff_singleton_eq_erase]
  change f'.tracee.enabledAt a - _ = s.tracee.enabledAt a -
    (frameRefs (s.threads i).callstack.elems a : Int) at hbalance
  change f'.tracee.enabledAt a = _
  omega

/-- One step keeps every entry counted. -/
theorem Sys.Counted.step {env : Env} {pid : Pid} {symbols : List LibrarySymbol} {s s' : Sys ι}
    {input : Input ι} (hsteady : s.Steady pid symbols) (h : s.Counted)
    (hfork : s.forkOrExecExit env input = false) (hs : s.step env input = some s') :
    s'.Counted := by
  have hsteady' := hsteady.step hs
  cases input with
  | interrupt =>
    cases hs
    exact ⟨h.refs, h.nullReturns⟩
  | store mem =>
    cases hs
    exact ⟨h.refs, h.nullReturns⟩
  | stop i stop =>
    obtain ⟨hl, f', hf, rfl⟩ := Sys.step_stop_eq_some.mp hs
    have heffect := (handle_effect hf).1
    have hnofork : ∀ n, (waitForSomething env (s.focus i stop) stop).2 = .sysret n →
        forkP n = false := fun n hclass => (Sys.sysret_of_forkOrExecExit hfork hclass).1
    refine ⟨fun a => ?_, fun j => ?_⟩
    · exact h.refs_put hl hsteady hsteady' heffect hnofork a
    · by_cases hj : j = i
      · subst hj
        rw [Sys.threads_put_self]
        exact heffect.nullReturns (hsteady.pushed j) hnofork (h.nullReturns j)
      · rw [Sys.threads_put_of_ne s hj]
        exact h.nullReturns j

/-- With one thread the references are those of its own stack. -/
theorem Sys.Counted.refs_unit {s : Sys Unit} (h : s.Counted) (a : Addr) :
    s.tracee.enabledAt a = (symbolRefs s.tracee.proc.listOfSymbols a : Int) +
      frameRefs (s.threads ()).callstack.elems a := by
  rw [h.refs, Sys.references, Fintype.sum_unique]

omit [DecidableEq ι] in
/-- A return to a nonnull address never finds the frame of a system call. -/
theorem Sys.Counted.not_syscall {s : Sys ι} (h : s.Counted) {i : ι} {a : Addr} {n : Nat}
    {m : Int} (hreturning : (s.threads i).callstack.returning a = some n) (ha : a ≠ 0)
    (hcUn : (s.threads i).callstack.elems[n]?.map CallstackElement.cUn = some (.syscall m)) :
    False := by
  obtain ⟨hlen, hret, _⟩ := List.findIdx?_eq_some_iff_getElem.mp hreturning
  rw [List.getElem?_eq_getElem hlen, Option.map_some, Option.some.injEq] at hcUn
  have hnull := h.nullReturns i _ (List.getElem_mem hlen)
    (by rw [CallstackElement.isSyscall, hcUn])
  rw [decide_eq_true_eq, hnull] at hret
  exact ha hret.symm

/-- In every run without forks every entry is counted. -/
theorem Run.counted {env : Env} {filename : String} {pid : Pid} {mem : Addr → Byte}
    {tid : ι → Pid} {inputs : List (Input ι)} {s : Sys ι}
    (hr : Run (Sys.step env) (fun s input => s.forkOrExecExit env input = false)
      (Sys.opened env filename pid mem tid) inputs s) :
    s.Steady pid (symbolsOf env (some filename)) ∧ s.Counted :=
  hr.invariant (P := fun s => s.Steady pid (symbolsOf env (some filename)) ∧ s.Counted)
    ⟨Sys.Steady.opened .., Sys.Counted.opened env filename pid mem tid⟩
    fun _ _ _ ht hfork hs => ⟨ht.1.step hs, ht.2.step ht.1 hfork hs⟩

end Utrace
