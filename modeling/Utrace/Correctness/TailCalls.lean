import Utrace.Correctness.CallFlow

/-!
# Calls handed on by a jump

A traced function that ends in a jump to another one leaves its return address on the
stack for that one. Every entry pushes a frame for this one address, and the one return
to it pops the innermost of them: the others stay, each with its reference.
-/

namespace Utrace

/-! ## The calls -/

/-- A thread comes to a trap. The step it was asked for before, if any, is over first. -/
structure Visit where
  stepped : Stop
  trap : Stop

/-- The address of the trap. -/
def Visit.brkAddr (visit : Visit) : Addr := visit.trap.eip - decrPcAfterBreak

/-- A call of a traced function, with the entry of each function a jump hands it on to, and the
return of the last one. -/
structure SiblingCall where
  entries : List Visit
  back : Visit

/-- What the thread comes to in turn. -/
def SiblingCall.visits (call : SiblingCall) : List Visit := call.entries ++ [call.back]

variable {ι : Type*} [DecidableEq ι]

/-- The thread goes over the breakpoint it stands on. -/
def Sys.stepOver (env : Env) (i : ι) (s : Sys ι) (stop : Stop) : Option (Sys ι) :=
  if (s.threads i).breakpointBeingEnabled = none then some s else s.step env (.stop i stop)

/-- The thread comes to a trap. -/
def Sys.visit (env : Env) (i : ι) (s : Sys ι) (visit : Visit) : Option (Sys ι) :=
  (s.stepOver env i visit.stepped).bind fun s => s.step env (.stop i visit.trap)

/-- The thread makes the calls, one after another; the last return trap is the last event. -/
def Sys.makeSiblingCalls (env : Env) (i : ι) (s : Sys ι) (calls : List SiblingCall) :
    Option (Sys ι) :=
  (calls.flatMap SiblingCall.visits).foldlM (Sys.visit env i) s

/-- The first call, and then the others. -/
theorem Sys.makeSiblingCalls_cons {env : Env} {s t : Sys ι} {i : ι} {call : SiblingCall}
    (ht : call.visits.foldlM (Sys.visit env i) s = some t) (calls : List SiblingCall) (n : Nat) :
    s.makeSiblingCalls env i ((call :: calls).take (n + 1)) =
      t.makeSiblingCalls env i (calls.take n) := by
  unfold Sys.makeSiblingCalls
  rw [List.take_succ_cons, List.flatMap_cons, List.foldlM_append, ht]
  rfl

/-- A call the thread can make: there is room for a frame of every function, each is traced, all
have the one return address on top of the stack, and no other call returns there. -/
structure SiblingCall.From (call : SiblingCall) (s : Sys ι) (i : ι) : Prop where
  nonempty : call.entries ≠ []
  traps : ∀ visit ∈ call.visits, visit.stepped.IsTrap ∧ visit.trap.IsTrap
  room : (s.threads i).callstack.depth + call.entries.length ≤ maxCalldepth - 1
  traced : ∀ visit ∈ call.entries, isEntry s.tracee.proc visit.brkAddr = true
  handedOn : ∀ visit ∈ call.entries, visit.trap.stackTop = call.back.brkAddr
  pending : (s.threads i).callstack.returning call.back.brkAddr = none

/-- The call is that of a single function, and no call of the thread returns to its entry. -/
def SiblingCall.Single (call : SiblingCall) (s : Sys ι) (i : ι) : Prop :=
  ∃ visit, call.entries = [visit] ∧ (s.threads i).callstack.returning visit.brkAddr = none

/-- The depth of the thread's stack and every enabled count are what they were. -/
structure Sys.Balanced (s : Sys ι) (i : ι) (s' : Sys ι) : Prop where
  depth : (s'.threads i).callstack.depth = (s.threads i).callstack.depth
  enabled : ∀ a, s'.tracee.enabledAt a = s.tracee.enabledAt a

/-! ## Frames that return to one address -/

/-- Frames of calls that all return to one address hold a reference each, to it alone. -/
theorem frameRefs_of_handedOn {above : List CallstackElement} {ret : Addr}
    (h : ∀ elem ∈ above, elem.isSyscall = false ∧ elem.returnAddr = ret) (a : Addr) :
    frameRefs above a = if a = ret then above.length else 0 := by
  induction above with
  | nil => simp
  | cons elem above ih =>
    obtain ⟨⟨hcall, hret⟩, habove⟩ := List.forall_mem_cons.mp h
    rw [frameRefs_cons, ih habove, hret, List.length_cons]
    by_cases ha : a = ret
    · rw [if_pos ha, if_pos ⟨hcall, ha.symm⟩, if_pos ha]
    · rw [if_neg ha, if_neg fun hboth => ha hboth.2.symm, if_neg ha]

/-- Where no frame returns to an address, none refers to it. -/
theorem frameRefs_of_returning {cs : Callstack} {ret : Addr} (h : cs.returning ret = none)
    (m : Nat) : frameRefs (cs.elems.drop m) ret = 0 := by
  unfold Callstack.returning at h
  rw [List.findIdx?_eq_none_iff] at h
  rw [frameRefs, List.countP_eq_zero]
  intro elem hmem
  have hret := h elem (List.mem_of_mem_drop hmem)
  rw [decide_eq_false_iff_not] at hret
  simp [hret]

/-- Since `s₀` the thread has popped `m` of its frames and pushed `n` that return to `ret`. -/
structure Sys.HandedOn (s₀ : Sys ι) (i : ι) (ret : Addr) (n m : Nat) (s : Sys ι) : Prop where
  ready : s.Ready i
  symbols : s.tracee.proc.listOfSymbols = s₀.tracee.proc.listOfSymbols
  popped : m ≤ (s₀.threads i).callstack.depth
  frames : ∃ above,
    (s.threads i).callstack.elems = above ++ (s₀.threads i).callstack.elems.drop m ∧
    above.length = n ∧ ∀ elem ∈ above, elem.isSyscall = false ∧ elem.returnAddr = ret
  balance : ∀ a, s.tracee.enabledAt a - frameRefs (s.threads i).callstack.elems a =
    s₀.tracee.enabledAt a - frameRefs (s₀.threads i).callstack.elems a

namespace Sys.HandedOn

variable {s₀ s s' : Sys ι} {i : ι} {ret : Addr} {n m : Nat} {env : Env}

omit [DecidableEq ι] in
/-- At first nothing is popped or pushed. -/
theorem start (h : s₀.Ready i) (ret : Addr) : s₀.HandedOn i ret 0 0 s₀ :=
  ⟨h, rfl, Nat.zero_le _, ⟨[], rfl, rfl, List.forall_mem_nil _⟩, fun _ => rfl⟩

omit [DecidableEq ι] in
/-- Where no frame was pushed, none returns anywhere. -/
theorem other (h : s₀.HandedOn i ret 0 m s) (ret' : Addr) : s₀.HandedOn i ret' 0 m s := by
  obtain ⟨above, happend, hlength, _⟩ := h.frames
  obtain rfl := List.length_eq_zero_iff.mp hlength
  exact ⟨h.ready, h.symbols, h.popped, ⟨[], happend, rfl, List.forall_mem_nil _⟩, h.balance⟩

omit [DecidableEq ι] in
/-- The depth from what was popped and pushed. -/
theorem depth (h : s₀.HandedOn i ret n m s) :
    (s.threads i).callstack.depth + m = (s₀.threads i).callstack.depth + n := by
  obtain ⟨above, happend, hlength, _⟩ := h.frames
  have hpopped := h.popped
  unfold Callstack.depth at hpopped ⊢
  rw [happend, List.length_append, List.length_drop, hlength]
  omega

omit [DecidableEq ι] in
/-- The frames pushed have each its reference in the table. -/
theorem enabledAt (h : s₀.HandedOn i ret n 0 s) (a : Addr) :
    s.tracee.enabledAt a = s₀.tracee.enabledAt a + if a = ret then (n : Int) else 0 := by
  obtain ⟨above, happend, hlength, habove⟩ := h.frames
  have hbalance := h.balance a
  rw [happend, List.drop_zero, frameRefs_append, frameRefs_of_handedOn habove, hlength] at hbalance
  split at hbalance
  · rename_i ha
    rw [if_pos ha]
    push_cast at hbalance
    omega
  · rename_i ha
    rw [if_neg ha]
    push_cast at hbalance
    omega

omit [DecidableEq ι] in
/-- With all frames as before every count is the old one. -/
theorem balanced (h : s₀.HandedOn i ret 0 0 s) : s₀.Balanced i s := by
  refine ⟨h.depth, fun a => ?_⟩
  rw [h.enabledAt, Nat.cast_zero, ite_self, add_zero]

omit [DecidableEq ι] in
/-- Frames popped are not made up for by frames pushed: those refer to an address that none of the
old ones returns to. -/
theorem of_balanced (h : s₀.HandedOn i ret n m s)
    (hpending : (s₀.threads i).callstack.returning ret = none) (hbalanced : s₀.Balanced i s) :
    n = 0 ∧ m = 0 := by
  obtain ⟨above, happend, hlength, habove⟩ := h.frames
  have hbalance := h.balance ret
  have hold := frameRefs_of_returning hpending 0
  rw [List.drop_zero] at hold
  rw [hbalanced.enabled, happend, frameRefs_append, frameRefs_of_handedOn habove, if_pos rfl,
    frameRefs_of_returning hpending, hold, hlength] at hbalance
  have hdepth := h.depth
  rw [hbalanced.depth] at hdepth
  omega

/-- What a trap of the thread leaves, from what it did to the stack. -/
theorem put {stop : Stop} {brk : Addr} {f' : Focus} {n' m' : Nat}
    (h : s₀.HandedOn i ret n m s) (hready : (s.put i f').Ready i)
    (hhit : Hit env (s.focus i stop) stop brk f') (hpopped : m' ≤ (s₀.threads i).callstack.depth)
    (hframes : ∃ above,
      f'.thr.callstack.elems = above ++ (s₀.threads i).callstack.elems.drop m' ∧
      above.length = n' ∧ ∀ elem ∈ above, elem.isSyscall = false ∧ elem.returnAddr = ret) :
    s₀.HandedOn i ret n' m' (s.put i f') := by
  refine ⟨hready, hhit.symbols_eq.trans h.symbols, hpopped, ?_, fun a => ?_⟩
  · rw [threads_put_self]
    exact hframes
  · rw [threads_put_self]
    exact (hhit.balance a).trans (h.balance a)

/-- Going over a breakpoint leaves the frames alone. -/
theorem stepOver {stop : Stop} (h : s₀.HandedOn i ret n m s) (env : Env) (htrap : stop.IsTrap) :
    ∃ s', s.stepOver env i stop = some s' ∧ s₀.HandedOn i ret n m s' ∧
      (s'.threads i).breakpointBeingEnabled = none := by
  unfold Sys.stepOver
  split
  · rename_i hnone
    exact ⟨s, rfl, h, hnone⟩
  · rename_i hbeing
    obtain ⟨f', hstep, hready, hhit⟩ := h.ready.trap env htrap (Or.inl hbeing)
    refine ⟨_, hstep, ?_, ?_⟩
    · refine h.put hready hhit h.popped ?_
      cases hhit with
      | rearm _ _ _ hcs => rw [hcs]; exact h.frames
      | ret _ _ hnone => exact (hbeing hnone).elim
      | entry _ hnone => exact (hbeing hnone).elim
      | stray hnone => exact (hbeing hnone).elim
    · rw [threads_put_self]
      cases hhit with
      | rearm _ _ _ _ hafter => exact hafter
      | ret _ _ hnone => exact (hbeing hnone).elim
      | entry _ hnone => exact (hbeing hnone).elim
      | stray hnone => exact (hbeing hnone).elim

omit [DecidableEq ι] in
/-- Of the frames pushed, none returns to another address. -/
theorem returning_none (h : s₀.HandedOn i ret n m s) {brk : Addr} (hne : n = 0 ∨ brk ≠ ret)
    (hreturning : (s₀.threads i).callstack.returning brk = none) :
    (s.threads i).callstack.returning brk = none := by
  obtain ⟨above, happend, hlength, habove⟩ := h.frames
  unfold Callstack.returning at hreturning ⊢
  rw [List.findIdx?_eq_none_iff] at hreturning ⊢
  rw [happend]
  intro elem hmem
  rcases List.mem_append.mp hmem with hmem | hmem
  · have hpos : n ≠ 0 := by
      rw [← hlength]
      exact (List.length_pos_of_mem hmem).ne'
    rw [(habove elem hmem).2, decide_eq_false_iff_not]
    exact (hne.resolve_left hpos).symm
  · exact hreturning elem (List.mem_of_mem_drop hmem)

/-! ### One trap -/

/-- At the entry of a function its frame is pushed, unless a call of the thread returns there:
then frames of `s₀` are popped. -/
theorem entered {visit : Visit} (h : s₀.HandedOn i ret n m s)
    (htraps : visit.stepped.IsTrap ∧ visit.trap.IsTrap)
    (hroom : (s₀.threads i).callstack.depth + n < maxCalldepth - 1)
    (hentry : isEntry s₀.tracee.proc visit.brkAddr = true) (hne : n = 0 ∨ visit.brkAddr ≠ ret)
    (htop : visit.trap.stackTop = ret) (hs : s.visit env i visit = some s') :
    (∃ m', m < m' ∧ (s₀.threads i).callstack.returning visit.brkAddr ≠ none ∧
      s₀.HandedOn i ret 0 m' s') ∨
    (m = 0 → (s₀.threads i).callstack.returning visit.brkAddr = none) ∧
      s₀.HandedOn i ret (n + 1) m s' := by
  obtain ⟨t, ht, hs⟩ := Option.bind_eq_some_iff.mp hs
  obtain ⟨t', ht', hover, hnone⟩ := h.stepOver env htraps.1
  obtain rfl := Option.some.inj (ht.symm.trans ht')
  obtain ⟨above, happend, hlength, habove⟩ := hover.frames
  obtain ⟨f', rfl, hready, hhit⟩ := hover.ready.trapped htraps.2 hs
  cases hhit with
  | rearm _ hbeing => cases hnone.symm.trans hbeing
  | ret k sym hbeing hsome hsym hcs hcounted hoff hheader houtput =>
    refine Or.inl ?_
    have hsome : (t.threads i).callstack.returning visit.brkAddr = some k := hsome
    have hold : (s₀.threads i).callstack.returning visit.brkAddr ≠ none := by
      intro hold
      cases (hover.returning_none hne hold).symm.trans hsome
    obtain ⟨hlt, hat⟩ := (List.findIdx?_eq_some_iff_getElem.mp hsome)
    have hlast : n ≤ k := by
      by_contra hk
      have hk : k < above.length := by omega
      have hmem : (t.threads i).callstack.elems[k] ∈ above := by
        simp only [happend, List.getElem_append_left hk]
        exact List.getElem_mem hk
      have hret := (habove _ hmem).2
      have haddr := of_decide_eq_true hat.1
      exact hne.elim (by omega) fun hne => hne (haddr.symm.trans hret)
    have helems : f'.thr.callstack.elems =
        [] ++ (s₀.threads i).callstack.elems.drop (m + (k + 1 - n)) := by
      have hpops : f'.thr.callstack.elems = (t.threads i).callstack.elems.drop (k + 1) := by
        rw [hcs]
        exact elems_iterate_pop ..
      rw [hpops, happend, List.nil_append, List.drop_append, List.drop_drop, hlength,
        List.drop_eq_nil_of_le (by omega), List.nil_append]
    have hpopped : m + (k + 1 - n) ≤ (s₀.threads i).callstack.depth := by
      have hdepth := hover.depth
      have hlt : k < (t.threads i).callstack.depth := hlt
      omega
    refine ⟨m + (k + 1 - n), by omega, hold, hover.put hready
      (.ret k sym hbeing hsome hsym hcs hcounted hoff hheader houtput) hpopped ?_⟩
    exact ⟨[], helems, rfl, List.forall_mem_nil _⟩
  | entry sym hbeing hreturning hsym hcs hoff hheader houtput =>
    refine Or.inr ⟨?_, hover.put hready
      (.entry sym hbeing hreturning hsym hcs hoff hheader houtput) hover.popped ?_⟩
    · rintro rfl
      have hreturning : (t.threads i).callstack.returning visit.brkAddr = none := hreturning
      unfold Callstack.returning at hreturning ⊢
      rw [happend, List.drop_zero, List.findIdx?_eq_none_iff] at hreturning
      exact List.findIdx?_eq_none_iff.mpr fun elem hmem =>
        hreturning elem (List.mem_append_right above hmem)
    have hdepth : (t.threads i).callstack.depth < maxCalldepth - 1 := by
      have hdepth := hover.depth
      omega
    refine ⟨⟨.libfunc sym, visit.trap.stackTop⟩ :: above, ?_, ?_, ?_⟩
    · rw [hcs]
      change ((t.threads i).callstack.push _).elems = _
      rw [Callstack.elems_push_of_lt hdepth, happend]
      rfl
    · rw [List.length_cons, hlength]
    · exact List.forall_mem_cons.mpr ⟨⟨rfl, htop⟩, habove⟩
  | stray _ _ hsym =>
    rw [isEntry, symbolAt, ← hover.symbols] at hentry
    cases hentry.symm.trans (congrArg Option.isSome hsym)

/-- The entry of a function no call returns to is handled, and pushes its frame. -/
theorem enter {visit : Visit} (h : s₀.HandedOn i ret n m s) (env : Env)
    (htraps : visit.stepped.IsTrap ∧ visit.trap.IsTrap)
    (hroom : (s₀.threads i).callstack.depth + n < maxCalldepth - 1)
    (hentry : isEntry s₀.tracee.proc visit.brkAddr = true) (hne : n = 0 ∨ visit.brkAddr ≠ ret)
    (hreturning : (s₀.threads i).callstack.returning visit.brkAddr = none)
    (htop : visit.trap.stackTop = ret) :
    ∃ s', s.visit env i visit = some s' ∧ s₀.HandedOn i ret (n + 1) m s' := by
  obtain ⟨t, ht, hover, _⟩ := h.stepOver env htraps.1
  have hfresh := hover.returning_none hne hreturning
  obtain ⟨f', hstep, _⟩ := hover.ready.trap env htraps.2
    (Or.inr fun k m hsome => by cases hfresh.symm.trans hsome)
  have hs : s.visit env i visit = some (t.put i f') :=
    Option.bind_eq_some_iff.mpr ⟨t, ht, hstep⟩
  refine ⟨_, hs, ((h.entered htraps hroom hentry hne htop hs).resolve_left ?_).2⟩
  rintro ⟨_, _, hsome, _⟩
  exact hsome hreturning

/-- A return pops one of the frames pushed. -/
theorem back {visit : Visit} (h : s₀.HandedOn i visit.brkAddr (n + 1) m s) (env : Env)
    (htraps : visit.stepped.IsTrap ∧ visit.trap.IsTrap) :
    ∃ s', s.visit env i visit = some s' ∧ s₀.HandedOn i visit.brkAddr n m s' := by
  obtain ⟨t, ht, hover, hnone⟩ := h.stepOver env htraps.1
  obtain ⟨above, happend, hlength, habove⟩ := hover.frames
  obtain ⟨elem, above, rfl⟩ := List.exists_cons_of_length_eq_add_one hlength
  obtain ⟨⟨hcall, hret⟩, hrest⟩ := List.forall_mem_cons.mp habove
  have hfirst : (t.threads i).callstack.returning visit.brkAddr = some 0 := by
    unfold Callstack.returning
    rw [happend, List.cons_append, List.findIdx?_cons, hret]
    exact if_pos (decide_eq_true rfl)
  obtain ⟨f', hstep, hready, hhit⟩ := hover.ready.trap env htraps.2 (by
    refine Or.inr fun k m hsome hsyscall => ?_
    obtain rfl : k = 0 := Option.some.inj (hsome.symm.trans hfirst)
    rw [happend, List.cons_append, List.getElem?_cons_zero, Option.map_some,
      Option.some.injEq] at hsyscall
    rw [CallstackElement.isSyscall, hsyscall] at hcall
    cases hcall)
  refine ⟨_, Option.bind_eq_some_iff.mpr ⟨t, ht, hstep⟩, hover.put hready hhit hover.popped ?_⟩
  cases hhit with
  | rearm _ hbeing => cases hnone.symm.trans hbeing
  | ret k _ _ hsome _ hcs =>
    obtain rfl : k = 0 := Option.some.inj (hsome.symm.trans hfirst)
    refine ⟨above, ?_, Nat.succ.inj hlength, hrest⟩
    rw [hcs]
    change (t.threads i).callstack.pop.elems = _
    rw [Callstack.elems_pop, happend]
    rfl
  | entry _ _ hreturning => cases hfirst.symm.trans hreturning
  | stray _ hreturning => cases hfirst.symm.trans hreturning

/-- Where no frame was pushed, and no function begins at the return address, a trap there leaves
the frames as they are. -/
theorem missed {visit : Visit} (h : s₀.HandedOn i visit.brkAddr 0 m s)
    (htraps : visit.stepped.IsTrap ∧ visit.trap.IsTrap)
    (hentry : isEntry s₀.tracee.proc visit.brkAddr = false)
    (hpending : (s₀.threads i).callstack.returning visit.brkAddr = none)
    (hs : s.visit env i visit = some s') : s₀.HandedOn i visit.brkAddr 0 m s' := by
  obtain ⟨t, ht, hs⟩ := Option.bind_eq_some_iff.mp hs
  obtain ⟨t', ht', hover, hnone⟩ := h.stepOver env htraps.1
  obtain rfl := Option.some.inj (ht.symm.trans ht')
  have hfresh := hover.returning_none (Or.inl rfl) hpending
  obtain ⟨f', rfl, hready, hhit⟩ := hover.ready.trapped htraps.2 hs
  refine hover.put hready hhit hover.popped ?_
  cases hhit with
  | rearm _ hbeing => cases hnone.symm.trans hbeing
  | ret _ _ _ hsome => cases hfresh.symm.trans hsome
  | entry _ _ _ hsym =>
    rw [isEntry, symbolAt, ← hover.symbols] at hentry
    cases hentry.symm.trans (congrArg Option.isSome hsym)
  | stray _ _ _ _ hcs => rw [hcs]; exact hover.frames

/-! ### One call -/

/-- The entries of a call push a frame for every function, or frames of `s₀` are popped. -/
theorem enters {entries : List Visit} (h : s₀.HandedOn i ret n m s)
    (htraps : ∀ visit ∈ entries, visit.stepped.IsTrap ∧ visit.trap.IsTrap)
    (hroom : (s₀.threads i).callstack.depth + n + entries.length ≤ maxCalldepth - 1)
    (htraced : ∀ visit ∈ entries, isEntry s₀.tracee.proc visit.brkAddr = true)
    (hne : ∀ visit ∈ entries, visit.brkAddr ≠ ret)
    (htop : ∀ visit ∈ entries, visit.trap.stackTop = ret)
    (hs : entries.foldlM (Sys.visit env i) s = some s') :
    (∃ n' m', m < m' ∧ s₀.HandedOn i ret n' m' s') ∨
      (m = 0 → ∀ visit ∈ entries, (s₀.threads i).callstack.returning visit.brkAddr = none) ∧
        s₀.HandedOn i ret (n + entries.length) m s' := by
  induction entries generalizing n m s with
  | nil =>
    cases hs
    exact Or.inr ⟨fun _ => List.forall_mem_nil _, h⟩
  | cons visit entries ih =>
    rw [List.forall_mem_cons] at htraps htraced hne htop
    rw [List.length_cons] at hroom
    rw [List.foldlM_cons] at hs
    obtain ⟨t, ht, hs⟩ := Option.bind_eq_some_iff.mp hs
    rcases h.entered htraps.1 (by omega) htraced.1 (Or.inr hne.1) htop.1 ht with
      ⟨m', hm, _, hpopped⟩ | ⟨hfresh, hpushed⟩
    · rcases ih hpopped htraps.2 (by omega) htraced.2 hne.2 htop.2 hs with
        ⟨n'', m'', hm', hlast⟩ | ⟨_, hlast⟩
      · exact Or.inl ⟨n'', m'', hm.trans hm', hlast⟩
      · exact Or.inl ⟨_, m', hm, hlast⟩
    · rw [List.length_cons, Nat.add_comm entries.length, ← Nat.add_assoc]
      rcases ih hpushed htraps.2 (by omega) htraced.2 hne.2 htop.2 hs with hlast | ⟨hrest, hlast⟩
      · exact Or.inl hlast
      · exact Or.inr ⟨fun hm => List.forall_mem_cons.mpr ⟨hfresh hm, hrest hm⟩, hlast⟩

/-- The call of a single function leaves all frames as they were. -/
theorem single {call : SiblingCall} (h : s₀.HandedOn i ret 0 0 s) (env : Env)
    (hfrom : call.From s₀ i) (hsingle : call.Single s₀ i) :
    ∃ s', call.visits.foldlM (Sys.visit env i) s = some s' ∧
      s₀.HandedOn i call.back.brkAddr 0 0 s' := by
  obtain ⟨visit, hentries, hreturning⟩ := hsingle
  have hmem : visit ∈ call.entries := hentries ▸ List.mem_singleton_self visit
  have htraps := List.forall_mem_append.mp hfrom.traps
  have hroom := hfrom.room
  rw [hentries, List.length_singleton] at hroom
  obtain ⟨t, ht, hentered⟩ := (h.other call.back.brkAddr).enter env (htraps.1 visit hmem)
    (by omega) (hfrom.traced visit hmem) (Or.inl rfl) hreturning (hfrom.handedOn visit hmem)
  obtain ⟨s', hs', hback⟩ := hentered.back env (htraps.2 _ (List.mem_singleton_self _))
  refine ⟨s', ?_, hback⟩
  unfold SiblingCall.visits
  rw [hentries, List.singleton_append, List.foldlM_cons]
  refine Option.bind_eq_some_iff.mpr ⟨t, ht, ?_⟩
  exact Option.bind_eq_some_iff.mpr ⟨s', hs', rfl⟩

/-- A call that keeps the balance is that of a single function, where none begins at the return
address. -/
theorem single_of_balanced {call : SiblingCall} (h : s₀.HandedOn i ret 0 0 s)
    (hfrom : call.From s₀ i) (hback : isEntry s₀.tracee.proc call.back.brkAddr = false)
    (hs : call.visits.foldlM (Sys.visit env i) s = some s') (hbalanced : s₀.Balanced i s') :
    call.Single s₀ i := by
  have htraps := List.forall_mem_append.mp hfrom.traps
  have hlast := htraps.2 _ (List.mem_singleton_self call.back)
  have hne : ∀ visit ∈ call.entries, visit.brkAddr ≠ call.back.brkAddr := by
    intro visit hmem heq
    cases hback.symm.trans (heq ▸ hfrom.traced visit hmem)
  have hfirst := h.other call.back.brkAddr
  unfold SiblingCall.visits at hs
  rw [List.foldlM_append] at hs
  obtain ⟨t, ht, hs⟩ := Option.bind_eq_some_iff.mp hs
  have hs : t.visit env i call.back = some s' := by
    rw [List.foldlM_cons] at hs
    obtain ⟨u, hu, hs⟩ := Option.bind_eq_some_iff.mp hs
    cases hs
    exact hu
  -- After the entries the one return pops a frame pushed, if there is any.
  have hpop : ∀ n m, s₀.HandedOn i call.back.brkAddr n m t → n ≤ 1 ∧ m = 0 := by
    intro n m hentered
    cases n with
    | zero =>
      have hmissed := hentered.missed hlast hback hfrom.pending hs
      exact ⟨Nat.zero_le 1, (hmissed.of_balanced hfrom.pending hbalanced).2⟩
    | succ n =>
      obtain ⟨u, hu, hpopped⟩ := hentered.back env hlast
      obtain rfl := Option.some.inj (hu.symm.trans hs)
      obtain ⟨hn, hm⟩ := hpopped.of_balanced hfrom.pending hbalanced
      exact ⟨by omega, hm⟩
  have hroom := hfrom.room
  rcases hfirst.enters htraps.1 (by omega) hfrom.traced hne hfrom.handedOn ht with
    ⟨n, m, hm, hentered⟩ | ⟨hfresh, hentered⟩
  · have hzero := (hpop n m hentered).2
    omega
  · obtain ⟨hle, _⟩ := hpop _ _ hentered
    have hpos := List.length_pos_of_ne_nil hfrom.nonempty
    obtain ⟨visit, hentries⟩ := List.length_eq_one_iff.mp (show call.entries.length = 1 by omega)
    exact ⟨visit, hentries, hfresh rfl visit (hentries ▸ List.mem_singleton_self visit)⟩

/-- Calls of a single function each keep the balance. -/
theorem balanced_calls {calls : List SiblingCall} (h : s₀.HandedOn i ret 0 0 s) (env : Env)
    (hfrom : ∀ call ∈ calls, call.From s₀ i) (hsingle : ∀ call ∈ calls, call.Single s₀ i)
    (n : Nat) : ∃ s', s.makeSiblingCalls env i (calls.take n) = some s' ∧ s₀.Balanced i s' := by
  induction calls generalizing ret s n with
  | nil =>
    rw [List.take_nil]
    exact ⟨s, rfl, h.balanced⟩
  | cons call calls ih =>
    rw [List.forall_mem_cons] at hfrom hsingle
    cases n with
    | zero => exact ⟨s, rfl, h.balanced⟩
    | succ n =>
      obtain ⟨t, ht, hone⟩ := h.single env hfrom.1 hsingle.1
      rw [makeSiblingCalls_cons ht]
      exact ih hone hfrom.2 hsingle.2 n

/-- Calls that keep the balance each are calls of a single function, where none begins at a return
address. -/
theorem single_of_balanced_calls {calls : List SiblingCall} (h : s₀.HandedOn i ret 0 0 s)
    (hfrom : ∀ call ∈ calls, call.From s₀ i)
    (hback : ∀ call ∈ calls, isEntry s₀.tracee.proc call.back.brkAddr = false)
    (hbalanced : ∀ n, ∃ s', s.makeSiblingCalls env i (calls.take n) = some s' ∧
      s₀.Balanced i s') : ∀ call ∈ calls, call.Single s₀ i := by
  induction calls generalizing ret s with
  | nil => exact List.forall_mem_nil _
  | cons call calls ih =>
    rw [List.forall_mem_cons] at hfrom hback
    obtain ⟨s', hs', hfirst⟩ := hbalanced 1
    have hvisits : call.visits.foldlM (Sys.visit env i) s = some s' := by
      simpa [makeSiblingCalls] using hs'
    have hsingle := h.single_of_balanced hfrom.1 hback.1 hvisits hfirst
    obtain ⟨t, ht, hone⟩ := h.single env hfrom.1 hsingle
    refine List.forall_mem_cons.mpr ⟨hsingle, ih hone hfrom.2 hback.2 fun n => ?_⟩
    rw [← makeSiblingCalls_cons ht]
    exact hbalanced (n + 1)

end Sys.HandedOn

/-! ## Every sequence of calls -/

/-- For every thread that is ready, with room for the call, and every sequence of calls it can
make from there: each return trap finds the depth and every enabled count back at what they
were if no call is handed on to a second function and none enters a function at an address another
call returns to. Where no function begins at a return address, only then. -/
theorem sibling_calls_balanced_iff {env : Env} {s : Sys ι} {i : ι} (h : s.Ready i)
    {calls : List SiblingCall} (hfrom : ∀ call ∈ calls, call.From s i) :
    ((∀ call ∈ calls, call.Single s i) →
      ∀ n, ∃ s', s.makeSiblingCalls env i (calls.take n) = some s' ∧ s.Balanced i s') ∧
    ((∀ call ∈ calls, isEntry s.tracee.proc call.back.brkAddr = false) →
      ((∀ n, ∃ s', s.makeSiblingCalls env i (calls.take n) = some s' ∧ s.Balanced i s') ↔
        ∀ call ∈ calls, call.Single s i)) := by
  have hstart := Sys.HandedOn.start h 0
  refine ⟨hstart.balanced_calls env hfrom, fun hback => ⟨?_, hstart.balanced_calls env hfrom⟩⟩
  exact hstart.single_of_balanced_calls hfrom hback

/-! ## A program of two functions -/

/-- The first event of the program makes its thread ready. -/
theorem exists_ready_twoFunctions : ∃ s : Sys Unit,
    (Sys.opened twoFunctions "a.out" 7 nops fun _ => 7).step twoFunctions
      (.stop () (trapStop 0x3000)) = some s ∧
    s.Ready () ∧ (s.threads ()).callstack = .empty ∧
    s.tracee.proc.listOfSymbols = [⟨"f", 0x1000⟩, ⟨"g", 0x2000⟩] := by
  obtain ⟨_, f, hf, _⟩ :=
    Sys.opened_event twoFunctions "a.out" 7 nops (fun _ => 7) () (trapStop 0x3000)
  obtain ⟨s, hs⟩ : ∃ s, (Sys.opened twoFunctions "a.out" 7 nops fun _ => 7).step twoFunctions
      (.stop () (trapStop 0x3000)) = some s := ⟨_, Sys.step_stop_eq_some.mpr ⟨rfl, f, hf, rfl⟩⟩
  obtain ⟨hsettled, hempty, _⟩ := Sys.Settled.first (by decide) hs
  refine ⟨s, hs, hsettled.ready, hempty, ?_⟩
  rw [hsettled.steady.symbols]
  rfl

/-- `f` is called from one place and returns there. -/
def callOfF : SiblingCall where
  entries := [⟨trapStop 0x3000, trapStop 0x1000 0x3000⟩]
  back := ⟨trapStop 0x1000, trapStop 0x3000⟩

/-- `f` jumps to `g`, which returns to the caller of `f`. -/
def callOfFG : SiblingCall where
  entries := [⟨trapStop 0x3000, trapStop 0x1000 0x3000⟩, ⟨trapStop 0x1000, trapStop 0x2000 0x3000⟩]
  back := ⟨trapStop 0x2000, trapStop 0x3000⟩

/-- With an empty stack the program can make both calls. -/
theorem from_twoFunctions {s : Sys Unit} (hempty : (s.threads ()).callstack = .empty)
    (hsymbols : s.tracee.proc.listOfSymbols = [⟨"f", 0x1000⟩, ⟨"g", 0x2000⟩]) :
    callOfF.From s () ∧ callOfFG.From s () := by
  constructor
  all_goals
    refine ⟨by decide, ?_, ?_, ?_, by decide, ?_⟩
    · simp [SiblingCall.visits, Stop.IsTrap, trapStop, callOfF, callOfFG]
    · rw [hempty]
      decide
    · simp only [isEntry, symbolAt, hsymbols]
      decide
    · rw [hempty]
      rfl

/-- A call of `f` from one place, again and again. -/
theorem sibling_calls_balanced_iff_call : ∃ s : Sys Unit, ∀ n, ∃ s',
    s.makeSiblingCalls twoFunctions () ((List.replicate 100 callOfF).take n) = some s' ∧
      s.Balanced () s' := by
  obtain ⟨s, _, hready, hempty, hsymbols⟩ := exists_ready_twoFunctions
  have hfrom : ∀ call ∈ List.replicate 100 callOfF, call.From s () := by
    intro call hcall
    rw [List.eq_of_mem_replicate hcall]
    exact (from_twoFunctions hempty hsymbols).1
  have hsingle : ∀ call ∈ List.replicate 100 callOfF, call.Single s () := by
    intro call hcall
    rw [List.eq_of_mem_replicate hcall]
    refine ⟨_, rfl, ?_⟩
    rw [hempty]
    rfl
  exact ⟨s, (sibling_calls_balanced_iff hready hfrom).1 hsingle⟩

/-- `f` jumps to `g`, and the frame of `f` outlives the return. -/
theorem sibling_call_leaves_frame :
    ¬∀ (env : Env) (s : Sys Unit) (calls : List SiblingCall), s.Ready () →
      (∀ call ∈ calls, call.From s ()) →
      ∀ n, ∃ s', s.makeSiblingCalls env () (calls.take n) = some s' ∧ s.Balanced () s' := by
  intro hclaim
  obtain ⟨s, _, hready, hempty, hsymbols⟩ := exists_ready_twoFunctions
  have hfrom : ∀ call ∈ [callOfFG], call.From s () :=
    List.forall_mem_singleton.mpr (from_twoFunctions hempty hsymbols).2
  have hbalanced := hclaim twoFunctions s [callOfFG] hready hfrom
  have hback : ∀ call ∈ [callOfFG], isEntry s.tracee.proc call.back.brkAddr = false := by
    rw [List.forall_mem_singleton]
    simp only [isEntry, symbolAt, hsymbols]
    decide
  have hsingle := (Sys.HandedOn.start hready 0).single_of_balanced_calls hfrom hback hbalanced
  obtain ⟨visit, hentries, _⟩ := List.forall_mem_singleton.mp hsingle
  cases hentries

end Utrace
