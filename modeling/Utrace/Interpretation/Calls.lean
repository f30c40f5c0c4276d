import Utrace.Interpretation.Frames
import Utrace.Interpretation.Effect

/-!
# The call stack as a list of calls

Where no system call is in progress the frames of a thread are a list of calls, each its
entry and its return address. What `process_breakpoint` makes of a trap is then a function
of that list and of the addresses that are traced entries.
-/

namespace Utrace

/-- A call: the entry address of the function and the address it returns to. -/
abbrev Activation := Addr × Addr

/-- The call a frame stands for. -/
def CallstackElement.call? (elem : CallstackElement) : Option Activation :=
  match elem.cUn with
  | .libfunc sym => some (sym.enterAddr, elem.returnAddr)
  | .syscall _ => none

/-- The function entries of a call stack, innermost first. -/
def Callstack.calls (cs : Callstack) : List Activation := cs.elems.filterMap CallstackElement.call?

/-- The frames are these calls, and no other frame is among them. -/
def Callstack.Exactly (cs : Callstack) (calls : List Activation) : Prop :=
  cs.elems.map CallstackElement.call? = calls.map some

/-- What is made of a trap at an address with a word on top of the stack: a return to the
innermost call that returns there, else an entry, while there is room. -/
def recordTrap (entries : Addr → Bool) (calls : List Activation) (brk stackTop : Addr) :
    List Activation :=
  match calls.findIdx? fun call => call.2 = brk with
  | some n => calls.drop (n + 1)
  | none =>
    if entries brk = true ∧ calls.length < maxCalldepth - 1 then (brk, stackTop) :: calls
    else calls

namespace Callstack.Exactly

variable {cs : Callstack} {calls : List Activation}

/-- The calls on the stack are told. -/
theorem calls_eq (h : cs.Exactly calls) : cs.calls = calls := by
  have hmap : cs.calls = (cs.elems.map CallstackElement.call?).filterMap id := by
    unfold Callstack.calls
    rw [List.filterMap_map, Function.id_comp]
  rw [hmap, h, List.filterMap_map, Function.id_comp, List.filterMap_some]

/-- They are as many as the depth. -/
theorem length_eq (h : cs.Exactly calls) : cs.depth = calls.length := by
  have hlen := congrArg List.length h
  simpa [Callstack.depth] using hlen

/-- Pops drop the innermost ones. -/
theorem iterate_pop (h : cs.Exactly calls) (n : Nat) :
    (Callstack.pop^[n] cs).Exactly (calls.drop n) := by
  unfold Callstack.Exactly
  rw [elems_iterate_pop, List.map_drop, h, List.map_drop]

/-- A push adds a call where there is room. -/
theorem push (h : cs.Exactly calls) {elem : CallstackElement} {call : Activation}
    (hcall : elem.call? = some call) :
    (cs.push elem).Exactly (if calls.length < maxCalldepth - 1 then call :: calls else calls) := by
  have hlen := h.length_eq
  rcases cs.push_cases elem with ⟨hfull, hpush⟩ | ⟨hroom, hpush⟩
  · rw [if_neg (by omega), hpush]
    exact h
  · rw [if_pos (by omega)]
    unfold Callstack.Exactly
    rw [hpush, List.map_cons, List.map_cons, hcall, h]

/-- A call holds a reference to the address it returns to. -/
theorem frameRefs_pos (h : cs.Exactly calls) {a : Addr} (ha : a ∈ calls.map Prod.snd) :
    0 < frameRefs cs.elems a := by
  obtain ⟨call, hcall, hret⟩ := List.mem_map.mp ha
  have hsome : some call ∈ cs.elems.map CallstackElement.call? := by
    rw [h]
    exact List.mem_map_of_mem hcall
  obtain ⟨elem, helem, hcall?⟩ := List.mem_map.mp hsome
  refine List.countP_pos_iff.mpr ⟨elem, helem, ?_⟩
  unfold CallstackElement.call? at hcall?
  unfold CallstackElement.isSyscall
  split at hcall?
  · rename_i sym hcUn
    rw [← Option.some.inj hcall?] at hret
    simpa [hcUn] using hret
  · cases hcall?

/-- No frame is that of a system call. -/
theorem not_syscall (h : cs.Exactly calls) {n : Nat} {m : Int}
    (hsys : cs.elems[n]?.map CallstackElement.cUn = some (.syscall m)) : False := by
  obtain ⟨elem, helem, hcUn⟩ := Option.map_eq_some_iff.mp hsys
  have hcall : elem.call? = none := by rw [CallstackElement.call?, hcUn]
  have hget := congrArg (·[n]?) h
  simp only [List.getElem?_map, helem, Option.map_some, hcall] at hget
  cases hc : calls[n]? with
  | none => simp [hc] at hget
  | some call => simp [hc] at hget

/-- The element a return belongs to is the innermost call that returns there. -/
theorem returning_eq (h : cs.Exactly calls) (brk : Addr) :
    cs.returning brk = calls.findIdx? fun call => call.2 = brk := by
  unfold Callstack.returning
  have hall : ∀ (elems : List CallstackElement) (calls : List Activation),
      elems.map CallstackElement.call? = calls.map some →
      elems.findIdx? (fun elem => elem.returnAddr = brk) =
        calls.findIdx? fun call => call.2 = brk := by
    intro elems
    induction elems with
    | nil =>
      intro calls hmap
      cases calls with
      | nil => rfl
      | cons call calls => cases hmap
    | cons elem elems ih =>
      intro calls hmap
      cases calls with
      | nil => cases hmap
      | cons call calls =>
        rw [List.map_cons, List.map_cons, List.cons.injEq] at hmap
        obtain ⟨hcall, hrest⟩ := hmap
        have hret : elem.returnAddr = call.2 := by
          unfold CallstackElement.call? at hcall
          split at hcall
          · rw [← Option.some.inj hcall]
          · cases hcall
        rw [List.findIdx?_cons, List.findIdx?_cons, hret, ih calls hrest]
  exact hall cs.elems calls h

end Callstack.Exactly

/-- Whether an address is the entry of a listed symbol. -/
def isEntry (proc : Process) (a : Addr) : Bool := (symbolAt proc a).isSome

/-- While no step is pending, a trap changes the calls as `recordTrap` says. -/
theorem Hit.exactly {env : Env} {f f' : Focus} {stop : Stop} {brk : Addr}
    {calls : List Activation} (h : Hit env f stop brk f')
    (hnone : f.thr.breakpointBeingEnabled = none) (hf : f.thr.callstack.Exactly calls) :
    f'.thr.callstack.Exactly (recordTrap (isEntry f.tracee.proc) calls brk stop.stackTop) := by
  unfold recordTrap
  rw [← hf.returning_eq]
  cases h with
  | rearm a hbeing => cases hnone.symm.trans hbeing
  | ret n _ _ hreturning _ hcs =>
    rw [hreturning, hcs]
    exact hf.iterate_pop (n + 1)
  | entry sym _ hreturning hsym hcs =>
    have haddr : sym.enterAddr = brk := by simpa using List.find?_some hsym
    have hentry : isEntry f.tracee.proc brk = true := by rw [isEntry, hsym]; rfl
    rw [hreturning, hcs]
    simp only [hentry, true_and]
    refine hf.push ?_
    change some (sym.enterAddr, stop.stackTop) = some (brk, stop.stackTop)
    rw [haddr]
  | stray _ hreturning hsym _ hcs =>
    have hentry : isEntry f.tracee.proc brk = false := by rw [isEntry, hsym]; rfl
    rw [hreturning, hcs]
    simpa [hentry] using hf

/-! ## What the list of calls should become -/

variable {entries : Addr → Bool} {calls : List Activation}

/-- No call returns to an address that is none of theirs. -/
theorem findIdx?_returning_eq_none {brk : Addr} :
    (calls.findIdx? fun call => call.2 = brk) = none ↔ brk ∉ calls.map Prod.snd := by
  rw [List.findIdx?_eq_none_iff, List.mem_map]
  constructor
  · rintro hall ⟨call, hmem, rfl⟩
    simpa using hall call hmem
  · intro hnot call hmem
    exact decide_eq_false fun heq => hnot ⟨call, hmem, heq⟩

/-- A call is recorded exactly when its entry is no pending return address. -/
theorem recordTrap_call_iff {entry ret : Addr} (hentry : entries entry = true)
    (hroom : calls.length < maxCalldepth - 1) :
    recordTrap entries calls entry ret = (entry, ret) :: calls ↔ entry ∉ calls.map Prod.snd := by
  unfold recordTrap
  rw [← findIdx?_returning_eq_none]
  cases calls.findIdx? fun call => call.2 = entry with
  | none => simp [hentry, hroom]
  | some n =>
    refine iff_of_false (fun heq => ?_) nofun
    have hlen := congrArg List.length heq
    rw [List.length_drop, List.length_cons] at hlen
    omega

/-- The return of the innermost call is always recorded. -/
theorem recordTrap_ret (entry ret stackTop : Addr) :
    recordTrap entries ((entry, ret) :: calls) ret stackTop = calls := by
  unfold recordTrap
  simp [List.findIdx?_cons]

/-- Any other arrival leaves the calls alone exactly when the address is no pending return
address, and no entry while there is room. -/
theorem recordTrap_jump_iff (a stackTop : Addr) :
    recordTrap entries calls a stackTop = calls ↔
      a ∉ calls.map Prod.snd ∧ (entries a = true → maxCalldepth - 1 ≤ calls.length) := by
  unfold recordTrap
  rw [← findIdx?_returning_eq_none]
  cases hidx : calls.findIdx? fun call => call.2 = a with
  | none =>
    by_cases hpush : entries a = true ∧ calls.length < maxCalldepth - 1
    · rw [if_pos hpush]
      refine iff_of_false (fun heq => ?_) fun hnot => ?_
      · have hlen := congrArg List.length heq
        rw [List.length_cons] at hlen
        omega
      · have hfull := hnot.2 hpush.1
        omega
    · rw [if_neg hpush]
      refine iff_of_true rfl ⟨rfl, fun he => ?_⟩
      by_contra hlt
      exact hpush ⟨he, by omega⟩
  | some n =>
    refine iff_of_false (fun heq => ?_) fun hnot => by cases hnot.1
    obtain ⟨hn, -⟩ := List.findIdx?_eq_some_iff_getElem.mp hidx
    have hlen := congrArg List.length heq
    rw [List.length_drop] at hlen
    omega

end Utrace
