import Utrace.Interpretation.Effect
import Utrace.Native.RawStack

/-!
# The list of elements for the array

The elements below `callstack_depth`, innermost first, are the call stack of the other model,
and each handler of an event does to the array what it does to that list. The list carries its
bound, so the depth and the indices are found to be in range on the way.
-/

namespace Utrace.RawStack

/-! ## In range -/

/-- An index of `callstack[]`. -/
def InRange (i : Int) : Prop := 0 ≤ i ∧ i ≤ maxCalldepth - 1

/-- An index used, or a depth set, is in range. -/
def StackEvent.Within : StackEvent → Prop
  | .access i | .depth i => InRange i

/-- The depth and all that was done to the stack are in range. -/
structure Bounded (s : RawFocus) : Prop where
  depth : InRange s.thr.callstackDepth
  events : ∀ event ∈ s.events, event.Within

variable {s t : RawFocus} {f g : Focus}

/-- One more index in range. -/
theorem Bounded.accessed (h : Bounded s) {i : Int} (hi : InRange i)
    (hevents : t.events = .access i :: s.events)
    (hdepth : t.thr.callstackDepth = s.thr.callstackDepth) : Bounded t := by
  refine ⟨hdepth ▸ h.depth, ?_⟩
  rw [hevents, List.forall_mem_cons]
  exact ⟨hi, h.events⟩

/-- What was accessed and the depth decide whether a state is bounded. -/
theorem Bounded.congr (h : Bounded s) (hevents : t.events = s.events)
    (hdepth : t.thr.callstackDepth = s.thr.callstackDepth) : Bounded t :=
  ⟨hdepth ▸ h.depth, hevents ▸ h.events⟩

/-! ## The list in the array -/

/-- The first elements of an array, the last of them first. -/
def stacked (callstack : Int → Slot) : Nat → List CallstackElement
  | 0 => []
  | n + 1 => (callstack n).elem :: stacked callstack n

/-- A stack of `n` elements is read off the array. -/
@[simp] theorem length_stacked (callstack : Int → Slot) (n : Nat) :
    (stacked callstack n).length = n := by
  induction n with
  | zero => rfl
  | succ n ih => rw [stacked, List.length_cons, ih]

/-- The stack read off the array depends on its elements only. -/
theorem stacked_congr {callstack callstack' : Int → Slot} {n : Nat}
    (h : ∀ i : Nat, i < n → (callstack' i).elem = (callstack i).elem) :
    stacked callstack' n = stacked callstack n := by
  induction n with
  | zero => rfl
  | succ n ih =>
    rw [stacked, stacked, h n n.lt_succ_self, ih fun i hi => h i (hi.trans n.lt_succ_self)]

/-- The array holds the list below its depth. -/
structure Stands (thr : RawThread) (cs : Callstack) : Prop where
  depth : thr.callstackDepth = cs.depth
  elems : stacked thr.callstack cs.depth = cs.elems

/-- The record behind a push, but for the time. -/
def RawThread.push (thr : RawThread) (elem : CallstackElement) : RawThread :=
  { thr with
    callstackDepth := thr.callstackDepth + 1
    callstack := Function.update thr.callstack thr.callstackDepth
      { thr.callstack thr.callstackDepth with elem := elem } }

/-- A push stores the element at the depth. -/
theorem RawThread.elem_push_self (thr : RawThread) (elem : CallstackElement) :
    ((thr.push elem).callstack thr.callstackDepth).elem = elem := by
  dsimp only [push]
  rw [Function.update_self]

/-- A push stores nowhere else. -/
theorem RawThread.elem_push_of_ne (thr : RawThread) (elem : CallstackElement) {i : Int}
    (hi : i ≠ thr.callstackDepth) :
    ((thr.push elem).callstack i).elem = (thr.callstack i).elem := by
  dsimp only [push]
  rw [Function.update_of_ne hi]

namespace Stands

variable {thr thr' : RawThread} {cs : Callstack} {elem : CallstackElement}

/-- The depth of a thread that stands for a stack is in range. -/
theorem inRange (h : Stands thr cs) : InRange thr.callstackDepth := by
  rw [InRange, h.depth]
  exact ⟨Int.natCast_nonneg _, Int.ofNat_le.mpr cs.bounded⟩

/-- The limit of the array is that of the list. -/
theorem full (h : Stands thr cs) (hfull : thr.callstackDepth = maxCalldepth - 1) :
    cs.depth = maxCalldepth - 1 := by
  apply Int.ofNat_inj.mp
  rw [← h.depth, hfull]
  rfl

/-- Where the array has room, so has the stack. -/
theorem not_full (h : Stands thr cs) (hroom : thr.callstackDepth ≠ maxCalldepth - 1) :
    cs.depth ≠ maxCalldepth - 1 := by
  intro hfull
  apply hroom
  rw [h.depth, hfull]
  rfl

/-- Only the depth and the elements count. -/
theorem congr (h : Stands thr cs) (hdepth : thr'.callstackDepth = thr.callstackDepth)
    (helems : ∀ i : Nat, (thr'.callstack i).elem = (thr.callstack i).elem) : Stands thr' cs :=
  ⟨hdepth.trans h.depth, (stacked_congr fun i _ => helems i).trans h.elems⟩

/-- The top of the stack. -/
theorem top (h : Stands thr cs) {rest : List CallstackElement} (hcs : cs.elems = elem :: rest) :
    (thr.callstack (thr.callstackDepth - 1)).elem = elem ∧ 0 < thr.callstackDepth ∧
      InRange (thr.callstackDepth - 1) := by
  have hlength : cs.depth = rest.length + 1 := by rw [Callstack.depth, hcs, List.length_cons]
  have helems := h.elems
  rw [hlength, hcs, stacked, List.cons_eq_cons] at helems
  have hrange := h.inRange
  have hdepth := h.depth
  have htop : thr.callstackDepth - 1 = (rest.length : Int) := by omega
  unfold InRange at hrange ⊢
  refine ⟨?_, by omega, by omega, by omega⟩
  rw [htop]
  exact helems.1

/-- A lower depth stands for the stack without its innermost element. -/
theorem pop (h : Stands thr cs) {rest : List CallstackElement} (hcs : cs.elems = elem :: rest)
    (hdepth : thr'.callstackDepth = thr.callstackDepth - 1)
    (hcallstack : thr'.callstack = thr.callstack) : Stands thr' cs.pop := by
  have hlength : cs.depth = rest.length + 1 := by rw [Callstack.depth, hcs, List.length_cons]
  have hrest : cs.pop.elems = rest := by rw [Callstack.elems_pop, hcs, List.tail_cons]
  have hpop : cs.pop.depth = rest.length := by rw [Callstack.depth, hrest]
  have helems := h.elems
  rw [hlength, hcs, stacked, List.cons_eq_cons] at helems
  refine ⟨?_, ?_⟩
  · rw [hdepth, h.depth, hlength, hpop]
    omega
  · rw [hpop, hrest, hcallstack]
    exact helems.2

/-- A push below the limit. -/
theorem push (h : Stands thr cs) (hroom : thr.callstackDepth ≠ maxCalldepth - 1)
    (elem : CallstackElement) : Stands (thr.push elem) (cs.push elem) := by
  have hlt : cs.depth < maxCalldepth - 1 := lt_of_le_of_ne cs.bounded (h.not_full hroom)
  have helems := Callstack.elems_push_of_lt hlt elem
  have hlength : (cs.push elem).depth = cs.depth + 1 := by
    rw [Callstack.depth, helems, List.length_cons]
    rfl
  refine ⟨?_, ?_⟩
  · rw [RawThread.push, h.depth, hlength]
    rfl
  · rw [hlength, helems, stacked, ← h.elems, ← h.depth, thr.elem_push_self]
    congr 1
    apply stacked_congr
    intro i hi
    apply thr.elem_push_of_ne
    rw [h.depth]
    omega

end Stands

/-! ## The thread and its process -/

/-- The record of a thread and the other model's thread. -/
structure Records (thr : RawThread) (thr' : Thread) : Prop where
  stands : Stands thr thr'.callstack
  instructionPointer : thr.instructionPointer = thr'.instructionPointer
  stackPointer : thr.stackPointer = thr'.stackPointer
  returnAddr : thr.returnAddr = thr'.returnAddr
  breakpointBeingEnabled : thr.breakpointBeingEnabled = thr'.breakpointBeingEnabled

/-- The thread together with its process. -/
structure Represents (s : RawFocus) (f : Focus) : Prop where
  tracee : s.tracee = f.tracee
  thread : Records s.thr f.thr

/-- What differs in no element and in nothing else that is represented. -/
structure Alike (s t : RawFocus) : Prop where
  tracee : t.tracee = s.tracee
  depth : t.thr.callstackDepth = s.thr.callstackDepth
  elems : ∀ i : Nat, (t.thr.callstack i).elem = (s.thr.callstack i).elem
  instructionPointer : t.thr.instructionPointer = s.thr.instructionPointer
  stackPointer : t.thr.stackPointer = s.thr.stackPointer
  returnAddr : t.thr.returnAddr = s.thr.returnAddr
  breakpointBeingEnabled : t.thr.breakpointBeingEnabled = s.thr.breakpointBeingEnabled

/-- States that are alike represent the same. -/
theorem Alike.represents (halike : Alike s t) (h : Represents s f) : Represents t f := by
  refine ⟨halike.tracee.trans h.tracee, ?_⟩
  obtain ⟨hstands, hip, hsp, hra, hbeing⟩ := h.thread
  exact ⟨hstands.congr halike.depth halike.elems, halike.instructionPointer.trans hip,
    halike.stackPointer.trans hsp, halike.returnAddr.trans hra,
    halike.breakpointBeingEnabled.trans hbeing⟩

/-- The other model's lines and requests are not represented. -/
theorem Represents.of_eq (h : Represents s f) (htracee : g.tracee = f.tracee)
    (hthr : g.thr = f.thr) : Represents s g :=
  ⟨h.tracee.trans htracee.symm, hthr ▸ h.thread⟩

/-- The depth of a state that represents another is in range. -/
theorem Represents.inRange (h : Represents s f) : InRange s.thr.callstackDepth :=
  h.thread.stands.inRange

variable {env : Env} {clock : Clock}

/-! ## Times -/

/-- Stamping the time of an element in range ends in a state that is alike. -/
theorem stampTime_alike (h : Bounded s) {i : Int} (hi : InRange i) :
    ∃ t, (stampTime env clock i).ending s = (.ok (), t) ∧ Bounded t ∧ Alike s t := by
  unfold stampTime
  split
  · refine ⟨_, rfl, h.accessed hi rfl rfl, rfl, rfl, fun j => ?_, rfl, rfl,
      rfl, rfl⟩
    change (Function.update s.thr.callstack i { s.thr.callstack i with timeSpent := clock.time }
      j).elem = _
    by_cases hj : (j : Int) = i
    · rw [hj, Function.update_self]
    · rw [Function.update_of_ne hj]
  · exact ⟨s, rfl, h, rfl, rfl, fun _ => rfl, rfl, rfl, rfl, rfl⟩

/-- The time since the innermost call, where there is one. -/
theorem takeTimeSpent_alike (env : Env) (clock : Clock) (h : Bounded s)
    (hdepth : InRange (s.thr.callstackDepth - 1)) :
    ∃ t, (takeTimeSpent env clock).ending s = (.ok (), t) ∧ Bounded t ∧ Alike s t ∧
      t.thr.callstack = s.thr.callstack := by
  unfold takeTimeSpent
  split
  · exact ⟨_, rfl, h.accessed hdepth rfl rfl,
      ⟨rfl, rfl, fun _ => rfl, rfl, rfl, rfl, rfl⟩, rfl⟩
  · exact ⟨s, rfl, h, ⟨rfl, rfl, fun _ => rfl, rfl, rfl, rfl, rfl⟩, rfl⟩

/-! ## Pushes -/

/-- A depth that is not at the limit is an index, and so is the next one. -/
theorem InRange.succ {i : Int} (h : InRange i) (hroom : i ≠ maxCalldepth - 1) :
    InRange (i + 1) := by
  unfold InRange at h ⊢
  omega

/-- Both pushes once the element and the depth are written. -/
def RawFocus.pushed (s : RawFocus) (tracee : Tracee) (elem : CallstackElement) : RawFocus :=
  { s with
    tracee := tracee
    thr := s.thr.push elem
    events := .depth (s.thr.callstackDepth + 1) :: .access s.thr.callstackDepth :: s.events }

/-- Then the time is taken. -/
theorem pushed_refined (hin : Bounded s) (h : Represents s f)
    (hroom : s.thr.callstackDepth ≠ maxCalldepth - 1) (tracee : Tracee)
    (elem : CallstackElement) :
    Refined Bounded (fun _ => Represents)
      ((stampTime env clock s.thr.callstackDepth).ending (s.pushed tracee elem))
      (.ok { f with
        tracee := tracee
        thr := { f.thr with callstack := f.thr.callstack.push elem } } : Except Halt Focus) := by
  obtain ⟨hstands, hip, hsp, hra, hbeing⟩ := h.thread
  have hnext := hin.depth.succ hroom
  have hpushed : Bounded (s.pushed tracee elem) := by
    refine ⟨hnext, ?_⟩
    rw [RawFocus.pushed, List.forall_mem_cons, List.forall_mem_cons]
    exact ⟨hnext, hin.depth, hin.events⟩
  obtain ⟨t, ht, hbounded, halike⟩ := stampTime_alike hpushed hin.depth
  rw [ht]
  exact .ok hbounded (halike.represents ⟨rfl, hstands.push hroom elem, hip, hsp, hra, hbeing⟩)

/-- `callstack_push_syscall` refines the push of a system call. -/
theorem callstackPushSyscall_refined (env : Env) (clock : Clock) (hin : Bounded s)
    (h : Represents s f) (sysnum : Int) :
    Refined Bounded (fun _ => Represents) ((callstackPushSyscall env clock sysnum).ending s)
      (.ok { f with thr := Utrace.callstackPushSyscall f.thr sysnum } : Except Halt Focus) := by
  change Refined _ _ (Procedure.ending (if s.thr.callstackDepth = _ then _ else _) s) _
  split
  · rename_i hfull
    refine .ok hin (h.of_eq rfl ?_)
    rw [Utrace.callstackPushSyscall, Callstack.push_of_full (h.thread.stands.full hfull)]
  · rename_i hroom
    have hsame : ({ f with thr := Utrace.callstackPushSyscall f.thr sysnum } : Focus) =
        { f with tracee := s.tracee, thr := Utrace.callstackPushSyscall f.thr sysnum } := by
      rw [h.tracee]
    rw [hsame]
    exact pushed_refined hin h hroom s.tracee ⟨.syscall sysnum, 0⟩

/-- `callstack_push_symfunc` refines the push of a call. -/
theorem callstackPushSymfunc_refined (env : Env) (clock : Clock) (hin : Bounded s)
    (h : Represents s f) (sym : LibrarySymbol) :
    Refined Bounded (fun _ => Represents) ((callstackPushSymfunc env clock sym).ending s)
      (.ok (Utrace.callstackPushSymfunc f sym) : Except Halt Focus) := by
  change Refined _ _ (Procedure.ending (if s.thr.callstackDepth = _ then _ else _) s) _
  split
  · rename_i hfull
    rw [Utrace.callstackPushSymfunc, if_pos (h.thread.stands.full hfull)]
    exact .ok hin h
  · rename_i hroom
    rw [Utrace.callstackPushSymfunc, if_neg (h.thread.stands.not_full hroom), ← h.tracee,
      ← h.thread.returnAddr]
    exact pushed_refined hin h hroom (insertBreakpoint s.tracee s.thr.returnAddr)
      ⟨.libfunc sym, s.thr.returnAddr⟩

/-! ## Pops -/

/-- Dropping a reference to a return address refines `delete_breakpoint`, and fails as it does. -/
theorem deleteReturn_refined (hin : Bounded s) (elem : CallstackElement) :
    Refined Bounded (fun _ t tracee => t = { s with tracee := tracee })
      ((deleteReturn env elem).ending s)
      (if elem.isSyscall then .ok s.tracee
        else deleteBreakpoint env s.tracee elem.returnAddr) := by
  unfold deleteReturn
  rw [Procedure.ending_get_bind]
  split
  · exact .ok hin rfl
  · cases deleteBreakpoint env s.tracee elem.returnAddr with
    | error halt => exact .error hin
    | ok tracee => exact .ok (hin.congr rfl rfl) rfl

/-- A pop leaves the array as it is and lowers the depth by one. -/
theorem callstackPop_refined (env : Env) (hin : Bounded s) (h : Represents s f) :
    Refined Bounded
      (fun _ t g => Represents t g ∧ t.thr.callstack = s.thr.callstack ∧
        t.thr.callstackDepth = s.thr.callstackDepth - 1)
      ((callstackPop env).ending s) (Utrace.callstackPop env f) := by
  obtain ⟨hstands, hip, hsp, hra, hbeing⟩ := h.thread
  change Refined _ _ (Procedure.ending (if 0 < s.thr.callstackDepth then _ else _) s) _
  unfold Utrace.callstackPop
  cases hcs : f.thr.callstack.elems with
  | nil =>
    have hzero : s.thr.callstackDepth = 0 := by
      rw [hstands.depth, Callstack.depth, hcs]
      rfl
    rw [if_neg (by omega)]
    exact .error hin
  | cons elem rest =>
    obtain ⟨htop, hpos, hrange⟩ := hstands.top hcs
    rw [if_pos hpos]
    -- the element is read before the table is changed
    let read : RawFocus := { s with events := .access (s.thr.callstackDepth - 1) :: s.events }
    have hread : Bounded read := hin.accessed hrange rfl rfl
    have hpopped : ∀ tracee, Refined Bounded
        (fun _ t g => Represents t g ∧ t.thr.callstack = s.thr.callstack ∧
          t.thr.callstackDepth = s.thr.callstackDepth - 1)
        ((setDepth (s.thr.callstackDepth - 1)).ending { read with tracee := tracee })
        (.ok { f with
          tracee := tracee
          thr := { f.thr with callstack := f.thr.callstack.pop } } : Except Halt Focus) := by
      intro tracee
      refine .ok ⟨hrange, ?_⟩ ⟨⟨rfl, hstands.pop hcs rfl rfl, hip, hsp, hra, hbeing⟩, rfl, rfl⟩
      exact List.forall_mem_cons.mpr ⟨hrange, hread.events⟩
    change Refined _ _ ((deleteReturn env (s.thr.callstack (s.thr.callstackDepth - 1)).elem >>=
      fun _ => setDepth (s.thr.callstackDepth - 1)).ending read) _
    rw [htop, ← h.tracee]
    refine (deleteReturn_refined hread elem).map ?_
    rintro _ t tracee _ rfl
    exact hpopped tracee

/-- Pops refine pops, and leave the elements in the array. -/
theorem callstackPops_refined (hin : Bounded s) (h : Represents s f) (n : Nat) :
    Refined Bounded
      (fun _ t g => Represents t g ∧ t.thr.callstack = s.thr.callstack ∧
        t.thr.callstackDepth = s.thr.callstackDepth - n)
      ((callstackPops env n).ending s) (Utrace.callstackPops env f n) := by
  induction n generalizing s f with
  | zero => exact .ok hin ⟨h, rfl, (Int.sub_zero _).symm⟩
  | succ n ih =>
    refine (callstackPop_refined env hin h).bind ?_
    rintro _ t g hbounded ⟨hrep, hcallstack, hdepth⟩
    refine (ih hbounded hrep).mono ?_
    rintro _ t' g' ⟨hrep', hcallstack', hdepth'⟩
    refine ⟨hrep', hcallstack'.trans hcallstack, ?_⟩
    omega

/-! ## `process_event.c` -/

/-- The loop reads elements only, and finds the one the list has. -/
theorem returnSearch_spec (hin : Bounded s) (brkAddr : Addr) {n : Nat}
    (hn : (n : Int) ≤ maxCalldepth) :
    ∃ found t, (returnSearch brkAddr n).ending s = (.ok found, t) ∧ Bounded t ∧
      t.tracee = s.tracee ∧ t.thr = s.thr ∧
      (stacked s.thr.callstack n).findIdx? (fun elem => elem.returnAddr = brkAddr) =
        found.map (n - 1 - ·) ∧ ∀ i, found = some i → i < n := by
  induction n generalizing s with
  | zero => exact ⟨none, s, rfl, hin, rfl, rfl, rfl, nofun⟩
  | succ n ih =>
    let read : RawFocus := { s with events := .access n :: s.events }
    have hrange : InRange n := by
      unfold InRange
      omega
    have hread : Bounded read := hin.accessed hrange rfl rfl
    change ∃ found t, (Procedure.ending (if brkAddr = (s.thr.callstack n).elem.returnAddr then
      pure (some n) else returnSearch brkAddr n) read) = (.ok found, t) ∧ _
    rw [stacked, List.findIdx?_cons]
    split
    · rename_i haddr
      refine ⟨some n, read, rfl, hread, rfl, rfl, ?_, ?_⟩
      · rw [if_pos (decide_eq_true haddr.symm), Option.map_some, Nat.add_sub_cancel, Nat.sub_self]
      · rintro i ⟨⟩
        exact n.lt_succ_self
    · rename_i haddr
      obtain ⟨found, t, hending, hbounded, htracee, hthr, hfind, hlt⟩ := ih hread (by omega)
      refine ⟨found, t, hending, hbounded, htracee, hthr, ?_, fun i hi => (hlt i hi).trans
        n.lt_succ_self⟩
      have hne : ¬decide ((s.thr.callstack n).elem.returnAddr = brkAddr) = true := by
        rw [decide_eq_true_iff]
        exact fun heq => haddr heq.symm
      rw [if_neg hne, hfind]
      cases found with
      | none => rfl
      | some i =>
        have hi := hlt i rfl
        rw [Option.map_some, Option.map_some, Option.map_some]
        congr 1
        omega

/-- Going on after a breakpoint is refined. -/
theorem continueAfterBreakpointAt_refined (hin : Bounded s) (h : Represents s f) (addr : Addr) :
    Refined Bounded (fun _ => Represents) ((continueAfterBreakpointAt env addr).ending s)
      (Utrace.continueAfterBreakpointAt env f addr) := by
  obtain ⟨hstands, hip, hsp, hra, hbeing⟩ := h.thread
  unfold Utrace.continueAfterBreakpointAt
  rw [← h.tracee]
  refine Refined.lift hin fun entry _ => ?_
  cases entry with
  | none => exact .error hin
  | some sbp =>
    unfold continueAfterBreakpoint Utrace.continueAfterBreakpoint
    dsimp only
    split
    · rename_i hzero
      rw [if_neg (not_not_intro hzero)]
      exact .ok hin (h.of_eq rfl rfl)
    · refine .ok (hin.congr rfl rfl) ⟨?_, hstands.congr rfl fun _ => rfl, hip, hsp, hra, rfl⟩
      change disableEntry env s.tracee sbp.addr = disableEntry env f.tracee sbp.addr
      rw [h.tracee]

/-- An entry trap is refined. -/
theorem processEntry_refined (hin : Bounded s) (h : Represents s f) (stop : Stop)
    (sym : LibrarySymbol) :
    Refined Bounded (fun _ => Represents) ((processEntry env clock stop sym).ending s)
      (Utrace.processEntry env f stop sym) := by
  obtain ⟨hstands, hip, hsp, hra, hbeing⟩ := h.thread
  let entered : RawFocus := { s with thr := { s.thr with
    stackPointer := stop.uesp
    returnAddr := stop.stackTop } }
  let entered' : Focus := { f with
    thr := { f.thr with stackPointer := stop.uesp, returnAddr := stop.stackTop }
    output := outputLeft env f.output
      { f.thr with stackPointer := stop.uesp, returnAddr := stop.stackTop } sym.name }
  have hentered : Bounded entered := hin.congr rfl rfl
  have hrep : Represents entered entered' :=
    ⟨h.tracee, hstands.congr rfl fun _ => rfl, hip, rfl, rfl, hbeing⟩
  have hpush := callstackPushSymfunc_refined env clock hentered hrep sym
  exact hpush.bind fun _ t g hbounded hg => continueAfterBreakpointAt_refined hbounded hg _

/-- A return trap is refined, for the index the search in the array ends at. -/
theorem processReturn_refined (hin : Bounded s) (h : Represents s f) (brkAddr : Addr) {i : Nat}
    (hi : i < f.thr.callstack.depth) :
    Refined Bounded (fun _ => Represents) ((processReturn env clock brkAddr i).ending s)
      (Utrace.processReturn env f brkAddr (f.thr.callstack.depth - 1 - i)) := by
  have hdepth := h.thread.stands.depth
  have hturns : (s.thr.callstackDepth - 1 - i).toNat = f.thr.callstack.depth - 1 - i := by omega
  change Refined _ _ (Procedure.ending (callstackPops env (s.thr.callstackDepth - 1 - i).toNat >>=
    _) s) _
  rw [hturns]
  refine (callstackPops_refined hin h _).bind ?_
  rintro _ t g hbounded ⟨hrep, hcallstack, htop⟩
  -- the element of the return is now on top
  have hone : t.thr.callstackDepth = i + 1 := by omega
  have hstands := hrep.thread.stands
  have hlength := hstands.depth
  rw [hone, Callstack.depth] at hlength
  obtain ⟨elem, rest, hcs⟩ : ∃ elem rest, g.thr.callstack.elems = elem :: rest := by
    apply List.exists_cons_of_length_pos
    omega
  obtain ⟨helem, _, hrange⟩ := hstands.top hcs
  obtain ⟨u, hu, hbounded', halike, hsame⟩ :=
    takeTimeSpent_alike env clock hbounded hrange
  rw [Procedure.ending_bind_of_ok hu]
  refine (callstackPop_refined env hbounded' (halike.represents hrep)).bind ?_
  rintro _ v g' hbounded'' ⟨hrep', hcallstack', _⟩
  let returned : RawFocus := { v with
    thr := { v.thr with returnAddr := brkAddr }
    events := .access i :: v.events }
  have hreturned : Bounded returned := by
    refine hbounded''.accessed (i := i) ?_ rfl rfl
    have hsub : t.thr.callstackDepth - 1 = i := by omega
    exact hsub ▸ hrange
  have helem' : (v.thr.callstack i).elem = elem := by
    rw [hcallstack', hsame, ← helem, hone, Int.add_sub_cancel]
  obtain ⟨hstands', hip, hsp, _, hbeing⟩ := hrep'.thread
  change Refined _ _ ((continueReturn env brkAddr (v.thr.callstack i).elem.cUn).ending returned) _
  rw [helem', hcs, List.head?_cons, Option.map_some]
  cases elem.cUn with
  | syscall sysnum => exact .error hreturned
  | libfunc sym =>
    apply continueAfterBreakpointAt_refined hreturned
    exact ⟨hrep'.tracee, hstands'.congr rfl fun _ => rfl, hip, hsp, rfl, hbeing⟩

/-- `process_breakpoint` is refined. -/
theorem processBreakpoint_refined (hin : Bounded s) (h : Represents s f) (stop : Stop)
    (brkAddr : Addr) :
    Refined Bounded (fun _ => Represents) ((processBreakpoint env clock stop brkAddr).ending s)
      (Utrace.processBreakpoint env f stop brkAddr) := by
  obtain ⟨hstands, hip, hsp, hra, hbeing⟩ := h.thread
  unfold processBreakpoint Utrace.processBreakpoint
  rw [← hbeing, Procedure.ending_get_bind]
  cases s.thr.breakpointBeingEnabled with
  | some addr =>
    refine .ok (hin.congr rfl rfl) ⟨?_, hstands.congr rfl fun _ => rfl, hip, hsp, hra, rfl⟩
    change enableEntry s.tracee addr = enableEntry f.tracee addr
    rw [h.tracee]
  | none =>
    have hdepth : s.thr.callstackDepth.toNat = f.thr.callstack.depth := by
      rw [hstands.depth, Int.toNat_natCast]
    have hle : (f.thr.callstack.depth : Int) ≤ maxCalldepth := by
      have hrange := hstands.inRange.2
      rw [hstands.depth] at hrange
      omega
    obtain ⟨found, t, hending, hbounded, htracee, hthr, hfind, hlt⟩ :=
      returnSearch_spec hin brkAddr hle
    have hrep : Represents t f := ⟨htracee.trans h.tracee, hthr ▸ h.thread⟩
    rw [hstands.elems] at hfind
    dsimp only
    rw [hdepth, Procedure.ending_bind_of_ok hending, Callstack.returning, hfind]
    cases found with
    | some i => exact processReturn_refined hbounded hrep brkAddr (hlt i rfl)
    | none =>
      rw [Option.map_none, h.tracee]
      cases symbolAt f.tracee.proc brkAddr with
      | some sym => exact processEntry_refined hbounded hrep stop sym
      | none => exact .ok hbounded (hrep.of_eq rfl rfl)

/-- `process_syscall` is refined. -/
theorem processSyscall_refined (hin : Bounded s) (h : Represents s f) (sysnum : Int) :
    Refined Bounded (fun _ => Represents) ((processSyscall env clock sysnum).ending s)
      (.ok (Utrace.processSyscall env f sysnum) : Except Halt Focus) := by
  -- the process before the push, and the other model's state there
  let enabled : Tracee :=
    if cloneP sysnum then s.tracee
    else if s.tracee.proc.breakpointsEnabled = 0 then enableAllBreakpoints s.tracee
    else s.tracee
  let displayed : Focus :=
    if env.optS then
      { f with output := outputLeft env f.output f.thr (sysname env.syscalent0 sysnum) }
    else f
  have hdisplayed : displayed.tracee = f.tracee ∧ displayed.thr = f.thr := by
    unfold displayed
    split <;> exact ⟨rfl, rfl⟩
  let enabled' : Focus :=
    if cloneP sysnum then displayed
    else if displayed.tracee.proc.breakpointsEnabled = 0 then
      { displayed with tracee := enableAllBreakpoints displayed.tracee }
    else displayed
  have henabled : enabled'.tracee = enabled ∧ enabled'.thr = f.thr := by
    unfold enabled' enabled
    rw [hdisplayed.1, h.tracee]
    split
    · exact hdisplayed
    · split
      · exact ⟨rfl, hdisplayed.2⟩
      · exact hdisplayed
  have hrep : Represents { s with tracee := enabled } enabled' :=
    ⟨henabled.1.symm, henabled.2 ▸ h.thread⟩
  have hbounded : Bounded { s with tracee := enabled } := hin.congr rfl rfl
  change Refined _ _ (Procedure.ending (if execP sysnum then pure () else
    callstackPushSyscall env clock sysnum) { s with tracee := enabled }) (.ok
      (continueProcess (if execP sysnum then enabled' else
        { enabled' with thr := Utrace.callstackPushSyscall enabled'.thr sysnum }) _))
  split
  · exact .ok hbounded (hrep.of_eq rfl rfl)
  · obtain ⟨a, t, hending, ht, hpush⟩ := (callstackPushSyscall_refined env clock
      hbounded hrep sysnum).exists_of_ok
    rw [hending]
    exact .ok ht (hpush.of_eq rfl rfl)

/-- An exit that is neither of `fork`, of `vfork` nor of `execve`. -/
theorem processSysret_refined (hin : Bounded s) (h : Represents s f) (stop : Stop)
    {sysnum : Int} (hfork : forkP sysnum = false) (hexec : execP sysnum = false)
    (hdepth : f.thr.callstack.elems ≠ []) :
    Refined Bounded (fun _ => Represents) ((processSysret env clock stop sysnum).ending s)
      (Utrace.processSysret env f stop sysnum) := by
  obtain ⟨elem, rest, hcs⟩ := List.exists_cons_of_ne_nil hdepth
  obtain ⟨_, _, hrange⟩ := h.thread.stands.top hcs
  obtain ⟨t, ht, hbounded, halike, _⟩ :=
    takeTimeSpent_alike env clock hin hrange
  change Refined _ _ (Procedure.ending (takeTimeSpent env clock >>= _) s) _
  rw [Procedure.ending_bind_of_ok ht]
  have hcloned : Represents t (sysretClone env f stop sysnum) := by
    refine (halike.represents h).of_eq ?_ ?_ <;> (unfold sysretClone; split <;> rfl)
  have hforked : Utrace.sysretFork env f stop sysnum = .ok f := by
    rw [Utrace.sysretFork, if_neg (by simp [hfork])]
  unfold Utrace.processSysret
  rw [hforked]
  have hpop := callstackPop_refined env hbounded hcloned
  have hnofork : sysretFork env sysnum = pure () := by
    rw [sysretFork, if_neg (by simp [hfork])]
  have hpops : sysretPop env sysnum = callstackPop env := by
    rw [sysretPop, if_neg (by simp [hexec])]
  have hnoexec : sysretExec env stop sysnum = pure () := by
    rw [sysretExec, if_neg (by simp [hexec])]
  rw [hnofork, hpops, hnoexec]
  change Refined _ _ ((callstackPop env >>= fun _ => pure ()).ending t) (Except.map _
    (if execP sysnum then _ else Utrace.callstackPop env (sysretClone env f stop sysnum)))
  rw [hexec, if_neg Bool.false_ne_true]
  refine hpop.map ?_
  rintro _ u g hin' ⟨hrep, _⟩
  have hkept : ∀ g' : Focus, Utrace.sysretExec env g' stop sysnum = g' := by
    intro g'
    rw [Utrace.sysretExec, if_neg (by simp [hexec])]
  refine .ok hin' (hrep.of_eq ?_ ?_) <;> (dsimp only; rw [hkept]; split <;> rfl)

/-! ## `wait_for_something.c` -/

/-- The stop is the exit of the system call on top of the list. -/
theorem sysretP_spec (hin : Bounded s) (h : Represents s f) (stop : Stop) :
    ∃ t, (sysretP stop).ending s = (.ok (decide (f.thr.callstack.elems.head?.map
        CallstackElement.cUn = some (.syscall stop.origEax))), t) ∧ Bounded t ∧
      t.tracee = s.tracee ∧ t.thr = s.thr := by
  have hstands := h.thread.stands
  change ∃ t, Procedure.ending (if 0 < s.thr.callstackDepth then _ else _) s = _ ∧ _
  cases hcs : f.thr.callstack.elems with
  | nil =>
    have hzero : s.thr.callstackDepth = 0 := by
      rw [hstands.depth, Callstack.depth, hcs]
      rfl
    rw [if_neg (by omega)]
    exact ⟨s, rfl, hin, rfl, rfl⟩
  | cons elem rest =>
    obtain ⟨htop, hpos, hrange⟩ := hstands.top hcs
    rw [if_pos hpos]
    let read : RawFocus := { s with events := .access (s.thr.callstackDepth - 1) :: s.events }
    have hread : Bounded read := hin.accessed hrange rfl rfl
    change ∃ t, Procedure.ending (if
      (s.thr.callstack (s.thr.callstackDepth - 1)).elem.isSyscall then _ else _) read = _ ∧ _
    rw [htop, List.head?_cons, Option.map_some]
    cases hcUn : elem.cUn with
    | libfunc sym =>
      have hnot : elem.isSyscall = false := by rw [CallstackElement.isSyscall, hcUn]
      rw [hnot, if_neg Bool.false_ne_true]
      exact ⟨read, rfl, hread, rfl, rfl⟩
    | syscall sysnum =>
      have hsyscall : elem.isSyscall = true := by rw [CallstackElement.isSyscall, hcUn]
      rw [hsyscall, if_pos rfl]
      refine ⟨{ read with events := .access (s.thr.callstackDepth - 1) :: read.events }, ?_,
        hread.accessed hrange rfl rfl, rfl, rfl⟩
      change (Except.ok (decide ((s.thr.callstack (s.thr.callstackDepth - 1)).elem.cUn = _)), _) = _
      rw [htop, hcUn]
      simp only [Option.some.injEq]

/-- `syscall_p` reads the top element in range, and says what the stack says. -/
theorem syscallP_spec (hin : Bounded s) (h : Represents s f) (stop : Stop) :
    ∃ t, (syscallP stop).ending s = (.ok (Utrace.syscallP f.thr stop), t) ∧ Bounded t ∧
      t.tracee = s.tracee ∧ t.thr = s.thr := by
  unfold syscallP Utrace.syscallP
  split
  · obtain ⟨t, ht, hbounded, hsame⟩ := sysretP_spec hin h stop
    refine ⟨t, ?_, hbounded, hsame⟩
    rw [Procedure.ending_bind_of_ok ht]
    simp only [decide_eq_true_eq]
    rfl
  · exact ⟨s, rfl, hin, rfl, rfl⟩

/-- A system call is left only where the stack has one. -/
theorem elems_ne_nil_of_syscallP {thr : Thread} {stop : Stop} (h : Utrace.syscallP thr stop = 2) :
    thr.callstack.elems ≠ [] := by
  intro hnil
  have htop := syscallP_eq_two h
  rw [hnil] at htop
  cases htop

/-- What both models make of a stop: the same event, with the thread and the process in step,
and an exit only over a stack that is not empty. -/
def Classified (event : Event) (s : RawFocus) (waited : Focus × Event) : Prop :=
  event = waited.2 ∧ Represents s waited.1 ∧
    ∀ sysnum, event = .sysret sysnum → waited.1.thr.callstack.elems ≠ []

/-- The status of a stop is read alike. -/
theorem waitStatus_refined (hin : Bounded s) (h : Represents s f) (stop : Stop)
    (heip : f.eip = stop.eip) :
    Refined Bounded Classified ((waitStatus stop).ending s)
      (.ok (Utrace.waitStatus f stop) : Except Halt (Focus × Event)) := by
  unfold waitStatus Utrace.waitStatus
  cases stop.status with
  | exited retVal => exact .ok hin ⟨rfl, h, nofun⟩
  | signaled signum => exact .ok hin ⟨rfl, h, nofun⟩
  | other => exact .ok hin ⟨rfl, h, nofun⟩
  | stopped signum =>
    dsimp only
    split
    · exact .ok hin ⟨rfl, h, nofun⟩
    · obtain ⟨hstands, hip, hsp, hra, hbeing⟩ := h.thread
      rw [heip, ← hip]
      refine .ok (hin.congr rfl rfl) ⟨rfl, ⟨h.tracee, ?_, rfl, hsp, hra, hbeing⟩, nofun⟩
      exact hstands.congr rfl fun _ => rfl

/-- A system call stop is told alike. -/
theorem waitSyscall_refined (hin : Bounded s) (h : Represents s f) (stop : Stop)
    (heip : f.eip = stop.eip) :
    Refined Bounded Classified ((waitSyscall stop).ending s)
      (.ok (Utrace.waitSyscall f stop) : Except Halt (Focus × Event)) := by
  obtain ⟨t, ht, hbounded, htracee, hthr⟩ := syscallP_spec hin h stop
  have hrep : Represents t f := ⟨htracee.trans h.tracee, hthr ▸ h.thread⟩
  unfold waitSyscall Utrace.waitSyscall
  rw [Procedure.ending_bind_of_ok ht]
  have hstatus := waitStatus_refined hbounded hrep stop heip
  rcases hkind : Utrace.syscallP f.thr stop with _ | _ | _ | kind
  · exact hstatus
  · exact .ok hbounded ⟨rfl, hrep, nofun⟩
  · exact .ok hbounded ⟨rfl, hrep, fun _ _ => elems_ne_nil_of_syscallP hkind⟩
  · exact hstatus

/-- Every stop is classified alike. -/
theorem waitForSomething_refined (env : Env) (hin : Bounded s) (h : Represents s f) (stop : Stop)
    (heip : f.eip = stop.eip) :
    Refined Bounded Classified ((waitForSomething env stop).ending s)
      (.ok (Utrace.waitForSomething env f stop) : Except Halt (Focus × Event)) := by
  obtain ⟨hstands, _, hsp, hra, hbeing⟩ := h.thread
  have hcleared : ∀ ip, Records { s.thr with instructionPointer := ip }
      { f.thr with instructionPointer := ip } := fun ip =>
    ⟨hstands.congr rfl fun _ => rfl, rfl, hsp, hra, hbeing⟩
  have hwait : ∀ ip, Refined Bounded Classified
      ((waitSyscall stop).ending { s with thr := { s.thr with instructionPointer := ip } })
      (.ok (Utrace.waitSyscall { f with
        tracee := s.tracee
        thr := { f.thr with instructionPointer := ip } } stop) :
        Except Halt (Focus × Event)) := by
    intro ip
    apply waitSyscall_refined
    · exact hin.congr rfl rfl
    · exact ⟨rfl, hcleared ip⟩
    · exact heip
  unfold Utrace.waitForSomething
  dsimp only
  rw [← h.tracee, heip]
  change Refined _ _ (Procedure.ending (if s.tracee.proc.breakpointsEnabled = -1 then _ else _)
    { s with thr := { s.thr with instructionPointer := 0 } }) _
  split
  · exact .ok (hin.congr rfl rfl) ⟨rfl, ⟨rfl, hcleared 0⟩, nofun⟩
  · rw [Procedure.ending_modify_bind]
    rw [← heip]
    cases env.opti with
    | true => exact hwait f.eip
    | false => exact hwait 0

/-! ## One event -/

/-- Exits of `fork`, `vfork` and `execve` are left out. -/
def Spared (env : Env) (stop : Stop) (s : RawFocus) : Prop :=
  ∀ sysnum t, (waitForSomething env stop).ending s = (.ok (.sysret sysnum), t) →
    forkP sysnum = false ∧ execP sysnum = false

/-- Every other event does the same to the array and to the list, and stops utrace for both or
for neither. -/
theorem handle_refined (clock : Clock) (hin : Bounded s) (h : Represents s f) (stop : Stop)
    (heip : f.eip = stop.eip) (hspared : Spared env stop s) :
    Refined Bounded (fun _ t g => Records t.thr g.thr) ((handle env clock stop).ending s)
      (Utrace.handle env f stop) := by
  obtain ⟨event, t, hwait, hbounded, hevent, hrep, hexit⟩ :=
    (waitForSomething_refined env hin h stop heip).exists_of_ok
  unfold handle Utrace.handle
  rw [Procedure.ending_bind_of_ok hwait]
  dsimp only
  rw [← hevent]
  have hthread : ∀ (a : Unit) (t : RawFocus) (g : Focus), Represents t g →
      Records t.thr g.thr := fun _ _ _ hrep => hrep.thread
  cases event with
  | unknown => exact .error hbounded
  | none => exact .ok hbounded hrep.thread
  | signal signum =>
    have hthr : (processSignal env (Utrace.waitForSomething env f stop).1 signum).thr =
        (Utrace.waitForSomething env f stop).1.thr := by
      unfold processSignal
      split <;> rfl
    exact .ok hbounded (hthr ▸ hrep.thread)
  | exit retVal => exact .ok hbounded hrep.thread
  | exitSignal signum => exact .ok hbounded hrep.thread
  | syscall sysnum => exact (processSyscall_refined hbounded hrep sysnum).mono hthread
  | sysret sysnum =>
    obtain ⟨hfork, hexec⟩ := hspared sysnum t hwait
    exact (processSysret_refined hbounded hrep stop hfork hexec (hexit sysnum rfl)).mono hthread
  | breakpoint brkAddr =>
    exact (processBreakpoint_refined hbounded hrep stop brkAddr).mono hthread

end Utrace.RawStack
