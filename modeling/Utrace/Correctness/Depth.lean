import Utrace.Core.Latest
import Utrace.Core.Run
import Utrace.Interpretation.RawStack
import Utrace.Native.Console

/-!
# The bounds of the call stack

A thread is followed through its events while the others change the process as they like. A
push is dropped at the limit and a pop needs an element, so the depth and every index of the
stack stay in range, also in an event that stops utrace. A thread that takes over the slot of
another one finds its stack there, and the run goes on. The buffer of `add_prefix_space` is only
long enough because of that bound.
-/

namespace Utrace.RawStack

/-! ## Runs of one thread -/

/-- A thread and its process, and how utrace stopped if it did. -/
structure RawState where
  focus : RawFocus
  halted : Option Halt := none

/-- What can happen while one thread is followed. -/
inductive RawInput where
  /-- An event of the thread, and what `gettimeofday` answers then. -/
  | own (stop : Stop) (time : Timeval)
  /-- Anything the other threads do to the process. -/
  | others (tracee : Tracee)

namespace RawState

/-- One event of the thread. What was done before utrace stopped is kept. -/
def event (env : Env) (clock : Clock) (s : RawState) (stop : Stop) : RawState :=
  match (handle env clock stop).ending s.focus with
  | (.ok _, focus) => ⟨focus, none⟩
  | (.error halt, focus) => ⟨focus, some halt⟩

/-- One step. -/
def step (env : Env) (optT : Bool) (s : RawState) : RawInput → Option RawState
  | .own stop time => if s.halted.isSome then none else some (s.event env ⟨optT, time⟩ stop)
  | .others tracee => some { s with focus := { s.focus with tracee := tracee } }

/-- The exit stop of a `fork`, `vfork` or `execve`. -/
def forkOrExecExit (env : Env) (s : RawState) : RawInput → Bool
  | .own stop _ =>
    match ((waitForSomething env stop).ending s.focus).1 with
    | .ok (.sysret sysnum) => forkP sysnum || execP sysnum
    | _ => false
  | .others _ => false

variable {env : Env} {s u : RawState}

/-- An event that is no exit of `fork`, `vfork` or `execve` is not left out. -/
theorem spared_of_forkOrExecExit {stop : Stop} {time : Timeval}
    (h : s.forkOrExecExit env (.own stop time) = false) : Spared env stop s.focus := by
  intro sysnum t ht
  rw [forkOrExecExit, ht] at h
  exact Bool.or_eq_false_iff.mp h

end RawState

/-- In range, an array is the list of the other model. -/
theorem exists_represents {s : RawFocus} (h : Bounded s) (eip : Addr) :
    ∃ f : Focus, Represents s f ∧ f.eip = eip := by
  have hdepth : (s.thr.callstackDepth.toNat : Int) = s.thr.callstackDepth :=
    Int.toNat_of_nonneg h.depth.1
  have hlength := length_stacked s.thr.callstack s.thr.callstackDepth.toNat
  have hbound : (stacked s.thr.callstack s.thr.callstackDepth.toNat).length ≤
      maxCalldepth - 1 := by
    rw [hlength, ← Int.ofNat_le, hdepth]
    exact h.depth.2
  let cs : Callstack := ⟨_, hbound⟩
  have hcs : cs.depth = s.thr.callstackDepth.toNat := hlength
  refine ⟨{ tracee := s.tracee
            thr := {
              callstack := cs
              instructionPointer := s.thr.instructionPointer
              stackPointer := s.thr.stackPointer
              returnAddr := s.thr.returnAddr
              breakpointBeingEnabled := s.thr.breakpointBeingEnabled }
            output := {}
            eip := eip }, ⟨rfl, ⟨?_, ?_⟩, rfl, rfl, rfl, rfl⟩, rfl⟩
  · rw [hcs, hdepth]
  · rw [hcs]

/-- One step keeps everything in range. -/
theorem Bounded.step {env : Env} {optT : Bool} {s u : RawState} {input : RawInput}
    (h : Bounded s.focus) (hspared : s.forkOrExecExit env input = false)
    (hs : s.step env optT input = some u) : Bounded u.focus := by
  cases input with
  | others tracee =>
    cases hs
    exact h.congr rfl rfl
  | own stop time =>
    simp only [RawState.step] at hs
    split at hs
    · cases hs
    · obtain ⟨f, hrep, heip⟩ := exists_represents h stop.eip
      have hinv := (handle_refined ⟨optT, time⟩ h hrep stop heip
        (RawState.spared_of_forkOrExecExit hspared)).inv
      cases hs
      unfold RawState.event
      split
      · rename_i hending
        rw [hending] at hinv
        exact hinv
      · rename_i hending
        rw [hending] at hinv
        exact hinv

/-! ## The buffer of `add_prefix_space` -/

/-- Two digits are enough for every depth. -/
theorem length_padded_depth {depth : Nat} (h : depth < maxCalldepth) :
    (padded ' ' 2 (signed depth)).length = 2 := by
  have hdigits : (Nat.toDigits 10 depth).length ≤ 2 := by
    rw [Nat.length_toDigits_le_iff (by omega) (by omega)]
    exact h
  have hsigned : signed depth = Nat.toDigits 10 depth := by
    rw [signed, if_neg (by omega), Int.natAbs_natCast]
  rw [padded, List.length_append, List.length_replicate, hsigned]
  omega

/-- What `add_prefix_space` writes behind the blanks. -/
def prefixText (depth : Nat) (isLeft : Bool) : List Char :=
  (if isLeft then '+' else '-') :: '[' :: padded ' ' 2 (signed depth) ++ [']']

/-- The prefix is five characters wide at every depth reached. -/
theorem length_prefixText {depth : Nat} (h : depth < maxCalldepth) (isLeft : Bool) :
    (prefixText depth isLeft).length = 5 := by
  rw [prefixText, List.length_append, List.length_cons, List.length_cons, length_padded_depth h]
  rfl

/-- Below the limit the number starts at the column of its depth. -/
theorem prefixStores_eq {depth : Nat} (h : depth < maxCalldepth) (isLeft : Bool) :
    prefixStores depth isLeft =
      (List.range (maxCalldepth + 2 + 2 + 2)).map (fun k : Nat => ((k : Int), ' ')) ++
        (prefixText depth isLeft ++ ['\x00']).zipIdx.map fun c : Char × Nat =>
          ((depth : Int) + c.2, c.1) := by
  rw [prefixStores, if_neg (by omega), prefixText, List.append_assoc]
  rfl

/-- Every store is inside the buffer. -/
theorem prefixStores_within {depth : Int} (h : InRange depth) (isLeft : Bool) :
    ∀ store ∈ prefixStores depth isLeft, 0 ≤ store.1 ∧ store.1 < maxCalldepth + 6 := by
  obtain ⟨n, rfl⟩ := Int.eq_ofNat_of_zero_le h.1
  have hn : n < maxCalldepth := by
    have hle := h.2
    omega
  rw [prefixStores_eq hn]
  intro store hstore
  rcases List.mem_append.mp hstore with hblank | htext
  · obtain ⟨k, hk, rfl⟩ := List.mem_map.mp hblank
    have hlt := List.mem_range.mp hk
    dsimp only
    omega
  · obtain ⟨⟨c, k⟩, hk, rfl⟩ := List.mem_map.mp htext
    have hlt := (List.mem_zipIdx hk).2.1
    rw [List.length_append, length_prefixText hn, List.length_singleton] at hlt
    dsimp only
    omega

/-- What is found where characters were stored one behind the other. -/
theorem latest_zipIdx (text : List Char) (i : Int) (k : Nat) :
    (latest (fun store : Int × Char => store.1 = i + k)
      (text.zipIdx.map fun c : Char × Nat => (i + c.2, c.1))).map Prod.snd = text[k]? := by
  induction text using List.reverseRecOn with
  | nil => rfl
  | append_singleton text c ih =>
    have hlast : ((text ++ [c]).zipIdx.map fun c : Char × Nat => (i + c.2, c.1)) =
        (text.zipIdx.map fun c : Char × Nat => (i + c.2, c.1)) ++ [(i + text.length, c)] := by
      rw [List.zipIdx_append, List.map_append, Nat.zero_add]
      rfl
    rw [hlast, latest_append]
    by_cases hk : k = text.length
    · subst hk
      rw [List.getElem?_concat_length]
      simp [latest]
    · have hne : ¬i + (text.length : Int) = i + k := by omega
      have hnone : latest (fun store : Int × Char => store.1 = i + k) [(i + text.length, c)] =
          none := by
        simp [latest, hne]
      rw [hnone, Option.none_or, ih]
      rcases Nat.lt_or_gt_of_ne hk with hlt | hgt
      · rw [List.getElem?_append_left hlt]
      · rw [List.getElem?_eq_none (by omega), List.getElem?_eq_none (by simp; omega)]

/-- `memset` stores one character behind the other too. -/
theorem latest_blanks {n k : Nat} (h : k < n) :
    (latest (fun store : Int × Char => store.1 = k)
      ((List.range n).map fun k : Nat => ((k : Int), ' '))).map Prod.snd = some ' ' := by
  have hblanks : ((List.range n).map fun k : Nat => ((k : Int), ' ')) =
      (List.replicate n ' ').zipIdx.map fun c : Char × Nat => ((0 : Int) + c.2, c.1) := by
    apply List.ext_getElem
    · simp
    · simp
  have hlatest := latest_zipIdx (List.replicate n ' ') 0 k
  rw [← hblanks, Int.zero_add, List.getElem?_replicate_of_lt h] at hlatest
  exact hlatest

/-- The string left in the buffer is what is printed: the blanks of the depth, then the number. -/
theorem prefixStores_text {depth : Nat} (h : depth < maxCalldepth) (isLeft : Bool)
    (currentPid : Pid) :
    ∃ spaces, Console.addPrefixSpace currentPid depth isLeft =
        fprintf ('[' :: padded ' ' 5 (signed currentPid) ++ "] ".toList ++ spaces) ∧
      ∀ k ≤ spaces.length,
        (latest (fun store : Int × Char => store.1 = k) (prefixStores depth isLeft)).map Prod.snd =
          (spaces ++ ['\x00'])[k]? := by
  refine ⟨List.replicate depth ' ' ++ prefixText depth isLeft, ?_, fun k hk => ?_⟩
  · rw [Console.addPrefixSpace, Nat.min_eq_left h.le, prefixText,
      ← List.append_assoc (List.replicate depth ' ')]
  · rw [List.length_append, List.length_replicate, length_prefixText h] at hk
    rw [prefixStores_eq h, latest_append, List.append_assoc]
    rcases Nat.lt_or_ge k depth with hlt | hge
    · -- only the blanks reach there
      have hnone : latest (fun store : Int × Char => store.1 = k)
          ((prefixText depth isLeft ++ ['\x00']).zipIdx.map fun c : Char × Nat =>
            ((depth : Int) + c.2, c.1)) = none := by
        unfold latest
        rw [List.find?_eq_none]
        intro store hstore hk
        obtain ⟨c, _, rfl⟩ := List.mem_map.mp (List.mem_reverse.mp hstore)
        have hindex : (depth : Int) + c.2 = k := of_decide_eq_true hk
        omega
      rw [hnone, Option.none_or, latest_blanks (by omega),
        List.getElem?_append_left (by rw [List.length_replicate]; exact hlt),
        List.getElem?_replicate_of_lt hlt]
    · obtain ⟨j, rfl⟩ := Nat.exists_eq_add_of_le hge
      have htext := latest_zipIdx (prefixText depth isLeft ++ ['\x00']) depth j
      have hj : j < (prefixText depth isLeft ++ ['\x00']).length := by
        rw [List.length_append, length_prefixText h, List.length_singleton]
        omega
      rw [List.getElem?_append_right (by rw [List.length_replicate]; exact hge),
        List.length_replicate, Nat.add_sub_cancel_left, Nat.cast_add]
      rw [List.getElem?_eq_getElem hj] at htext ⊢
      obtain ⟨store, hstore, hc⟩ := Option.map_eq_some_iff.mp htext
      rw [hstore, Option.some_or, Option.map_some, hc]

/-! ## The result -/

/-- For every run of the events of a thread but for the exits of `fork`, `vfork` and `execve`,
whatever the others do in between: the depth is in range whenever it is set and after every
event, also one that stops utrace, and so is every index of `callstack[]`. For every depth in
range `add_prefix_space` stores inside its buffer only. -/
theorem call_depth_in_range (env : Env) (optT : Bool) (tracee : Tracee) {thr : RawThread}
    {inputs : List RawInput} {s : RawState} (hfresh : thr.callstackDepth = 0)
    (hrun : Run (RawState.step env optT) (fun t input => t.forkOrExecExit env input = false)
      ⟨{ tracee := tracee, thr := thr }, none⟩ inputs s) :
    (0 ≤ s.focus.thr.callstackDepth ∧ s.focus.thr.callstackDepth ≤ maxCalldepth - 1) ∧
      (∀ d : Int, .depth d ∈ s.focus.events → 0 ≤ d ∧ d ≤ maxCalldepth - 1) ∧
      (∀ i : Int, .access i ∈ s.focus.events → 0 ≤ i ∧ i ≤ maxCalldepth - 1) ∧
      ∀ depth : Int, 0 ≤ depth ∧ depth ≤ maxCalldepth - 1 → ∀ isLeft,
        ∀ store ∈ prefixStores depth isLeft, 0 ≤ store.1 ∧ store.1 < maxCalldepth + 6 := by
  have hstart : InRange thr.callstackDepth := by
    rw [hfresh]
    exact ⟨le_rfl, by decide⟩
  have hbounded : Bounded s.focus :=
    hrun.invariant (P := fun s => Bounded s.focus) ⟨hstart, List.forall_mem_nil _⟩
      fun _ _ _ ht hspared hs => ht.step hspared hs
  exact ⟨hbounded.depth, fun d hd => hbounded.events _ hd, fun i hi => hbounded.events _ hi,
    fun depth hdepth isLeft => prefixStores_within hdepth isLeft⟩

/-- A system call is entered and left. -/
theorem call_depth_in_range_exit :
    ∃ s, Run (RawState.step {} true) (fun t input => t.forkOrExecExit {} input = false)
        ⟨{ tracee := ⟨{ breakpointsEnabled := 1 }, fun _ => 0x90⟩
           thr := { callstack := fun _ => ⟨⟨.libfunc ⟨"", 0⟩, 0⟩, ⟨0, 0⟩⟩ } }, none⟩
        [.own { status := .stopped sigtrap, origEax := 4 } ⟨1, 0⟩,
          .own { status := .stopped sigtrap, origEax := 4 } ⟨2, 0⟩] s ∧
      s.focus.events.length = 8 ∧ 0 ≤ s.focus.thr.callstackDepth := by
  have hallowed : ∀ (t : RawState) (input : RawInput), (!t.forkOrExecExit {} input) = true →
      t.forkOrExecExit {} input = false := by
    intro t input h
    rwa [Bool.not_eq_true'] at h
  have hobs : (runInputs (RawState.step {} true) (fun t input => !t.forkOrExecExit {} input)
        ⟨{ tracee := ⟨{ breakpointsEnabled := 1 }, fun _ => 0x90⟩
           thr := { callstack := fun _ => ⟨⟨.libfunc ⟨"", 0⟩, 0⟩, ⟨0, 0⟩⟩ } }, none⟩
        [.own { status := .stopped sigtrap, origEax := 4 } ⟨1, 0⟩,
          .own { status := .stopped sigtrap, origEax := 4 } ⟨2, 0⟩]).any
      (fun s => s.focus.events.length == 8) = true := by
    decide +kernel
  obtain ⟨s, hrun, hs⟩ := exists_run_of_observe hallowed hobs
  exact ⟨s, hrun, beq_iff_eq.mp hs, (call_depth_in_range {} true _ rfl hrun).1.1⟩

end Utrace.RawStack
