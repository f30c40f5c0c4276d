import Utrace.Interpretation.Cell
import Utrace.Native.Event
import Mathlib.Logic.Function.Iterate

/-!
# Popping frames

A pop gives back the reference its frame holds, so a loop of pops acts on every cell
by as many deletions as the popped frames return to it. The loops succeed exactly on
frames whose references are all counted.
-/

namespace Utrace

/-- The references some frames hold to an address; a system call holds none. -/
def frameRefs (elems : List CallstackElement) (a : Addr) : Nat :=
  elems.countP fun elem => !elem.isSyscall && decide (elem.returnAddr = a)

/-- No frames, no references. -/
@[simp] theorem frameRefs_nil (a : Addr) : frameRefs [] a = 0 := rfl

/-- A frame refers to its return address, but for a system call. -/
theorem frameRefs_cons (elem : CallstackElement) (elems : List CallstackElement) (a : Addr) :
    frameRefs (elem :: elems) a =
      frameRefs elems a + if elem.isSyscall = false ∧ elem.returnAddr = a then 1 else 0 := by
  unfold frameRefs
  rw [List.countP_cons]
  simp

/-- The references of two parts of a stack are added up. -/
theorem frameRefs_append (elems elems' : List CallstackElement) (a : Addr) :
    frameRefs (elems ++ elems') a = frameRefs elems a + frameRefs elems' a :=
  List.countP_append

/-- Those popped and those left are all. -/
theorem frameRefs_take_add_drop (elems : List CallstackElement) (n : Nat) (a : Addr) :
    frameRefs (elems.take n) a + frameRefs (elems.drop n) a = frameRefs elems a := by
  rw [← frameRefs_append, List.take_append_drop]

namespace Cell

/-- Deletions lower the count by their number. -/
theorem count_delete_iterate (unset : Byte) (c : Cell) {k : Nat} (hk : 0 < k) :
    ((delete unset)^[k] c).count = some (c.refs - k) := by
  induction k with
  | zero => omega
  | succ k ih =>
    rw [Function.iterate_succ_apply', count_delete, refs]
    by_cases hz : k = 0
    · subst hz
      simp [refs]
    · rw [ih (by omega), Option.getD_some]
      congr 1
      omega

/-- They lower the references by their number. -/
theorem refs_delete_iterate (unset : Byte) (c : Cell) (k : Nat) :
    ((delete unset)^[k] c).refs = c.refs - k := by
  by_cases hz : k = 0
  · subst hz
    simp
  · rw [refs, count_delete_iterate unset c (by omega), Option.getD_some]

end Cell

/-- A frame that holds a reference to an address returns there. -/
theorem Callstack.returning_ne_none {cs : Callstack} {a : Addr} (h : 0 < frameRefs cs.elems a) :
    cs.returning a ≠ none := by
  obtain ⟨elem, hmem, helem⟩ := List.countP_pos_iff.mp h
  rw [Bool.and_eq_true] at helem
  rw [returning, ne_eq, List.findIdx?_eq_none_iff]
  intro hnone
  exact Bool.false_ne_true ((hnone elem hmem).symm.trans helem.2)

/-! ## The loop of pops -/

/-- Pops drop the innermost elements. -/
theorem elems_iterate_pop (cs : Callstack) (n : Nat) :
    (Callstack.pop^[n] cs).elems = cs.elems.drop n := by
  induction n with
  | zero => rfl
  | succ n ih => rw [Function.iterate_succ_apply', Callstack.elems_pop, ih, List.tail_drop]

/-- What popping `n` frames did: only the stack and the table's cells change. -/
structure Popped (env : Env) (f : Focus) (n : Nat) (f' : Focus) : Prop where
  enough : n ≤ f.thr.callstack.elems.length
  focus : f' = { f with
    tracee := f'.tracee
    thr := { f.thr with callstack := Callstack.pop^[n] f.thr.callstack } }
  header : f'.tracee.header = f.tracee.header
  counted : ∀ x, (frameRefs (f.thr.callstack.elems.take n) x : Int) ≤ (f.tracee.cell x).refs ∨
    frameRefs (f.thr.callstack.elems.take n) x = 0
  cell : ∀ x, f'.tracee.cell x =
    (Cell.delete env.unset)^[frameRefs (f.thr.callstack.elems.take n) x] (f.tracee.cell x)

/-- So the elements left after a return are told. -/
theorem Popped.elems {env : Env} {f f' : Focus} {n : Nat} (h : Popped env f n f') :
    f'.thr.callstack.elems = f.thr.callstack.elems.drop n := by
  rw [h.focus]
  exact elems_iterate_pop f.thr.callstack n

/-- Popping a system call leaves the table alone. -/
theorem callstackPop_syscall (env : Env) {f : Focus} {n : Int}
    (h : f.thr.callstack.elems.head?.map CallstackElement.cUn = some (.syscall n)) :
    callstackPop env f = .ok { f with thr := { f.thr with callstack := f.thr.callstack.pop } } := by
  unfold callstackPop
  cases helems : f.thr.callstack.elems with
  | nil => simp [helems] at h
  | cons elem rest =>
    have hcUn : elem.cUn = .syscall n := by simpa [helems] using h
    have hs : elem.isSyscall = true := by rw [CallstackElement.isSyscall, hcUn]
    simp only [hs, if_true]
    rfl

/-- A successful pop. -/
theorem callstackPop_ok {env : Env} {f f' : Focus} (h : callstackPop env f = .ok f') :
    Popped env f 1 f' := by
  unfold callstackPop at h
  split at h
  · cases h
  rename_i elem rest helems
  have hrefs : ∀ x, frameRefs (f.thr.callstack.elems.take 1) x =
      if elem.isSyscall = false ∧ elem.returnAddr = x then 1 else 0 := by
    intro x
    rw [helems, List.take_succ_cons, List.take_zero, frameRefs_cons, frameRefs_nil, Nat.zero_add]
  cases hs : elem.isSyscall with
  | true =>
    simp only [hs, if_true, Except.map, Except.ok.injEq] at h
    subst h
    refine ⟨by simp [helems], rfl, rfl, ?_, ?_⟩
    · intro x
      exact Or.inr (by simp [hrefs, hs])
    · intro x
      simp [hrefs, hs]
  | false =>
    simp only [hs, Bool.false_eq_true, if_false] at h
    cases hd : deleteBreakpoint env f.tracee elem.returnAddr with
    | error halt => simp [hd, Except.map] at h
    | ok t =>
      simp only [hd, Except.map, Except.ok.injEq] at h
      subst h
      obtain ⟨⟨n, hn, hpos⟩, hheader, hcell⟩ := deleteBreakpoint_ok hd
      refine ⟨by simp [helems], rfl, hheader, ?_, ?_⟩
      · intro x
        by_cases hx : elem.returnAddr = x
        · subst hx
          exact Or.inl (by simp [hrefs, hs, Cell.refs, hn, hpos])
        · exact Or.inr (by simp [hrefs, hx])
      · intro x
        rw [hrefs, hcell]
        by_cases hx : elem.returnAddr = x
        · subst hx
          simp [hs]
        · simp [hx, Ne.symm hx]

/-- A pop succeeds on a frame whose reference is counted. -/
theorem callstackPop_exists (env : Env) {f : Focus} {elem : CallstackElement}
    {rest : List CallstackElement} (helems : f.thr.callstack.elems = elem :: rest)
    (h : elem.isSyscall = false → 1 ≤ (f.tracee.cell elem.returnAddr).refs) :
    ∃ f', callstackPop env f = .ok f' := by
  unfold callstackPop
  rw [helems]
  cases hs : elem.isSyscall with
  | true =>
    simp only [hs, if_true, Except.map]
    exact ⟨_, rfl⟩
  | false =>
    have hrefs := h hs
    cases hc : (f.tracee.cell elem.returnAddr).count with
    | none => simp [Cell.refs, hc] at hrefs
    | some n =>
      rw [Cell.refs, hc, Option.getD_some] at hrefs
      rcases deleteBreakpoint_of_count env hc with ⟨hlow, _⟩ | ⟨_, t, ht, _⟩
      · omega
      · simp only [hs, Bool.false_eq_true, if_false, ht, Except.map]
        exact ⟨_, rfl⟩

/-- Pops add up. -/
theorem Popped.trans {env : Env} {f f₁ f₂ : Focus} {m n : Nat} (h : Popped env f m f₁)
    (h' : Popped env f₁ n f₂) : Popped env f (m + n) f₂ := by
  have htake : f.thr.callstack.elems.take (m + n) =
      f.thr.callstack.elems.take m ++ f₁.thr.callstack.elems.take n := by
    rw [h.elems, List.take_add]
  refine ⟨?_, ?_, h'.header.trans h.header, ?_, ?_⟩
  · have hm := h.enough
    have hn := h'.enough
    rw [h.elems, List.length_drop] at hn
    omega
  · rw [h'.focus, h.focus, Nat.add_comm m n, Function.iterate_add_apply]
  · intro x
    rw [htake, frameRefs_append]
    rcases h'.counted x with hc | hc
    · rw [h.cell, Cell.refs_delete_iterate] at hc
      exact Or.inl (by push_cast; omega)
    · rcases h.counted x with hc' | hc'
      · exact Or.inl (by rw [hc, Nat.add_zero]; exact hc')
      · exact Or.inr (by omega)
  · intro x
    rw [htake, frameRefs_append, Nat.add_comm, Function.iterate_add_apply, ← h.cell, h'.cell]

/-- A successful loop of pops. -/
theorem callstackPops_ok {env : Env} {f f' : Focus} {n : Nat}
    (h : callstackPops env f n = .ok f') : Popped env f n f' := by
  induction n generalizing f with
  | zero =>
    cases h
    exact ⟨Nat.zero_le _, rfl, rfl, fun x => Or.inr (by simp), fun x => by simp⟩
  | succ n ih =>
    unfold callstackPops at h
    cases hp : callstackPop env f with
    | error halt => simp [hp, Except.bind] at h
    | ok f₁ =>
      rw [hp] at h
      rw [Nat.add_comm]
      exact (callstackPop_ok hp).trans (ih h)

/-- A loop of pops succeeds when the references of the frames are all counted. -/
theorem callstackPops_exists (env : Env) {f : Focus} {n : Nat}
    (hlen : n ≤ f.thr.callstack.elems.length)
    (h : ∀ x, (frameRefs (f.thr.callstack.elems.take n) x : Int) ≤ (f.tracee.cell x).refs) :
    ∃ f', callstackPops env f n = .ok f' := by
  induction n generalizing f with
  | zero => exact ⟨f, rfl⟩
  | succ n ih =>
    cases helems : f.thr.callstack.elems with
    | nil => simp [helems] at hlen
    | cons elem rest =>
      rw [helems, List.length_cons] at hlen
      simp only [helems, List.take_succ_cons, frameRefs_cons] at h
      obtain ⟨f₁, hf₁⟩ := callstackPop_exists env helems (by
        intro hs
        have hone := h elem.returnAddr
        simp only [hs, and_self, if_true] at hone
        omega)
      have hfirst := callstackPop_ok hf₁
      have helems₁ : f₁.thr.callstack.elems = rest := by rw [hfirst.elems, helems]; rfl
      obtain ⟨f', hf'⟩ := ih (f := f₁) (by rw [helems₁]; omega) (by
        intro x
        have hx := h x
        rw [helems₁, hfirst.cell, Cell.refs_delete_iterate, helems, List.take_succ_cons,
          List.take_zero, frameRefs_cons, frameRefs_nil]
        push_cast at hx ⊢
        omega)
      exact ⟨f', by rw [callstackPops, hf₁]; exact hf'⟩

end Utrace
