import Utrace.Core.Stamps
import Utrace.Interpretation.Lines

/-!
# Frames stamped with their enter lines

The stack of a thread is annotated with what `output.c` does not remember: how long the
trace was right after the enter line of each frame was written. Every event keeps the
annotation in agreement with the one line that is open.
-/

namespace Utrace

/-! ## The annotation of one stack -/

/-- The annotation of a stack whose depth and trace have changed. A new frame is stamped
with the length of the trace, if its enter line was written. -/
def restamp (depth depth' now now' : Nat) (entered : List (Option Nat)) : List (Option Nat) :=
  if depth < depth' then (if now < now' then some now' else none) :: entered
  else entered.drop (depth - depth')

/-- What the annotation of a stack and the open line of its thread agree on. -/
structure Announced (optS : Bool) (frames : List CUn) (now : Nat) (opened : Option Nat)
    (entered : List (Option Nat)) : Prop where
  length : entered.length = frames.length
  stamped : Stamped now opened entered
  /-- The frames of system calls that are not shown have no enter line. -/
  quiet : optS = false → ∀ (n : Nat) (sysnum : Int), frames[n]? = some (.syscall sysnum) →
    entered[n]? = some none
  /-- An enter line without a frame is one whose push was dropped. -/
  left : optS = false → ∀ d, opened = some d → d < frames.length ∨ maxCalldepth - 1 ≤ d

namespace Announced

variable {optS : Bool} {frames : List CUn} {now now' : Nat} {opened : Option Nat}
  {entered : List (Option Nat)}

/-- Of the frames left, none is a system call that was shown. -/
theorem quiet_drop (h : Announced optS frames now opened entered) (hS : optS = false) (n : Nat) :
    ∀ (k : Nat) (sysnum : Int), (frames.drop n)[k]? = some (.syscall sysnum) →
      (entered.drop n)[k]? = some none := by
  intro k sysnum hk
  rw [List.getElem?_drop] at hk ⊢
  exact h.quiet hS _ _ hk

/-- The trace grew, no line is open for the thread any more, and frames were popped. -/
theorem closed (h : Announced optS frames now opened entered) (hnow : now < now') (n : Nat) :
    Announced optS (frames.drop n) now' none (entered.drop n) := by
  refine ⟨?_, ?_, fun hS => h.quiet_drop hS n, ?_⟩
  · rw [List.length_drop, List.length_drop, h.length]
  · refine Stamped.drop (h.stamped.later hnow ?_) n
    rintro d ⟨⟩
  · rintro _ d ⟨⟩

/-- An enter line whose frame is not pushed. -/
theorem dropped (h : Announced optS frames now opened entered) (hnow : now < now')
    (hfull : optS = false → maxCalldepth - 1 ≤ frames.length) :
    Announced optS frames now' (some frames.length) entered := by
  refine ⟨h.length, ?_, h.quiet, ?_⟩
  · refine h.stamped.later hnow ?_
    rintro d ⟨⟩
    exact h.length.le
  · rintro hS d ⟨⟩
    exact Or.inr (hfull hS)

/-- An enter line and its frame. -/
theorem push (h : Announced optS frames now opened entered) (hnow : now < now') (cUn : CUn)
    (hshown : optS = false → ∀ sysnum, cUn ≠ .syscall sysnum) :
    Announced optS (cUn :: frames) now' (some frames.length) (some now' :: entered) := by
  refine ⟨?_, ?_, ?_, ?_⟩
  · rw [List.length_cons, List.length_cons, h.length]
  · rw [← h.length]
    refine Stamped.push (h.stamped.later hnow ?_)
    rintro d ⟨⟩
    exact le_rfl
  · intro hS n sysnum hn
    cases n with
    | zero => exact (hshown hS sysnum (by simpa using hn)).elim
    | succ n =>
      rw [List.getElem?_cons_succ] at hn ⊢
      exact h.quiet hS n sysnum hn
  · rintro _ d ⟨⟩
    exact Or.inl (Nat.lt_succ_self _)

/-- The frame of a system call that is not shown. -/
theorem silent (h : Announced false frames now opened entered)
    (hroom : frames.length < maxCalldepth - 1) (sysnum : Int) :
    Announced false (.syscall sysnum :: frames) now opened (none :: entered) := by
  refine ⟨?_, ?_, ?_, ?_⟩
  · rw [List.length_cons, List.length_cons, h.length]
  · refine h.stamped.silent fun hopened => ?_
    rw [h.length] at hopened
    have hleft := h.left rfl _ hopened
    omega
  · intro hS n m hn
    cases n with
    | zero => rfl
    | succ n =>
      rw [List.getElem?_cons_succ] at hn ⊢
      exact h.quiet hS n m hn
  · intro hS d hd
    rw [List.length_cons]
    have hleft := h.left hS d hd
    omega

/-- The frame of a system call that is not shown is popped. -/
theorem silentPop {sysnum : Int} {rest : List CUn}
    (h : Announced false (.syscall sysnum :: rest) now opened entered) :
    Announced false rest now opened (entered.drop 1) := by
  have hlen := h.length
  rw [List.length_cons] at hlen
  refine ⟨?_, h.stamped.drop 1, fun hS => h.quiet_drop hS 1, ?_⟩
  · rw [List.length_drop, hlen, Nat.add_sub_cancel]
  · intro hS d hd
    have hstamp := h.stamped.getElem?_iff (n := 0) (by omega)
    rw [h.quiet hS 0 sysnum rfl, hd, hlen] at hstamp
    have hne : d ≠ rest.length := by
      rintro rfl
      exact absurd (hstamp.mpr (by simp)) (by simp)
    have hleft := h.left hS d hd
    rw [List.length_cons] at hleft
    omega

end Announced

/-! ## One event -/

/-- The tags and payloads of the frames. -/
def Callstack.frames (cs : Callstack) : List CUn := cs.elems.map CallstackElement.cUn

/-- The frames are as many as the depth. -/
theorem Callstack.length_frames (cs : Callstack) : cs.frames.length = cs.depth :=
  List.length_map ..

/-- The annotation agrees with the stack of the thread and with the trace. -/
def Focus.Announced (env : Env) (f : Focus) (entered : List (Option Nat)) : Prop :=
  Utrace.Announced env.optS f.thr.callstack.frames f.output.records.length
    (f.output.openAt f.thr.tid) entered

/-- The annotation after an event. -/
def Focus.restamp (f f' : Focus) (entered : List (Option Nat)) : List (Option Nat) :=
  Utrace.restamp f.thr.callstack.depth f'.thr.callstack.depth f.output.records.length
    f'.output.records.length entered

/-- Pops drop the stamps of their frames. -/
theorem Focus.restamp_pops {f f' : Focus} {n : Nat}
    (hdepth : f'.thr.callstack.depth = f.thr.callstack.depth - n)
    (hn : n ≤ f.thr.callstack.depth) (entered : List (Option Nat)) :
    f.restamp f' entered = entered.drop n := by
  rw [Focus.restamp, Utrace.restamp, if_neg (by omega), hdepth]
  congr 1
  omega

namespace Focus.Announced

variable {env : Env} {f f' : Focus} {entered : List (Option Nat)}

/-- An event that leaves the trace and the stack alone. -/
theorem same (h : f.Announced env entered) (hout : f'.output = f.output)
    (htid : f'.thr.tid = f.thr.tid) (hcs : f'.thr.callstack = f.thr.callstack) :
    f'.Announced env (f.restamp f' entered) := by
  rw [Focus.restamp_pops (n := 0) (by rw [hcs]; rfl) (Nat.zero_le _), List.drop_zero]
  unfold Focus.Announced
  rw [hout, htid, hcs]
  exact h

/-- A line or a result, after which no line is open. -/
theorem closed (h : f.Announced env entered) (hne : f'.thr.tid ≠ 0)
    (hlonger : f.output.records.length < f'.output.records.length)
    (hpid : f'.output.currentPid = 0) {n : Nat} (hn : n ≤ f.thr.callstack.depth)
    (hframes : f'.thr.callstack.frames = f.thr.callstack.frames.drop n) :
    f'.Announced env (f.restamp f' entered) := by
  have hdepth : f'.thr.callstack.depth = f.thr.callstack.depth - n := by
    rw [← Callstack.length_frames, hframes, List.length_drop, Callstack.length_frames]
  rw [Focus.restamp_pops hdepth hn]
  unfold Focus.Announced
  rw [hframes, Output.openAt_of_ne (by rw [hpid]; exact hne.symm)]
  exact Utrace.Announced.closed h hlonger n

/-- An enter line, after which the frame is pushed unless the stack is full, or after which
none is pushed. -/
theorem enter (hc : env.optc = false) (h : f.Announced env entered) {thr : Thread} {name : String}
    (hthr : thr.tid = f.thr.tid) (hcallstack : thr.callstack = f.thr.callstack)
    (htid : f'.thr.tid = f.thr.tid) (hout : f'.output = outputLeft env f.output thr name)
    (elem : CallstackElement) (hshown : env.optS = false → ∀ n, elem.cUn ≠ .syscall n)
    (hcs : f'.thr.callstack = f.thr.callstack.push elem ∨
      f'.thr.callstack = f.thr.callstack ∧ env.optS = true) :
    f'.Announced env (f.restamp f' entered) := by
  rw [outputLeft_eq hc, hthr, hcallstack] at hout
  have hlonger : f.output.records.length < f'.output.records.length := by
    rw [hout, List.length_cons]
    exact Nat.lt_succ_of_le (length_records_close f.output)
  have hopen : f'.output.openAt f'.thr.tid = some f.thr.callstack.frames.length := by
    rw [htid, Callstack.length_frames, Output.openAt_eq_some, hout]
    exact ⟨rfl, rfl⟩
  have hstays : f'.thr.callstack = f.thr.callstack →
      (env.optS = false → maxCalldepth - 1 ≤ f.thr.callstack.depth) →
      f'.Announced env (f.restamp f' entered) := by
    intro hcs hfull
    rw [Focus.restamp_pops (n := 0) (by rw [hcs]; rfl) (Nat.zero_le _), List.drop_zero]
    unfold Focus.Announced
    rw [hopen, hcs]
    refine Utrace.Announced.dropped h hlonger ?_
    rw [Callstack.length_frames]
    exact hfull
  rcases hcs with hcs | ⟨hcs, hS⟩
  · rcases f.thr.callstack.push_cases elem with ⟨hfull, hpush⟩ | ⟨hroom, hpush⟩
    · exact hstays (hcs.trans hpush) fun _ => hfull.ge
    · have hframes : f'.thr.callstack.frames = elem.cUn :: f.thr.callstack.frames := by
        rw [hcs, Callstack.frames, hpush, List.map_cons]
        rfl
      have hstamp : f.restamp f' entered = some f'.output.records.length :: entered := by
        rw [Focus.restamp, Utrace.restamp, if_pos, if_pos hlonger]
        rw [hcs, Callstack.depth, Callstack.depth, hpush, List.length_cons]
        exact Nat.lt_succ_self _
      rw [hstamp]
      unfold Focus.Announced
      rw [hopen, hframes]
      exact Utrace.Announced.push h hlonger elem.cUn hshown
  · exact hstays hcs fun hS' => by rw [hS] at hS'; cases hS'

/-- The frame of a system call that is not shown, pushed unless the stack is full. -/
theorem silent (hS : env.optS = false) (h : f.Announced env entered)
    (htid : f'.thr.tid = f.thr.tid) (hout : f'.output = f.output) {n : Int}
    (hcs : f'.thr.callstack = f.thr.callstack.push ⟨.syscall n, 0⟩) :
    f'.Announced env (f.restamp f' entered) := by
  rcases f.thr.callstack.push_cases ⟨.syscall n, 0⟩ with ⟨_, hpush⟩ | ⟨hroom, hpush⟩
  · exact h.same hout htid (hcs.trans hpush)
  · have hframes : f'.thr.callstack.frames = .syscall n :: f.thr.callstack.frames := by
      rw [hcs, Callstack.frames, hpush, List.map_cons]
      rfl
    have hstamp : f.restamp f' entered = none :: entered := by
      rw [Focus.restamp, Utrace.restamp, if_pos, if_neg (by rw [hout]; exact lt_irrefl _)]
      rw [hcs, Callstack.depth, Callstack.depth, hpush, List.length_cons]
      exact Nat.lt_succ_self _
    rw [hstamp]
    unfold Focus.Announced at h ⊢
    rw [hframes, hout, htid]
    rw [hS] at h ⊢
    refine Utrace.Announced.silent h ?_ n
    rw [Callstack.length_frames]
    exact hroom

end Focus.Announced

/-- A diagnosis adds a record. -/
theorem length_outputLine {env : Env} (hc : env.optc = false) (o : Output) (thr : Thread)
    (diag : Diag) : o.records.length < (outputLine env o thr diag).records.length := by
  rw [outputLine_eq hc]
  exact Nat.lt_succ_of_le (length_records_close o)

/-- A returned call adds a record. -/
theorem length_outputRight {env : Env} (hc : env.optc = false) (o : Output) {thr : Thread}
    (htid : thr.tid ≠ 0) (name : String) :
    o.records.length < (outputRight env o thr name).records.length := by
  rw [records_outputRight hc o thr htid]
  split
  · exact Nat.lt_succ_self _
  · exact Nat.lt_succ_of_le (length_records_close o)

/-- A diagnosis leaves no line open. -/
theorem currentPid_outputLine {env : Env} (hc : env.optc = false) (o : Output) (thr : Thread)
    (diag : Diag) : (outputLine env o thr diag).currentPid = 0 := by
  rw [outputLine_eq hc]
  exact currentPid_close o

/-- A hit keeps every open line announced. -/
theorem Hit.announced {env : Env} (hc : env.optc = false) {f f' : Focus} {stop : Stop}
    {brk : Addr} (h : Hit env f stop brk f') (htid : f'.thr.tid = f.thr.tid)
    (hne : f.thr.tid ≠ 0) {entered : List (Option Nat)} (hf : f.Announced env entered) :
    f'.Announced env (f.restamp f' entered) := by
  have hne' : f'.thr.tid ≠ 0 := htid ▸ hne
  cases h with
  | rearm _ _ _ hcs _ ho => exact hf.same ho htid hcs
  | ret n sym _ hreturning _ hcs _ _ _ ho =>
    obtain ⟨thr, ho, ht, _⟩ := ho
    refine hf.closed (n := n + 1) hne' ?_ ?_ (Callstack.returning_lt hreturning) ?_
    · rw [ho]
      exact length_outputRight hc f.output (ht ▸ hne) sym.name
    · rw [ho, currentPid_outputRight hc]
    · rw [hcs, Callstack.frames, elems_iterate_pop, List.map_drop]
      rfl
  | entry sym _ _ _ hcs _ _ ho =>
    obtain ⟨thr, ho, ht, hthr⟩ := ho
    refine hf.enter hc ht hthr htid ho ⟨.libfunc sym, stop.stackTop⟩ (fun _ n hn => ?_) (Or.inl hcs)
    cases hn
  | stray _ _ _ _ hcs _ ho =>
    refine hf.closed (n := 0) hne' ?_ ?_ (Nat.zero_le _) (by rw [hcs]; rfl)
    · rw [ho]
      exact length_outputLine hc f.output f.thr _
    · rw [ho, currentPid_outputLine hc]

/-- An event keeps the annotation of its thread. -/
theorem Effect.announced {env : Env} (hc : env.optc = false) {f f' : Focus} {stop : Stop}
    (h : Effect env f stop f') (hpushed : f.thr.callstack.Pushed)
    (htid : f'.thr.tid = f.thr.tid) (hne : f.thr.tid ≠ 0) {entered : List (Option Nat)}
    (hf : f.Announced env entered) : f'.Announced env (f.restamp f' entered) := by
  have hne' : f'.thr.tid ≠ 0 := htid ▸ hne
  cases h with
  | first _ _ hcs _ ho => exact hf.same ho htid hcs
  | detach _ _ hcs _ ho => exact hf.same ho htid hcs
  | line diag _ _ hcs _ ho =>
    refine hf.closed (n := 0) hne' ?_ ?_ (Nat.zero_le _) (by rw [hcs]; rfl)
    · rw [ho]
      exact length_outputLine hc f.output f.thr diag
    · rw [ho, currentPid_outputLine hc]
  | syscall n _ _ _ hcs _ ho =>
    cases hS : env.optS with
    | true =>
      rw [hS, if_pos rfl] at ho
      refine hf.enter hc rfl rfl htid ho ⟨.syscall n, 0⟩ (fun hS' => ?_) ?_
      · rw [hS] at hS'
        cases hS'
      · cases hexec : execP n with
        | true => exact Or.inr ⟨by rw [hcs, if_pos hexec], hS⟩
        | false => exact Or.inl (by rw [hcs, if_neg (by rw [hexec]; decide)])
    | false =>
      rw [hS, if_neg (by decide)] at ho
      cases hexec : execP n with
      | true => exact hf.same ho htid (by rw [hcs, if_pos hexec])
      | false => exact hf.silent hS htid ho (by rw [hcs, if_neg (by rw [hexec]; decide)])
  | sysret n elem rest _ hframes hsys _ _ _ _ hcUn _ ho =>
    obtain ⟨thr, ho, ht, _⟩ := ho
    have hshape : f.thr.callstack.frames = .syscall n :: f'.thr.callstack.frames := by
      rw [Callstack.frames, Callstack.frames, hcUn, hframes, List.map_cons, hsys]
    have hpos : 1 ≤ f.thr.callstack.depth := by
      rw [← Callstack.length_frames, hshape, List.length_cons]
      omega
    cases hS : env.optS with
    | true =>
      rw [hS, if_pos rfl] at ho
      refine hf.closed (n := 1) hne' ?_ ?_ hpos (by rw [hshape]; rfl)
      · rw [ho]
        exact length_outputRight hc f.output (ht ▸ hne) _
      · rw [ho, currentPid_outputRight hc]
    | false =>
      rw [hS, if_neg (by decide)] at ho
      have hdepth : f'.thr.callstack.depth = f.thr.callstack.depth - 1 := by
        rw [← Callstack.length_frames, ← Callstack.length_frames, hshape, List.length_cons,
          Nat.add_sub_cancel]
      rw [Focus.restamp_pops hdepth hpos]
      unfold Focus.Announced at hf ⊢
      rw [ho, htid]
      rw [hshape, hS] at hf
      rw [hS]
      exact hf.silentPop
  | exec n hexec hsys => exact (hpushed.not_exec hexec hsys).elim
  | breakpoint _ hit => exact hit.announced hc htid hne hf

/-- An event of another thread keeps the annotation. -/
theorem Written.announced_of_ne {env : Env} (hc : env.optc = false) {f f' g : Focus}
    (g' : Focus) {n : Option Nat} (h : Written env f f' n) (hne : f.thr.tid ≠ 0)
    (hg : g.thr.tid ≠ 0) (htid : f.thr.tid ≠ g.thr.tid) (hout : g.output = f.output)
    (hthr : g'.thr = g.thr) (hout' : g'.output = f'.output) {entered : List (Option Nat)}
    (ha : g.Announced env entered) : g'.Announced env entered := by
  have hlater : f.output.records.length < f'.output.records.length →
      f'.output.currentPid ≠ g.thr.tid → g'.Announced env entered := by
    intro hlonger hpid
    unfold Focus.Announced at ha ⊢
    rw [hthr, hout', Output.openAt_of_ne hpid]
    rw [hout] at ha
    exact ha.closed hlonger 0
  cases h with
  | same ho =>
    unfold Focus.Announced at ha ⊢
    rw [hthr, hout', ho, ← hout]
    exact ha
  | line diag ho =>
    apply hlater
    · rw [ho]
      exact length_outputLine hc f.output f.thr diag
    · rw [ho, currentPid_outputLine hc]
      exact hg.symm
  | left thr name ht _ ho =>
    rw [outputLeft_eq hc] at ho
    apply hlater
    · rw [ho, List.length_cons]
      exact Nat.lt_succ_of_le (length_records_close f.output)
    · rw [ho]
      change thr.tid ≠ g.thr.tid
      rw [ht]
      exact htid
  | right n thr name ht _ _ _ ho =>
    apply hlater
    · rw [ho]
      exact length_outputRight hc f.output (ht ▸ hne) name
    · rw [ho, currentPid_outputRight hc]
      exact hg.symm

end Utrace
