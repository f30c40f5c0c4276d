import Utrace.Correctness.ThreadExit
import Utrace.Interpretation.Attached

/-!
# The end of utrace

Where utrace ends by itself, `normal_exit` closes the open line and touches no process. A
planted trap stays behind in every attached process.
-/

namespace Utrace

/-! ## What a turn does to the records -/

/-- `open_pid` adds at most one record, for a process just opened. -/
theorem openPid_ok {env : Env} {tr tr' : Tracer} {w : Wait} {pid : Pid}
    (h : openPid env tr w pid = .ok tr') :
    tr' = tr ∨ ∃ filename table, ThreadTable.zeroed.Registers table ∧
      tr' = tr.add (openTracee env filename pid w.childMem) table := by
  unfold openPid at h
  by_cases hattaches : w.attaches = true
  · rw [if_pos hattaches] at h
    cases hname : env.pid2name pid with
    | none =>
      rw [hname] at h
      exact Or.inl (Except.ok.inj h).symm
    | some filename =>
      rw [hname] at h
      cases hreg : regTid .zeroed pid with
      | error halt => simp [hreg, Except.map] at h
      | ok r =>
        simp only [hreg, Except.map, Except.ok.injEq] at h
        exact Or.inr ⟨filename, r.1, ThreadTable.registers_regTid hreg, h.symm⟩
  · rw [if_neg hattaches] at h
    exact Or.inl (Except.ok.inj h).symm

/-- The calls of one event add at most one record, for a child, and register at most one thread. -/
theorem makeCalls_ok {env : Env} {w : Wait} {f f' : Focus} (honce : f.CallsOnce f')
    (hnone : f.calls = []) {tr : Tracer} {table : ThreadTable} {s : Tracer × ThreadTable}
    (h : makeCalls env w f'.calls (tr, table) = .ok s) :
    table.Registers s.2 ∧ (s.1 = tr ∨ ∃ filename child table', 0 < child ∧
      ThreadTable.zeroed.Registers table' ∧
        s.1 = tr.add (openTracee env filename child w.childMem) table') := by
  rcases honce with hsame | ⟨call, hcall, hchild⟩
  · rw [hsame, hnone] at h
    cases h
    exact ⟨.refl table, Or.inl rfl⟩
  · rw [hcall, hnone] at h
    cases call with
    | openPid child =>
      cases hopen : openPid env tr w child with
      | error halt => simp [makeCalls, hopen, Except.bind] at h
      | ok tr' =>
        simp only [makeCalls, hopen, Except.bind, Except.ok.injEq] at h
        subst h
        refine ⟨.refl table, ?_⟩
        rcases openPid_ok hopen with rfl | ⟨filename, table', hreg, rfl⟩
        · exact Or.inl rfl
        · exact Or.inr ⟨filename, child, table', hchild child rfl, hreg, rfl⟩
    | regTid child =>
      cases hreg : regTid table child with
      | error halt => simp [makeCalls, hreg, Except.bind] at h
      | ok r =>
        simp only [makeCalls, hreg, Except.bind, Except.ok.injEq] at h
        subst h
        exact ⟨ThreadTable.registers_regTid hreg, Or.inl rfl⟩

namespace Session

variable {env : Env} {image : Nat → Addr → Byte} {text : Nat → Set Addr} {σ σ' : Session}

/-- The processes write none of their own text, and begin with a pid and the bytes of `image`. Once
the breakpoints of a process are enabled, its events are of threads with a slot in the array, and
their traps disturb no other thread being stepped over a breakpoint. -/
def Orderly (env : Env) (image : Nat → Addr → Byte) (text : Nat → Set Addr) (σ : Session) :
    Happening → Prop
  | .launch _ pid mem => pid ≠ 0 ∧ ∀ a ∈ text σ.tracer.fresh, mem a = image σ.tracer.fresh a
  | .attach w pid => pid ≠ 0 ∧
    ∀ a ∈ text σ.tracer.fresh, w.childMem a = image σ.tracer.fresh a
  | .wait w _ => (∀ a ∈ text σ.tracer.fresh, w.childMem a = image σ.tracer.fresh a) ∧
    ∀ p i, σ.tracer.lookup w = .ok (p, i) → p.tracee.proc.breakpointsEnabled ≠ -1 →
      ∃ k, ThreadTable.slotAt i = some k ∧
        ∀ brk, σ.tracer.classify env w p i = .breakpoint brk → p.Orderly k brk
  | .interrupt => True
  | .store addr mem => ∀ p ∈ σ.attached, p.addr = addr → ∀ a ∈ text addr, mem a = p.tracee.mem a

/-- The text of every listed process is in order, and that of every attached one as the tables
tell. -/
structure InOrder (image : Nat → Addr → Byte) (text : Nat → Set Addr) (σ : Session) : Prop where
  listed : ∀ p ∈ σ.tracer.procs, p.InOrder (image p.addr) (text p.addr)
  unlisted : ∀ p ∈ σ.unlisted, p.Told (image p.addr) (text p.addr)

/-- Nothing is traced at first. -/
theorem InOrder.start : InOrder image text .start := ⟨nofun, nofun⟩

/-- The tables tell the text of every attached process. -/
theorem InOrder.told (h : σ.InOrder image text) {p : ProcNode} (hp : p ∈ σ.attached) :
    p.Told (image p.addr) (text p.addr) := by
  rcases List.mem_append.mp hp with hlisted | hunlisted
  · exact (h.listed p hlisted).state.told
  · exact h.unlisted p hunlisted

/-- A record for a process just opened is added. -/
theorem InOrder.add (h : σ.InOrder image text) (filename : String) {pid : Pid}
    (hpid : pid ≠ 0) {mem : Addr → Byte}
    (hmem : ∀ a ∈ text σ.tracer.fresh, mem a = image σ.tracer.fresh a) {table : ThreadTable}
    (htable : ThreadTable.zeroed.Registers table) :
    InOrder image text
      { σ with tracer := σ.tracer.add (openTracee env filename pid mem) table } := by
  refine ⟨fun p hp => ?_, h.unlisted⟩
  rcases List.mem_cons.mp hp with rfl | hp
  · exact .opened env filename hpid hmem htable
  · exact h.listed p hp

/-- A process writes to its memory outside its text. -/
theorem InOrder.store (h : σ.InOrder image text) {addr : Nat} {mem : Addr → Byte}
    (horderly : σ.Orderly env image text (.store addr mem))
    (hs : σ.step env (.store addr mem) = some σ') : σ'.InOrder image text := by
  cases hs
  constructor
  · intro p hp
    obtain ⟨q, hq, rfl⟩ := List.mem_map.mp hp
    have horder := h.listed q hq
    unfold ProcNode.store
    split
    · rename_i haddr
      refine horder.store fun a ha => ?_
      exact horderly q (List.mem_append_left _ hq) haddr a (haddr ▸ ha)
    · exact horder
  · intro p hp
    obtain ⟨q, hq, rfl⟩ := List.mem_map.mp hp
    have htold := h.unlisted q hq
    unfold ProcNode.store
    split
    · rename_i haddr
      refine htold.congr rfl rfl fun a ha => ?_
      exact horderly q (List.mem_append_right _ hq) haddr a (haddr ▸ ha)
    · exact htold

/-- A turn that went through. -/
theorem turn_eq_ok {w : Wait} {survives : Bool} (h : σ.turn env w survives = .ok σ') :
    ∃ p i f s, σ.tracer.lookup w = .ok (p, i) ∧
      handle env (σ.tracer.focus w p i) w.stop = .ok f ∧
      makeCalls env w f.calls ({ σ.tracer with output := f.output }, p.table) = .ok s ∧
      σ' = if f.listed then
          { σ with tracer := s.1.update p.addr f.tracee (s.2.write i f.thr) }
        else
          { tracer := s.1.remove p.addr
            unlisted := if survives then { p with tracee := f.tracee } :: σ.unlisted
              else σ.unlisted } := by
  unfold turn at h
  cases hlookup : σ.tracer.lookup w with
  | error halt => simp [hlookup, Except.bind] at h
  | ok found =>
    obtain ⟨p, i⟩ := found
    cases hhandle : handle env (σ.tracer.focus w p i) w.stop with
    | error halt => simp [hlookup, hhandle, Except.bind] at h
    | ok f =>
      cases hcalls : makeCalls env w f.calls ({ σ.tracer with output := f.output }, p.table) with
      | error halt => simp [hlookup, hhandle, hcalls, Except.bind, Except.map] at h
      | ok s =>
        simp only [hlookup, hhandle, hcalls, Except.bind, Except.map, Except.ok.injEq] at h
        exact ⟨p, i, f, s, rfl, hhandle, hcalls, h.symm⟩

/-- What an event does to its own process. -/
theorem InOrder.handled (h : σ.InOrder image text) {w : Wait} {survives : Bool} {p : ProcNode}
    {i : Int} {f : Focus} (horderly : σ.Orderly env image text (.wait w survives))
    (hlookup : σ.tracer.lookup w = .ok (p, i))
    (hhandle : handle env (σ.tracer.focus w p i) w.stop = .ok f) :
    (f.listed = true → ProcNode.InOrder (image p.addr) (text p.addr)
        ⟨p.addr, f.tracee, p.table.write i f.thr⟩) ∧
      (f.listed = false → ProcNode.Told (image p.addr) (text p.addr)
        ⟨p.addr, f.tracee, p.table⟩) := by
  obtain ⟨⟨q, hq, haddr, htracee, hreg⟩, -⟩ := Tracer.lookup_registers hlookup
  have hbefore := (h.listed q hq).registers hreg
  rw [haddr, htracee] at hbefore
  have horder : p.InOrder (image p.addr) (text p.addr) := hbefore
  by_cases hbe : p.tracee.proc.breakpointsEnabled = -1
  · obtain ⟨hlisted, hafter⟩ := horder.first hbe hhandle
    exact ⟨fun _ => hafter, fun hl => absurd (hlisted.symm.trans hl) (by decide)⟩
  · obtain ⟨k, hi, htraps⟩ := horderly.2 p i hlookup hbe
    refine horder.event hi ?_ htraps hhandle
    cases horder.state with
    | fresh hminus => exact absurd hminus hbe
    | planted hone => exact hone

/-- An orderly turn leaves every text in order. -/
theorem InOrder.turn (h : σ.InOrder image text) {w : Wait} {survives : Bool}
    (horderly : σ.Orderly env image text (.wait w survives))
    (hs : σ.turn env w survives = .ok σ') : σ'.InOrder image text := by
  obtain ⟨p, i, f, s, hlookup, hhandle, hcalls, rfl⟩ := turn_eq_ok hs
  obtain ⟨hlisted, hunlisted⟩ := h.handled horderly hlookup hhandle
  obtain ⟨hreg, hadded⟩ := makeCalls_ok (handle_calls hhandle).1 rfl hcalls
  have hcalled : InOrder image text { σ with tracer := s.1 } := by
    have hbefore : InOrder image text
        { σ with tracer := { σ.tracer with output := f.output } } := ⟨h.listed, h.unlisted⟩
    rcases hadded with hsame | ⟨filename, child, table, hchild, htable, hadded⟩
    · rw [hsame]
      exact hbefore
    · rw [hadded]
      exact hbefore.add filename (ne_of_gt hchild) horderly.1 htable
  split
  · rename_i hl
    refine ⟨fun q hq => ?_, hcalled.unlisted⟩
    obtain ⟨r, hr, rfl⟩ := List.mem_map.mp hq
    split
    · rename_i haddr
      rw [haddr]
      exact (hlisted hl).registers (hreg.write i f.thr)
    · exact hcalled.listed r hr
  · rename_i hl
    refine ⟨fun q hq => ?_, fun q hq => ?_⟩
    · exact hcalled.listed q ((sublist_removeProc s.1.procs p.addr).subset hq)
    · dsimp only at hq
      split at hq
      · rcases List.mem_cons.mp hq with rfl | hq
        · exact hunlisted (Bool.eq_false_iff.mpr hl)
        · exact h.unlisted q hq
      · exact h.unlisted q hq

/-- `open_pid` at the start opens a process, or changes nothing. -/
theorem step_attach {w : Wait} {pid : Pid} (hs : σ.step env (.attach w pid) = some σ') :
    σ' = σ ∨ ∃ filename table, ThreadTable.zeroed.Registers table ∧
      σ' = { σ with tracer := σ.tracer.add (openTracee env filename pid w.childMem) table } := by
  obtain ⟨tr, htr, rfl⟩ := Option.map_eq_some_iff.mp hs
  rcases openPid_ok (Sys.eq_ok_of_toOption htr) with rfl | ⟨filename, table, hreg, rfl⟩
  · exact Or.inl rfl
  · exact Or.inr ⟨filename, table, hreg, rfl⟩

/-- One step leaves every text in order. -/
theorem InOrder.step (h : σ.InOrder image text) {happening : Happening}
    (horderly : σ.Orderly env image text happening) (hs : σ.step env happening = some σ') :
    σ'.InOrder image text := by
  cases happening with
  | launch filename pid mem =>
    cases hs
    exact h.add filename horderly.1 horderly.2 (.refl _)
  | attach w pid =>
    rcases step_attach hs with rfl | ⟨filename, table, hreg, rfl⟩
    · exact h
    · exact h.add filename horderly.1 horderly.2 hreg
  | wait w survives => exact h.turn horderly (Sys.eq_ok_of_toOption hs)
  | interrupt =>
    cases hs
    exact ⟨h.listed, h.unlisted⟩
  | store addr mem => exact h.store horderly hs

end Session

end Utrace
