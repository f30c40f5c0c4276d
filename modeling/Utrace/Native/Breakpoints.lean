import Utrace.Core.Chain
import Utrace.Native.Dict
import Utrace.Native.Types

/-!
# The breakpoint table: `breakpoints.c`

An entry counts the references to its address and remembers the byte its trap
replaced. The functions change the process record and the tracee's memory together,
so both are kept in one `Tracee`. `malloc` and `ptrace` are taken to succeed.
-/

namespace Utrace

/-! ## The table of one process -/

/-- `dict_key2hash_int`, for a pointer of `n` bits. -/
def dictKey2hashInt {n : Nat} (key : BitVec n) : BitVec 32 := key.setWidth 32

/-- `dict_key_cmp_int`: the pointer difference narrowed to `int`. -/
def dictKeyCmpInt {n : Nat} (key1 key2 : BitVec n) : BitVec 32 := (key1 - key2).setWidth 32

/-- On 32-bit pointers the comparison is exact. -/
theorem dictKeyCmpInt_eq_zero_iff (k k' : Addr) : dictKeyCmpInt k k' = 0 ↔ k = k' := by
  rw [dictKeyCmpInt, BitVec.setWidth_eq]
  exact sub_eq_zero

/-- The table behind `proc->breakpoints`: `insert_breakpoint` looks a key up before it
enters it, so every key occurs once, under the address of its own entry. -/
structure BreakpointDict where
  dict : Dict Addr (Breakpoint Addr)
  hash : dict.key2hash = dictKey2hashInt
  cmp : dict.keyCmp = dictKeyCmpInt
  /-- No key is entered twice. -/
  distinct : (dict.entries.map (·.key)).Nodup
  /-- `dict_enter(proc->breakpoints, addr, sbp)` with `sbp->addr = addr`. -/
  keyed : ∀ e ∈ dict.entries, e.value.addr = e.key

namespace BreakpointDict

/-- Pointers compare equal only to themselves. -/
theorem exact (d : BreakpointDict) : d.dict.Exact := by
  intro k k'
  rw [d.cmp]
  exact dictKeyCmpInt_eq_zero_iff k k'

/-- `dict_init(dict_key2hash_int, dict_key_cmp_int)`. -/
def init : BreakpointDict where
  dict := dictInit dictKey2hashInt dictKeyCmpInt
  hash := rfl
  cmp := rfl
  distinct := by simp
  keyed := by simp

/-- `dict_find_entry`. -/
def find (d : BreakpointDict) (addr : Addr) : Option (Breakpoint Addr) :=
  dictFindEntry d.dict addr

/-- A new table has no entry. -/
@[simp] theorem find_init (addr : Addr) : init.find addr = none := dictFindEntry_dictInit _ _ addr

/-- The entry found at an address is for it. -/
theorem addr_of_find {d : BreakpointDict} {addr : Addr} {sbp : Breakpoint Addr}
    (h : d.find addr = some sbp) : sbp.addr = addr := by
  obtain ⟨e, he, hk, hv⟩ := dictFindEntry_eq_some d.exact h
  rw [← hv, d.keyed e he, hk]

/-- `dict_enter` of a fresh entry, after a lookup found none. -/
def enter (d : BreakpointDict) (sbp : Breakpoint Addr) (h : d.find sbp.addr = none) :
    BreakpointDict where
  dict := dictEnter d.dict sbp.addr sbp
  hash := d.hash
  cmp := d.cmp
  distinct := by
    have hperm := (entries_dictEnter_perm d.dict sbp.addr sbp).map (·.key)
    rw [hperm.nodup_iff, List.map_cons, List.nodup_cons]
    refine ⟨fun hmem => ?_, d.distinct⟩
    obtain ⟨e, he, hk⟩ := List.mem_map.mp hmem
    exact (dictFindEntry_eq_none_iff d.exact).mp h e he hk
  keyed e he := by
    rcases List.mem_cons.mp ((entries_dictEnter_perm d.dict sbp.addr sbp).mem_iff.mp he) with
      rfl | he
    · rfl
    · exact d.keyed e he

/-- Entering changes what is found at its own address only. -/
theorem find_enter (d : BreakpointDict) (sbp : Breakpoint Addr) (h : d.find sbp.addr = none)
    (addr : Addr) :
    (d.enter sbp h).find addr = if addr = sbp.addr then some sbp else d.find addr := by
  have hfind := dictFindEntry_dictEnter d.exact sbp.addr sbp addr
  by_cases ha : addr = sbp.addr
  · subst ha
    rw [if_pos rfl]
    change dictFindEntry _ _ = _
    rw [enter, hfind, if_pos rfl]
    change (d.find sbp.addr).or _ = _
    rw [h, Option.none_or]
  · rw [if_neg ha]
    change dictFindEntry _ _ = _
    rw [enter, hfind, if_neg ha, Option.or_none]
    rfl

/-- Write through the pointer a lookup returned; no write changes `addr`. -/
def update (d : BreakpointDict) (addr : Addr) (f : Breakpoint Addr → Breakpoint Addr)
    (hf : ∀ sbp, (f sbp).addr = sbp.addr) : BreakpointDict where
  dict := dictUpdate d.dict addr f
  hash := d.hash
  cmp := d.cmp
  distinct := by
    rw [keys_dictUpdate]
    exact d.distinct
  keyed e he := by
    obtain ⟨e₀, he₀, rfl | rfl⟩ := mem_entries_dictUpdate he
    · exact d.keyed e he₀
    · exact (hf e₀.value).trans (d.keyed e₀ he₀)

/-- So does updating. -/
theorem find_update (d : BreakpointDict) (addr : Addr) (f : Breakpoint Addr → Breakpoint Addr)
    (hf : ∀ sbp, (f sbp).addr = sbp.addr) (addr' : Addr) :
    (d.update addr f hf).find addr' =
      if addr' = addr then (d.find addr').map f else d.find addr' :=
  dictFindEntry_dictUpdate d.exact addr f addr'

/-- `dict_apply_to_all` with a callback that never changes `addr`. -/
def applyToAll {σ : Type} (d : BreakpointDict) (func : Breakpoint Addr → σ → Breakpoint Addr × σ)
    (hf : ∀ sbp data, (func sbp data).1.addr = sbp.addr) (data : σ) : BreakpointDict × σ :=
  let applied := dictApplyToAll d.dict (fun _ => func) data
  ({ dict := applied.1
     hash := d.hash
     cmp := d.cmp
     distinct := by
      rw [keys_of_slots (slots_dictApplyToAll d.dict (fun _ => func) data)]
      exact d.distinct
     keyed := by
      intro e he
      obtain ⟨e₀, he₀, data', rfl⟩ := mem_entries_dictApplyToAll he
      exact (hf e₀.value data').trans (d.keyed e₀ he₀) }, applied.2)

/-- A visit whose callback only touches the memory cell of its entry's address. -/
theorem applyToAll_cellwise (d : BreakpointDict)
    (func : Breakpoint Addr → (Addr → Byte) → Breakpoint Addr × (Addr → Byte))
    (hf : ∀ sbp data, (func sbp data).1.addr = sbp.addr)
    (value : Breakpoint Addr → Byte → Breakpoint Addr) (cell : Breakpoint Addr → Byte → Byte)
    (hfunc : ∀ sbp m, func sbp m =
      (value sbp (m sbp.addr), Function.update m sbp.addr (cell sbp (m sbp.addr))))
    (mem : Addr → Byte) (addr : Addr) :
    (d.applyToAll func hf mem).1.find addr = (d.find addr).map (fun sbp => value sbp (mem addr)) ∧
      (d.applyToAll func hf mem).2 addr =
        (d.find addr).elim (mem addr) fun sbp => cell sbp (mem addr) := by
  have hcells : ∀ e ∈ d.dict.entries, ∀ m, func e.value m =
      (value e.value (m e.key), Function.update m e.key (cell e.value (m e.key))) := by
    intro e he m
    rw [hfunc, d.keyed e he]
  have hall := dictApplyToAll_cellwise d.exact d.distinct (fun _ => func) value cell mem hcells
  exact ⟨hall.2.1 addr, hall.2.2 addr⟩

end BreakpointDict

/-! ## The process record and its tracee -/

/-- `struct process`, zero-filled by default, without its threads and its link. -/
structure Process where
  filename : Option String := none
  pid : Pid := 0
  breakpoints : Option BreakpointDict := none
  /-- -1: not enabled yet, 0: disabled, 1: enabled. -/
  breakpointsEnabled : Int := -1
  listOfSymbols : List LibrarySymbol := []

/-- The process record and the memory of the process it describes. -/
structure Tracee where
  proc : Process
  mem : Addr → Byte

/-- The entry of an address, when there is a table and it has one. -/
def Tracee.entry (t : Tracee) (addr : Addr) : Option (Breakpoint Addr) :=
  t.proc.breakpoints.bind fun d => d.find addr

/-- `address2bpstruct`. -/
def address2bpstruct (t : Tracee) (addr : Addr) : Except Halt (Option (Breakpoint Addr)) :=
  match t.proc.breakpoints with
  | none => .error .nullDict
  | some d => .ok (d.find addr)

/-- Write through a pointer to the entry of an address; no write changes `addr`. -/
def Tracee.write (t : Tracee) (addr : Addr) (f : Breakpoint Addr → Breakpoint Addr)
    (hf : ∀ sbp, (f sbp).addr = sbp.addr) : Tracee :=
  { t with proc := { t.proc with
      breakpoints := t.proc.breakpoints.map fun d => d.update addr f hf } }

/-- `enable_breakpoint` through a pointer to the entry of an address. -/
def enableEntry (t : Tracee) (addr : Addr) : Tracee :=
  match t.entry addr with
  | none => t
  | some sbp =>
    let planted := enableBreakpoint i386 t.mem sbp
    { t.write addr (fun sbp => { sbp with origValue := planted.2.origValue }) fun _ => rfl with
      mem := planted.1 }

/-- `disable_breakpoint` through a pointer to the entry of an address. -/
def disableEntry (env : Env) (t : Tracee) (addr : Addr) : Tracee :=
  match t.entry addr with
  | none => t
  | some sbp => { t with mem := disableBreakpoint i386 env.unset t.mem sbp }

/-- The table with an entry for the address: the one found, or a fresh one. -/
def withEntry (d : BreakpointDict) (addr : Addr) : BreakpointDict :=
  match h : d.find addr with
  | some _ => d
  | none => d.enter { addr := addr, origValue := fun _ => none, enabled := 0 } h

/-- `insert_breakpoint`. -/
def insertBreakpoint (t : Tracee) (addr : Addr) : Tracee :=
  let d := withEntry (t.proc.breakpoints.getD .init) addr
  let t := { t with proc := { t.proc with breakpoints := some d } }
  let t := t.write addr (fun sbp => { sbp with enabled := sbp.enabled + 1 }) fun _ => rfl
  match t.entry addr with
  | none => t
  | some sbp => if sbp.enabled = 1 ∧ t.proc.pid ≠ 0 then enableEntry t addr else t

/-- `delete_breakpoint`. -/
def deleteBreakpoint (env : Env) (t : Tracee) (addr : Addr) : Except Halt Tracee :=
  match address2bpstruct t addr with
  | .error halt => .error halt
  | .ok none => .error .assertion
  | .ok (some sbp) =>
    let enabled := sbp.enabled - 1
    let t := t.write addr (fun sbp => { sbp with enabled := sbp.enabled - 1 }) fun _ => rfl
    let t := if enabled = 0 then disableEntry env t addr else t
    if 0 ≤ enabled then .ok t else .error .assertion

/-- `enable_bp_cb`. -/
def enableBpCb (sbp : Breakpoint Addr) (mem : Addr → Byte) : Breakpoint Addr × (Addr → Byte) :=
  if sbp.enabled ≠ 0 then
    let planted := enableBreakpoint i386 mem sbp
    (planted.2, planted.1)
  else (sbp, mem)

/-- Enabling keeps the address of an entry. -/
theorem addr_enableBpCb (sbp : Breakpoint Addr) (mem : Addr → Byte) :
    (enableBpCb sbp mem).1.addr = sbp.addr := by
  rw [enableBpCb]
  split
  · rw [enableBreakpoint_i386]
  · rfl

/-- `enable_all_breakpoints`; `trace_option` returns before it does anything. -/
def enableAllBreakpoints (t : Tracee) : Tracee :=
  let t :=
    if t.proc.breakpointsEnabled ≤ 0 then
      match t.proc.breakpoints with
      | none => t
      | some d =>
        let applied := d.applyToAll enableBpCb addr_enableBpCb t.mem
        { proc := { t.proc with breakpoints := some applied.1 }, mem := applied.2 }
    else t
  { t with proc := { t.proc with breakpointsEnabled := 1 } }

/-- `disable_bp_cb`. -/
def disableBpCb (env : Env) (sbp : Breakpoint Addr) (mem : Addr → Byte) :
    Breakpoint Addr × (Addr → Byte) :=
  if sbp.enabled ≠ 0 then (sbp, disableBreakpoint i386 env.unset mem sbp) else (sbp, mem)

/-- So does disabling. -/
theorem addr_disableBpCb (env : Env) (sbp : Breakpoint Addr) (mem : Addr → Byte) :
    (disableBpCb env sbp mem).1.addr = sbp.addr := by
  rw [disableBpCb]
  split <;> rfl

/-- `disable_all_breakpoints`. -/
def disableAllBreakpoints (env : Env) (t : Tracee) : Tracee :=
  let t :=
    if t.proc.breakpointsEnabled ≠ 0 then
      match t.proc.breakpoints with
      | none => t
      | some d =>
        let applied := d.applyToAll (disableBpCb env) (addr_disableBpCb env) t.mem
        { proc := { t.proc with breakpoints := some applied.1 }, mem := applied.2 }
    else t
  { t with proc := { t.proc with breakpointsEnabled := 0 } }

/-- The `-e` loop of `breakpoints_init`: whether a symbol stays in the list. -/
def keepSymbol (env : Env) (sym : LibrarySymbol) : Bool :=
  env.opte.foldl (fun keep name => if sym.name = name then env.opteEnable else keep)
    (!env.opteEnable)

/-- The loop itself over records in memory: `tmp1` is the link to a record, and one that does not
stay is taken out by a write through it. -/
def unlinkSymbols {ρ : Type*} [DecidableEq ρ] (env : Env) (record : ρ → LibrarySymbol)
    (turns : Nat) (listOfSymbols : Links ρ) : Option (Links ρ) :=
  unlink (fun sym => keepSymbol env (record sym)) turns listOfSymbols none

/-- The symbols `breakpoints_init` puts in `list_of_symbols`. -/
def symbolsOf (env : Env) (filename : Option String) : List LibrarySymbol :=
  match env.optL, filename with
  | true, some filename =>
    let symbols := env.readElf filename
    if env.opte.isEmpty then symbols else symbols.filter (keepSymbol env)
  | _, _ => []

/-- `breakpoints_init`. -/
def breakpointsInit (env : Env) (t : Tracee) : Tracee :=
  let symbols := symbolsOf env t.proc.filename
  let t := { t with proc := { t.proc with breakpoints := none, listOfSymbols := symbols } }
  let t := symbols.foldl (fun t sym => insertBreakpoint t sym.enterAddr) t
  { t with proc := { t.proc with breakpointsEnabled := -1 } }

/-- The record part of `open_program`; its `pid` is still zero. -/
def openProgram (env : Env) (filename : String) (mem : Addr → Byte) : Tracee :=
  breakpointsInit env { proc := { filename := some filename }, mem := mem }

/-- The record once `open_pid` or `execute_program` stored the pid. -/
def openTracee (env : Env) (filename : String) (pid : Pid) (mem : Addr → Byte) : Tracee :=
  let t := openProgram env filename mem
  { t with proc := { t.proc with pid := pid } }

end Utrace
