import Utrace.Native.Breakpoints

/-!
# Each address of the tracee as an independent cell

What utrace knows and does about one address is a small state machine: the reference
count of its entry, the byte the entry saved, and the byte in memory. Every function
of the breakpoint table acts on the cell of one address, or on every cell alike, and
leaves the rest of the process record alone. The table and the word-sized memory
accesses are read through this view only.
-/

namespace Utrace

/-- What is known about one address: the count of its entry, if it has one, the byte the
entry saved, if it was ever planted, and the byte in memory. -/
@[ext] structure Cell where
  count : Option Int
  saved : Option Byte
  byte : Byte
  deriving DecidableEq

namespace Cell

/-- Save the byte in memory and put the trap in its place; an address without an entry is
left alone. -/
def plant (c : Cell) : Cell :=
  match c.count with
  | none => c
  | some n => ⟨some n, some c.byte, trap⟩

/-- Put the saved byte back. -/
def lift (unset : Byte) (c : Cell) : Cell :=
  match c.count with
  | none => c
  | some n => ⟨some n, c.saved, c.saved.getD unset⟩

/-- The references to the address, zero without an entry. -/
def refs (c : Cell) : Int := c.count.getD 0

/-- One more reference; the first one plants the trap, once the process has a pid. -/
def insert (live : Bool) (c : Cell) : Cell :=
  let c' : Cell := ⟨some (c.refs + 1), c.saved, c.byte⟩
  if c.refs = 0 ∧ live = true then c'.plant else c'

/-- One reference fewer; the last one puts the saved byte back. -/
def delete (unset : Byte) (c : Cell) : Cell :=
  let c' : Cell := ⟨some (c.refs - 1), c.saved, c.byte⟩
  if c.refs = 1 then c'.lift unset else c'

/-- Plant the trap of an entry that is referenced. -/
def enable (c : Cell) : Cell := if c.refs ≠ 0 then c.plant else c

/-- Put back the saved byte of an entry that is referenced. -/
def disable (unset : Byte) (c : Cell) : Cell := if c.refs ≠ 0 then c.lift unset else c

/-- Planting the trap keeps the count. -/
@[simp] theorem count_plant (c : Cell) : c.plant.count = c.count := by
  cases h : c.count <;> simp [plant, h]

/-- So does lifting it. -/
@[simp] theorem count_lift (unset : Byte) (c : Cell) : (c.lift unset).count = c.count := by
  cases h : c.count <;> simp [lift, h]

/-- So does enabling the breakpoint. -/
@[simp] theorem count_enable (c : Cell) : c.enable.count = c.count := by
  rw [enable]
  split
  · exact count_plant c
  · rfl

/-- So does disabling it. -/
@[simp] theorem count_disable (unset : Byte) (c : Cell) :
    (c.disable unset).count = c.count := by
  rw [disable]
  split
  · exact count_lift unset c
  · rfl

/-- An insertion counts one reference more. -/
@[simp] theorem count_insert (live : Bool) (c : Cell) :
    (c.insert live).count = some (c.refs + 1) := by
  rw [insert]
  split
  · exact count_plant _
  · rfl

/-- A deletion counts one less. -/
@[simp] theorem count_delete (unset : Byte) (c : Cell) :
    (c.delete unset).count = some (c.refs - 1) := by
  rw [delete]
  split
  · exact count_lift unset _
  · rfl

/-- Lifting the trap keeps the saved byte. -/
@[simp] theorem saved_lift (unset : Byte) (c : Cell) : (c.lift unset).saved = c.saved := by
  cases h : c.count <;> simp [lift, h]

/-- So does a deletion. -/
@[simp] theorem saved_delete (unset : Byte) (c : Cell) : (c.delete unset).saved = c.saved := by
  rw [delete]
  split
  · exact saved_lift unset _
  · rfl

/-- The last deletion puts the saved byte back. -/
theorem byte_delete (unset : Byte) (c : Cell) :
    (c.delete unset).byte = if c.refs = 1 then c.saved.getD unset else c.byte := by
  rw [delete]
  split <;> rfl

end Cell

/-- The cell of an address. -/
def Tracee.cell (t : Tracee) (a : Addr) : Cell :=
  ⟨(t.entry a).map (·.enabled), (t.entry a).bind (·.origValue 0), t.mem a⟩

/-- The process record without its table: what the table's functions leave alone. -/
def Tracee.header (t : Tracee) : Process := { t.proc with breakpoints := none }

/-- The pid is part of what the table's functions leave alone. -/
theorem Tracee.pid_of_header {t : Tracee} {proc : Process} (h : t.header = proc) :
    t.proc.pid = proc.pid := by
  change t.header.pid = proc.pid
  rw [h]

/-- A write to memory elsewhere leaves a cell alone. -/
theorem Tracee.cell_store {t : Tracee} {mem : Addr → Byte} {a : Addr} (h : mem a = t.mem a) :
    Tracee.cell { t with mem := mem } a = t.cell a := by
  ext1
  · rfl
  · rfl
  · exact h

/-- The byte of a cell is the one in memory. -/
@[simp] theorem Tracee.byte_cell (t : Tracee) (a : Addr) : (t.cell a).byte = t.mem a := rfl

/-- A cell without a count is an address without an entry. -/
theorem Tracee.count_cell_eq_none {t : Tracee} {a : Addr} :
    (t.cell a).count = none ↔ t.entry a = none := by
  simp [Tracee.cell]

/-- A cell with a count is an address with an entry of that count. -/
theorem Tracee.count_cell_eq_some {t : Tracee} {a : Addr} {n : Int} :
    (t.cell a).count = some n ↔ ∃ sbp, t.entry a = some sbp ∧ sbp.enabled = n := by
  simp [Tracee.cell]

/-- The entries are found in the table. -/
theorem Tracee.entry_eq_find {t : Tracee} {d : BreakpointDict}
    (h : t.proc.breakpoints = some d) (a : Addr) : t.entry a = d.find a := by
  rw [Tracee.entry, h, Option.bind_some]

/-- The entry found at an address is for that address. -/
theorem Tracee.addr_of_entry {t : Tracee} {a : Addr} {sbp : Breakpoint Addr}
    (h : t.entry a = some sbp) : sbp.addr = a := by
  obtain ⟨d, _, hf⟩ := Option.bind_eq_some_iff.mp h
  exact BreakpointDict.addr_of_find hf

/-! ## One entry -/

/-- A write through a pointer to an entry changes that entry only. -/
theorem entry_write (t : Tracee) (a : Addr) (f : Breakpoint Addr → Breakpoint Addr)
    (hf : ∀ sbp, (f sbp).addr = sbp.addr) (x : Addr) :
    (t.write a f hf).entry x = if x = a then (t.entry x).map f else t.entry x := by
  cases hd : t.proc.breakpoints with
  | none => simp [Tracee.entry, Tracee.write, hd]
  | some d => simp [Tracee.entry, Tracee.write, hd, BreakpointDict.find_update]

/-- A write to the counter of an entry changes the count of its cell. -/
theorem cell_write_enabled (t : Tracee) (a x : Addr) (f : Int → Int) :
    (t.write a (fun sbp => { sbp with enabled := f sbp.enabled }) fun _ => rfl).cell x =
      if x = a then { t.cell a with count := (t.cell a).count.map f } else t.cell x := by
  have hmem : (t.write a (fun sbp => { sbp with enabled := f sbp.enabled }) fun _ => rfl).mem =
      t.mem := rfl
  by_cases hx : x = a
  · subst hx
    rw [if_pos rfl, Tracee.cell, entry_write, if_pos rfl, hmem]
    cases he : t.entry x <;> simp [Tracee.cell, he]
  · rw [if_neg hx, Tracee.cell, entry_write, if_neg hx, hmem]
    rfl

/-- Enabling an entry changes nothing of the record but the table. -/
theorem header_enableEntry (t : Tracee) (a : Addr) : (enableEntry t a).header = t.header := by
  rw [enableEntry]
  split <;> rfl

/-- Nor does disabling one. -/
theorem header_disableEntry (env : Env) (t : Tracee) (a : Addr) :
    (disableEntry env t a).header = t.header := by
  rw [disableEntry]
  split <;> rfl

/-- `enable_breakpoint` acts on the cell of its entry. -/
theorem cell_enableEntry (t : Tracee) (a x : Addr) :
    (enableEntry t a).cell x = if x = a then (t.cell a).plant else t.cell x := by
  cases hentry : t.entry a with
  | none =>
    have hplant : (t.cell a).plant = t.cell a := by
      rw [Cell.plant, Tracee.count_cell_eq_none.mpr hentry]
    have hsame : enableEntry t a = t := by rw [enableEntry, hentry]
    rw [hplant, hsame]
    by_cases hx : x = a <;> simp [hx]
  | some sbp =>
    have haddr : sbp.addr = a := Tracee.addr_of_entry hentry
    have hmem : (enableEntry t a).mem x = if x = a then trap else t.mem x := by
      rw [enableEntry, hentry]
      simp only [enableBreakpoint_i386, haddr]
      exact Function.update_apply t.mem a trap x
    have hentry' : (enableEntry t a).entry x = if x = a then some { sbp with
        origValue := Function.update sbp.origValue 0 (some (t.mem a)) } else t.entry x := by
      rw [enableEntry, hentry]
      simp only [enableBreakpoint_i386, haddr]
      change (t.write a _ _).entry x = _
      rw [entry_write]
      by_cases hx : x = a
      · simp [hx, hentry, haddr]
      · rw [if_neg hx, if_neg hx]
    by_cases hx : x = a
    · rw [if_pos hx] at hentry' hmem ⊢
      simp [Tracee.cell, Cell.plant, hentry, hentry', hmem]
    · rw [if_neg hx] at hentry' hmem ⊢
      simp [Tracee.cell, hentry', hmem]

/-- `disable_breakpoint` acts on the cell of its entry. -/
theorem cell_disableEntry (env : Env) (t : Tracee) (a x : Addr) :
    (disableEntry env t a).cell x = if x = a then (t.cell a).lift env.unset else t.cell x := by
  cases hentry : t.entry a with
  | none =>
    have hlift : (t.cell a).lift env.unset = t.cell a := by
      rw [Cell.lift, Tracee.count_cell_eq_none.mpr hentry]
    have hsame : disableEntry env t a = t := by rw [disableEntry, hentry]
    rw [hlift, hsame]
    by_cases hx : x = a <;> simp [hx]
  | some sbp =>
    have haddr := Tracee.addr_of_entry hentry
    have hmem : (disableEntry env t a).mem x =
        if x = a then (sbp.origValue 0).getD env.unset else t.mem x := by
      rw [disableEntry, hentry]
      simp only [disableBreakpoint_i386, haddr]
      exact Function.update_apply t.mem a _ x
    have hentry' : (disableEntry env t a).entry x = t.entry x := by
      rw [disableEntry, hentry]
      rfl
    by_cases hx : x = a
    · rw [if_pos hx] at hmem ⊢
      simp [Tracee.cell, Cell.lift, hx ▸ hentry, hentry, hentry', hmem]
    · rw [if_neg hx] at hmem ⊢
      simp [Tracee.cell, hentry', hmem]

/-! ## `insert_breakpoint` and `delete_breakpoint` -/

/-- After an entry is made sure of, it is found, and the others as before. -/
theorem find_withEntry (d : BreakpointDict) (a x : Addr) :
    (withEntry d a).find x =
      if x = a then some ((d.find a).getD { addr := a, origValue := fun _ => none, enabled := 0 })
      else d.find x := by
  rw [withEntry]
  split
  · rename_i sbp hf
    by_cases hx : x = a
    · rw [if_pos hx, hx, hf, Option.getD_some]
    · rw [if_neg hx]
  · rename_i hf
    rw [BreakpointDict.find_enter]
    by_cases hx : x = a
    · rw [if_pos hx, if_pos hx, hf, Option.getD_none]
    · rw [if_neg hx, if_neg hx]

/-- The tracee after the lookup-or-enter part of `insert_breakpoint`. -/
def Tracee.entered (t : Tracee) (a : Addr) : Tracee :=
  { t with proc := { t.proc with
      breakpoints := some (withEntry (t.proc.breakpoints.getD .init) a) } }

/-- An entry made sure of counts no reference yet. -/
theorem cell_entered (t : Tracee) (a x : Addr) :
    (t.entered a).cell x =
      if x = a then ⟨some (t.cell a).refs, (t.cell a).saved, t.mem a⟩ else t.cell x := by
  have hfind : ∀ y, (t.proc.breakpoints.getD .init).find y = t.entry y := by
    intro y
    cases hd : t.proc.breakpoints with
    | none => simp [Tracee.entry, hd]
    | some d => simp [Tracee.entry, hd]
  have hentry : (t.entered a).entry x = if x = a then
      some ((t.entry a).getD { addr := a, origValue := fun _ => none, enabled := 0 })
      else t.entry x := by
    rw [Tracee.entry, Tracee.entered, Option.bind_some, find_withEntry, hfind, hfind]
  by_cases hx : x = a
  · rw [if_pos hx] at hentry ⊢
    rw [Tracee.cell, hentry, hx]
    cases he : t.entry a <;> simp [Tracee.cell, Tracee.entered, Cell.refs, he]
  · rw [if_neg hx] at hentry ⊢
    rw [Tracee.cell, hentry]
    rfl

/-- An insertion changes nothing of the record but the table. -/
theorem header_insertBreakpoint (t : Tracee) (a : Addr) :
    (insertBreakpoint t a).header = t.header := by
  rw [insertBreakpoint]
  split
  · rfl
  · split
    · rw [header_enableEntry]
      rfl
    · rfl

/-- `insert_breakpoint` acts on the cell of its address. -/
theorem cell_insertBreakpoint (t : Tracee) (a x : Addr) :
    (insertBreakpoint t a).cell x =
      if x = a then (t.cell a).insert (decide (t.proc.pid ≠ 0)) else t.cell x := by
  let t' := (t.entered a).write a (fun sbp => { sbp with enabled := sbp.enabled + 1 })
    fun _ => rfl
  have hcell : ∀ y, t'.cell y =
      if y = a then ⟨some ((t.cell a).refs + 1), (t.cell a).saved, t.mem a⟩ else t.cell y := by
    intro y
    refine (cell_write_enabled (t.entered a) a y fun n => n + 1).trans ?_
    rw [cell_entered, cell_entered]
    by_cases hy : y = a <;> simp [hy]
  have hcount : (t'.cell a).count = some ((t.cell a).refs + 1) := by rw [hcell, if_pos rfl]
  obtain ⟨sbp, hentry, hsbp⟩ := Tracee.count_cell_eq_some.mp hcount
  have hdef : insertBreakpoint t a =
      if sbp.enabled = 1 ∧ t.proc.pid ≠ 0 then enableEntry t' a else t' := by
    generalize hr : (if sbp.enabled = 1 ∧ t.proc.pid ≠ 0 then enableEntry t' a else t') = r
    rw [insertBreakpoint]
    split
    · rename_i hnone
      cases hentry.symm.trans hnone
    · rename_i sbp' hsome
      obtain rfl : sbp = sbp' := Option.some.inj (hentry.symm.trans hsome)
      exact hr
  have hone : sbp.enabled = 1 ↔ (t.cell a).refs = 0 := by omega
  simp only [hdef, hone]
  by_cases hplant : (t.cell a).refs = 0 ∧ t.proc.pid ≠ 0
  · rw [if_pos hplant, cell_enableEntry, hcell, hcell]
    by_cases hx : x = a
    · simp [hx, Cell.insert, hplant.1, hplant.2]
    · simp [hx]
  · rw [if_neg hplant, hcell]
    by_cases hx : x = a
    · simp only [hx, if_true, Cell.insert, decide_eq_true_eq, hplant, if_false]
      rfl
    · simp [hx]

/-- `delete_breakpoint` on an address without an entry fails its assertion, or follows the
null table. -/
theorem deleteBreakpoint_of_none (env : Env) {t : Tracee} {a : Addr}
    (h : (t.cell a).count = none) :
    deleteBreakpoint env t a = .error .nullDict ∨ deleteBreakpoint env t a = .error .assertion := by
  have hentry := Tracee.count_cell_eq_none.mp h
  cases hd : t.proc.breakpoints with
  | none => exact Or.inl (by simp [deleteBreakpoint, address2bpstruct, hd])
  | some d =>
    rw [t.entry_eq_find hd] at hentry
    exact Or.inr (by simp [deleteBreakpoint, address2bpstruct, hd, hentry])

/-- `address2bpstruct` finds the entry. -/
theorem address2bpstruct_of_entry {t : Tracee} {a : Addr} {sbp : Breakpoint Addr}
    (h : t.entry a = some sbp) : address2bpstruct t a = .ok (some sbp) := by
  obtain ⟨d, hd, hf⟩ := Option.bind_eq_some_iff.mp h
  rw [address2bpstruct, hd]
  exact congrArg Except.ok hf

/-- `delete_breakpoint` on an entry of count `n`: below one the final assertion fails, and
from one on it acts on the cell of its address. -/
theorem deleteBreakpoint_of_count (env : Env) {t : Tracee} {a : Addr} {n : Int}
    (h : (t.cell a).count = some n) :
    (n < 1 ∧ deleteBreakpoint env t a = .error .assertion) ∨
      (1 ≤ n ∧ ∃ t', deleteBreakpoint env t a = .ok t' ∧ t'.header = t.header ∧
        ∀ x, t'.cell x = if x = a then (t.cell a).delete env.unset else t.cell x) := by
  obtain ⟨sbp, hentry, hn⟩ := Tracee.count_cell_eq_some.mp h
  have hrefs : (t.cell a).refs = n := by rw [Cell.refs, h, Option.getD_some]
  let t' := t.write a (fun sbp => { sbp with enabled := sbp.enabled - 1 }) fun _ => rfl
  have hcell : ∀ y, t'.cell y =
      if y = a then ⟨some (n - 1), (t.cell a).saved, t.mem a⟩ else t.cell y := by
    intro y
    refine (cell_write_enabled t a y fun n => n - 1).trans ?_
    by_cases hy : y = a <;> simp [hy, h]
  have hdef : deleteBreakpoint env t a =
      if 0 ≤ n - 1 then .ok (if n - 1 = 0 then disableEntry env t' a else t')
      else .error .assertion := by
    rw [deleteBreakpoint, address2bpstruct_of_entry hentry, ← hn]
  by_cases hlow : n < 1
  · exact Or.inl ⟨hlow, by rw [hdef, if_neg (by omega)]⟩
  · refine Or.inr ⟨by omega, _, by rw [hdef, if_pos (by omega)], ?_, ?_⟩
    · split
      · rw [header_disableEntry]
        rfl
      · rfl
    · intro x
      by_cases hone : n = 1
      · rw [if_pos (by omega), cell_disableEntry, hcell, hcell]
        by_cases hx : x = a
        · simp [hx, Cell.delete, hrefs, hone]
        · simp [hx]
      · rw [if_neg (by omega), hcell]
        by_cases hx : x = a
        · simp [hx, Cell.delete, hrefs, hone]
        · simp [hx]

/-- What a successful `delete_breakpoint` did. -/
theorem deleteBreakpoint_ok {env : Env} {t t' : Tracee} {a : Addr}
    (h : deleteBreakpoint env t a = .ok t') :
    (∃ n, (t.cell a).count = some n ∧ 1 ≤ n) ∧ t'.header = t.header ∧
      ∀ x, t'.cell x = if x = a then (t.cell a).delete env.unset else t.cell x := by
  cases hc : (t.cell a).count with
  | none => rcases deleteBreakpoint_of_none env hc with he | he <;> simp [h] at he
  | some n =>
    rcases deleteBreakpoint_of_count env hc with ⟨_, he⟩ | ⟨hn, t'', he, hh, hcell⟩
    · simp [h] at he
    · rw [h, Except.ok.injEq] at he
      subst he
      exact ⟨⟨n, rfl, hn⟩, hh, hcell⟩

/-! ## Every entry -/

/-- A visit of every entry, where there is a table, acts on every cell. -/
theorem cell_applyToAll (t t' : Tracee)
    {func : Breakpoint Addr → (Addr → Byte) → Breakpoint Addr × (Addr → Byte)}
    (hf : ∀ sbp data, (func sbp data).1.addr = sbp.addr)
    (value : Breakpoint Addr → Byte → Breakpoint Addr) (byte : Breakpoint Addr → Byte → Byte)
    (hfunc : ∀ sbp m, func sbp m =
      (value sbp (m sbp.addr), Function.update m sbp.addr (byte sbp (m sbp.addr))))
    (hdict : t'.proc.breakpoints =
      t.proc.breakpoints.map fun d => (d.applyToAll func hf t.mem).1)
    (hmem : t'.mem = t.proc.breakpoints.elim t.mem fun d => (d.applyToAll func hf t.mem).2)
    (x : Addr) :
    t'.cell x = (t.entry x).elim ⟨none, none, t.mem x⟩ fun sbp =>
      ⟨some (value sbp (t.mem x)).enabled, (value sbp (t.mem x)).origValue 0,
        byte sbp (t.mem x)⟩ := by
  cases hd : t.proc.breakpoints with
  | none =>
    rw [hd] at hdict hmem
    simp [Tracee.cell, Tracee.entry, hd, hdict, hmem]
  | some d =>
    rw [hd, Option.map_some] at hdict
    rw [hd, Option.elim_some] at hmem
    obtain ⟨hfind, hbyte⟩ := d.applyToAll_cellwise func hf value byte hfunc t.mem x
    rw [Tracee.cell, Tracee.entry_eq_find hdict, hmem, hfind, hbyte, t.entry_eq_find hd]
    cases d.find x <;> rfl

/-- `enable_all_breakpoints` acts on every cell, unless the breakpoints are enabled. -/
theorem cell_enableAllBreakpoints (t : Tracee) (x : Addr) :
    (enableAllBreakpoints t).cell x =
      if t.proc.breakpointsEnabled ≤ 0 then (t.cell x).enable else t.cell x := by
  by_cases hen : t.proc.breakpointsEnabled ≤ 0
  · have hcell := cell_applyToAll t (enableAllBreakpoints t) addr_enableBpCb
      (fun sbp b => if sbp.enabled ≠ 0 then
        { sbp with origValue := Function.update sbp.origValue 0 (some b) } else sbp)
      (fun sbp b => if sbp.enabled ≠ 0 then trap else b)
      (by
        intro sbp m
        rw [enableBpCb]
        by_cases hz : sbp.enabled = 0
        · simp [hz]
        · simp [hz, enableBreakpoint_i386])
      (by cases hd : t.proc.breakpoints <;> simp [enableAllBreakpoints, hen, hd])
      (by cases hd : t.proc.breakpoints <;> simp [enableAllBreakpoints, hen, hd]) x
    rw [if_pos hen, hcell, Tracee.cell]
    cases t.entry x with
    | none => simp [Cell.enable, Cell.refs]
    | some sbp =>
      by_cases hz : sbp.enabled = 0 <;> simp [Cell.enable, Cell.refs, Cell.plant, hz]
  · rw [if_neg hen, enableAllBreakpoints, if_neg hen]
    rfl

/-- `disable_all_breakpoints` acts on every cell, unless the breakpoints are disabled. -/
theorem cell_disableAllBreakpoints (env : Env) (t : Tracee) (x : Addr) :
    (disableAllBreakpoints env t).cell x =
      if t.proc.breakpointsEnabled ≠ 0 then (t.cell x).disable env.unset else t.cell x := by
  by_cases hen : t.proc.breakpointsEnabled ≠ 0
  · have hcell := cell_applyToAll t (disableAllBreakpoints env t)
      (addr_disableBpCb env) (fun sbp _ => sbp)
      (fun sbp b => if sbp.enabled ≠ 0 then (sbp.origValue 0).getD env.unset else b)
      (by
        intro sbp m
        rw [disableBpCb]
        by_cases hz : sbp.enabled = 0
        · simp [hz]
        · simp [hz, disableBreakpoint_i386])
      (by cases hd : t.proc.breakpoints <;> simp [disableAllBreakpoints, hen, hd])
      (by cases hd : t.proc.breakpoints <;> simp [disableAllBreakpoints, hen, hd]) x
    rw [if_pos hen, hcell, Tracee.cell]
    cases t.entry x with
    | none => simp [Cell.disable, Cell.refs]
    | some sbp =>
      by_cases hz : sbp.enabled = 0 <;> simp [Cell.disable, Cell.refs, Cell.lift, hz]
  · rw [if_neg hen, disableAllBreakpoints, if_neg hen]
    rfl

/-- `enable_all_breakpoints` changes nothing of the record but the table and its flag. -/
theorem header_enableAllBreakpoints (t : Tracee) :
    (enableAllBreakpoints t).header = { t.header with breakpointsEnabled := 1 } := by
  rw [enableAllBreakpoints]
  by_cases hen : t.proc.breakpointsEnabled ≤ 0
  · rw [if_pos hen]
    cases t.proc.breakpoints <;> rfl
  · rw [if_neg hen]
    rfl

/-- Nor does `disable_all_breakpoints`. -/
theorem header_disableAllBreakpoints (env : Env) (t : Tracee) :
    (disableAllBreakpoints env t).header = { t.header with breakpointsEnabled := 0 } := by
  rw [disableAllBreakpoints]
  by_cases hen : t.proc.breakpointsEnabled ≠ 0
  · rw [if_pos hen]
    cases t.proc.breakpoints <;> rfl
  · rw [if_neg hen]
    rfl

end Utrace
