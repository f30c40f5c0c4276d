import Utrace.Interpretation.Cell
import Utrace.Native.Pointers
import Mathlib.Data.List.Induction

/-!
# What the calls leave in the table

The hash and the comparison of two pointers look at their low 32 bits only, whatever the width of
a pointer. With pointers of 32 bits the table and its heap are the table of the tracee.
-/

namespace Utrace

variable {n : Nat} {arch : Arch} {proc : PointerProc n} {inserted : List (BitVec n)}
  {a b : BitVec n} {sbp : Nat}

/-! ## The comparison -/

/-- The difference of two pointers, narrowed to `int`, is zero where their low bits agree. -/
theorem dictKeyCmpInt_eq_zero (k k' : BitVec n) :
    dictKeyCmpInt k k' = 0 ↔ k.setWidth 32 = k'.setWidth 32 := by
  have hk := k.isLt
  have hk' := k'.isLt
  have hzero : (0 : BitVec 32).toNat = 0 := rfl
  rw [dictKeyCmpInt, ← BitVec.toNat_inj, ← BitVec.toNat_inj, BitVec.toNat_setWidth,
    BitVec.toNat_setWidth, BitVec.toNat_setWidth, BitVec.toNat_sub, hzero]
  rcases Nat.le_total 32 n with hn | hn
  · obtain ⟨m, hm⟩ : 2 ^ 32 ∣ 2 ^ n := Nat.pow_dvd_pow 2 hn
    rw [hm] at hk hk' ⊢
    rw [Nat.mod_mul_right_mod]
    omega
  · have hle : 2 ^ n ≤ 2 ^ 32 := Nat.pow_le_pow_right (by omega) hn
    have hdiff := Nat.mod_lt (2 ^ n - k'.toNat + k.toNat) (Nat.two_pow_pos n)
    rw [Nat.mod_eq_of_lt (hdiff.trans_le hle), Nat.mod_eq_of_lt (hk.trans_le hle),
      Nat.mod_eq_of_lt (hk'.trans_le hle)]
    rcases Nat.lt_or_ge k.toNat k'.toNat with hlt | hge
    · rw [Nat.mod_eq_of_lt (by omega)]
      omega
    · rw [show 2 ^ n - k'.toNat + k.toNat = (k.toNat - k'.toNat) + 2 ^ n by omega,
        Nat.add_mod_right, Nat.mod_eq_of_lt (by omega)]
      omega

/-- Keys with the same low bits are looked up alike. -/
theorem dictFindEntry_congr {ν : Type*} {d : Dict (BitVec n) ν}
    (hhash : d.key2hash = dictKey2hashInt) (hcmp : d.keyCmp = dictKeyCmpInt)
    (h : a.setWidth 32 = b.setWidth 32) : dictFindEntry d a = dictFindEntry d b := by
  have hkey : d.key2hash a = d.key2hash b := by
    rw [hhash]
    exact h
  have hsame : d.same a = d.same b := by
    funext e
    have hiff : dictKeyCmpInt a e.key = 0 ↔ dictKeyCmpInt b e.key = 0 := by
      rw [dictKeyCmpInt_eq_zero, dictKeyCmpInt_eq_zero, h]
    rw [Dict.same, Dict.same, hkey, hcmp]
    congr 1
    exact Bool.eq_iff_iff.mpr (by simpa using hiff)
  rw [dictFindEntry, dictFindEntry, hsame, Dict.chain, Dict.chain, Dict.bucketpos, hkey,
    Dict.bucketpos]

/-! ## The calls -/

/-- The table after the calls for some addresses: a pointer found leads to an entry with the low
bits looked up, and every address has one. -/
structure Inserted (proc : PointerProc n) (inserted : List (BitVec n)) : Prop where
  hash : proc.table.key2hash = dictKey2hashInt
  cmp : proc.table.keyCmp = dictKeyCmpInt
  found : ∀ a sbp, dictFindEntry proc.table a = some sbp →
    ∃ b ∈ inserted, proc.addrs[sbp]? = some b ∧ b.setWidth 32 = a.setWidth 32
  entered : ∀ b ∈ inserted, ∃ sbp, dictFindEntry proc.table b = some sbp

/-- Nothing was inserted at first. -/
theorem inserted_start (pid : Pid) (mem : BitVec n → Byte) :
    Inserted { pid := pid, mem := mem } [] where
  hash := rfl
  cmp := rfl
  found a sbp h := by
    rw [PointerProc.table, Option.getD_none, dictFindEntry_dictInit] at h
    cases h
  entered b hb := by cases hb

/-- What is found once an address is entered: the old pointer, or the new one under the low bits
of the address. -/
theorem Inserted.find_enter (h : Inserted proc inserted) (addr : BitVec n) (ptr : Nat)
    (a : BitVec n) :
    dictFindEntry (dictEnter proc.table addr ptr) a = (dictFindEntry proc.table a).or
      (if a.setWidth 32 = addr.setWidth 32 then some ptr else none) := by
  have hcompatible : proc.table.Compatible := by
    intro k k' hkey
    rw [h.cmp, dictKeyCmpInt_eq_zero] at hkey
    rw [h.hash]
    exact hkey
  rw [dictFindEntry_dictEnter_of_compatible hcompatible, h.cmp]
  simp only [dictKeyCmpInt_eq_zero]

/-- The lookup in the first part of a call, or the new entry. -/
theorem Inserted.withEntry (h : Inserted proc inserted) (addr : BitVec n) :
    Inserted (proc.withEntry addr).1 (inserted ++ [addr]) := by
  cases hfind : dictFindEntry proc.table addr with
  | some sbp =>
    obtain ⟨htable, haddrs⟩ := PointerProc.withEntry_of_some hfind
    refine ⟨htable ▸ h.hash, htable ▸ h.cmp, ?_, ?_⟩ <;> rw [htable]
    · rw [haddrs]
      intro a ptr hptr
      obtain ⟨b, hb, haddr, hbits⟩ := h.found a ptr hptr
      exact ⟨b, List.mem_append_left _ hb, haddr, hbits⟩
    · intro b hb
      rcases List.mem_append.mp hb with hb | hb
      · exact h.entered b hb
      · rw [List.mem_singleton.mp hb]
        exact ⟨sbp, hfind⟩
  | none =>
    obtain ⟨htable, haddrs⟩ := PointerProc.withEntry_of_none hfind
    refine ⟨htable ▸ h.hash, htable ▸ h.cmp, ?_, ?_⟩ <;> rw [htable]
    · rw [haddrs]
      intro a ptr hptr
      rw [h.find_enter, Option.or_eq_some_iff] at hptr
      rcases hptr with hold | ⟨_, hnew⟩
      · obtain ⟨b, hb, haddr, hbits⟩ := h.found a ptr hold
        have hptr := (List.getElem?_eq_some_iff.mp haddr).1
        exact ⟨b, List.mem_append_left _ hb, by rw [List.getElem?_append_left hptr, haddr], hbits⟩
      · obtain ⟨hbits, hptr⟩ := Option.ite_none_right_eq_some.mp hnew
        rw [← Option.some.inj hptr]
        exact ⟨addr, by simp, List.getElem?_concat_length .., hbits.symm⟩
    · intro b hb
      rw [h.find_enter]
      rcases List.mem_append.mp hb with hb | hb
      · obtain ⟨ptr, hptr⟩ := h.entered b hb
        exact ⟨ptr, by rw [hptr, Option.some_or]⟩
      · rw [List.mem_singleton.mp hb, hfind, if_pos rfl]
        exact ⟨_, rfl⟩

/-- The table and the addresses decide what was inserted. -/
theorem Inserted.congr (h : Inserted proc inserted) {proc' : PointerProc n}
    (htable : proc'.table = proc.table) (haddrs : proc'.addrs = proc.addrs) :
    Inserted proc' inserted := by
  obtain ⟨hhash, hcmp, hfound, hentered⟩ := h
  rw [← htable, ← haddrs] at hfound
  rw [← htable] at hhash hcmp hentered
  exact ⟨hhash, hcmp, hfound, hentered⟩

/-- One call. -/
theorem Inserted.insertBreakpoint (h : Inserted proc inserted) (addr : BitVec n) :
    Inserted (proc.insertBreakpoint arch addr) (inserted ++ [addr]) := by
  obtain ⟨haddrs, hbreakpoints⟩ := proc.insertBreakpoint_spec arch addr
  refine (h.withEntry addr).congr ?_ haddrs
  rw [PointerProc.table, hbreakpoints, PointerProc.table]

/-- Insertions of any addresses, one after another. -/
theorem inserted_insertAll (arch : Arch) (pid : Pid) (mem : BitVec n → Byte)
    (addrs : List (BitVec n)) :
    Inserted (PointerProc.insertAll arch { pid := pid, mem := mem } addrs) addrs := by
  induction addrs using List.reverseRecOn with
  | nil => exact inserted_start pid mem
  | append_singleton addrs addr ih =>
    rw [PointerProc.insertAll, List.foldl_append]
    exact ih.insertBreakpoint addr

/-- The table is there after the first call. -/
theorem breakpoints_insertAll (arch : Arch) (pid : Pid) (mem : BitVec n → Byte)
    (addrs : List (BitVec n)) :
    (PointerProc.insertAll arch { pid := pid, mem := mem } addrs).breakpoints = none ↔
      addrs = [] := by
  induction addrs using List.reverseRecOn with
  | nil => exact iff_of_true rfl rfl
  | append_singleton addrs addr _ =>
    rw [PointerProc.insertAll, List.foldl_append]
    refine iff_of_false (fun h => ?_) (by simp)
    exact PointerProc.breakpoints_withEntry _ addr
      ((PointerProc.insertBreakpoint_spec arch _ addr).2 ▸ h)

/-! ## Pointers of 32 bits -/

namespace PointerProc

/-- The entry of an address. -/
def entry (proc : PointerProc n) (a : BitVec n) : Option (Breakpoint (BitVec n)) :=
  (dictFindEntry proc.table a).bind (proc.heap[·]?)

/-- The cell of an address. -/
def cell (proc : PointerProc 32) (a : Addr) : Cell :=
  ⟨(proc.entry a).map (·.enabled), (proc.entry a).bind (·.origValue 0), proc.mem a⟩

variable {inserted : List Addr} {proc : PointerProc 32} {a x : Addr}

/-- A pointer is found for one address only. -/
theorem addr_of_find (h : Inserted proc inserted) (ha : dictFindEntry proc.table a = some sbp) :
    proc.addrs[sbp]? = some a := by
  obtain ⟨b, _, hb, hbits⟩ := h.found a sbp ha
  rw [BitVec.setWidth_eq, BitVec.setWidth_eq] at hbits
  rw [hb, hbits]

/-- An entry is found from its own address only. -/
theorem find_eq_iff (h : Inserted proc inserted) (ha : dictFindEntry proc.table a = some sbp) :
    dictFindEntry proc.table x = some sbp ↔ x = a := by
  constructor
  · intro hx
    exact Option.some.inj ((addr_of_find h hx).symm.trans (addr_of_find h ha))
  · rintro rfl
    exact ha

/-- The entry behind a pointer that is found. -/
theorem exists_entry (h : Inserted proc inserted) (ha : dictFindEntry proc.table a = some sbp) :
    ∃ entry, proc.heap[sbp]? = some entry ∧ entry.addr = a ∧ proc.entry a = some entry := by
  have haddr := addr_of_find h ha
  rw [addrs, List.getElem?_map, Option.map_eq_some_iff] at haddr
  obtain ⟨entry, hentry, rfl⟩ := haddr
  exact ⟨entry, hentry, rfl, by rw [PointerProc.entry, ha, Option.bind_some, hentry]⟩

/-- A write through a pointer that is found changes the entry of its address. -/
theorem entry_write (h : Inserted proc inserted) (ha : dictFindEntry proc.table a = some sbp)
    (proc' : PointerProc 32) {f : Breakpoint Addr → Breakpoint Addr}
    (htable : proc'.table = proc.table) (hwritten : proc'.heap[sbp]? = proc.heap[sbp]?.map f)
    (hkept : ∀ i, sbp ≠ i → proc'.heap[i]? = proc.heap[i]?) (x : Addr) :
    proc'.entry x = if x = a then (proc.entry x).map f else proc.entry x := by
  rw [entry, htable]
  by_cases hx : x = a
  · rw [if_pos hx, hx, ha, entry, ha, Option.bind_some, Option.bind_some, hwritten]
  · have hne : dictFindEntry proc.table x ≠ some sbp := mt (find_eq_iff h ha).mp hx
    rw [if_neg hx, entry]
    cases hfind : dictFindEntry proc.table x with
    | none => rfl
    | some ptr =>
      have hptr : sbp ≠ ptr := by
        rintro rfl
        exact hne hfind
      rw [Option.bind_some, Option.bind_some, hkept ptr hptr]

/-- Counting an entry changes that entry only. -/
theorem entry_bump (h : Inserted proc inserted) (ha : dictFindEntry proc.table a = some sbp)
    (x : Addr) : (proc.bump sbp).entry x = if x = a then
      (proc.entry x).map fun entry => { entry with enabled := entry.enabled + 1 }
    else proc.entry x := by
  apply entry_write h ha (proc.bump sbp) rfl
  · exact List.getElem?_modify_eq ..
  · intro i hi
    exact List.getElem?_modify_ne _ _ hi

/-- The first part of a call gives the address an entry and leaves the others alone. -/
theorem entry_withEntry (h : Inserted proc inserted) (a x : Addr) :
    dictFindEntry (proc.withEntry a).1.table a = some (proc.withEntry a).2 ∧
      (proc.withEntry a).1.entry x = if x = a then
        some ((proc.entry a).getD { addr := a, origValue := fun _ => none, enabled := 0 })
      else proc.entry x := by
  cases hfind : dictFindEntry proc.table a with
  | some sbp =>
    obtain ⟨entry, _, _, hentry⟩ := exists_entry h hfind
    have hwith : proc.withEntry a = ({ proc with breakpoints := some proc.table }, sbp) := by
      rw [withEntry, hfind]
    rw [hwith]
    refine ⟨hfind, ?_⟩
    by_cases hx : x = a
    · rw [if_pos hx, hx, hentry, Option.getD_some]
      exact hentry
    · rw [if_neg hx]
      rfl
  | none =>
    have hlookup : ∀ y, dictFindEntry (proc.withEntry a).1.table y =
        (dictFindEntry proc.table y).or (if y = a then some proc.heap.length else none) := by
      intro y
      rw [(withEntry_of_none hfind).1, h.find_enter, length_addrs, BitVec.setWidth_eq,
        BitVec.setWidth_eq]
    have hheap : (proc.withEntry a).1.heap =
        proc.heap ++ [{ addr := a, origValue := fun _ => none, enabled := 0 }] := by
      rw [withEntry, hfind]
    have hptr : (proc.withEntry a).2 = proc.heap.length := by rw [withEntry, hfind]
    constructor
    · rw [hlookup, hfind, if_pos rfl, hptr]
      rfl
    · rw [entry, hlookup, hheap]
      by_cases hx : x = a
      · rw [if_pos hx, if_pos hx, hx, hfind, entry, hfind, Option.none_or, Option.bind_some,
          List.getElem?_concat_length]
        rfl
      · rw [if_neg hx, if_neg hx, Option.or_none, entry]
        cases hold : dictFindEntry proc.table x with
        | none => rfl
        | some ptr =>
          have hlt := (List.getElem?_eq_some_iff.mp (addr_of_find h hold)).1
          rw [length_addrs] at hlt
          rw [Option.bind_some, Option.bind_some, List.getElem?_append_left hlt]

/-- `enable_breakpoint` through a pointer that is found. -/
theorem cell_enable (h : Inserted proc inserted) (ha : dictFindEntry proc.table a = some sbp)
    (x : Addr) :
    (proc.enable i386 sbp).cell x = if x = a then (proc.cell a).plant else proc.cell x := by
  obtain ⟨entry, hheap, rfl, hentry⟩ := exists_entry h ha
  let planted : Breakpoint Addr :=
    { entry with origValue := Function.update entry.origValue 0 (some (proc.mem entry.addr)) }
  have henable : proc.enable i386 sbp = { proc with
      mem := Function.update proc.mem entry.addr trap, heap := proc.heap.set sbp planted } := by
    rw [enable, hheap]
    simp only [enableBreakpoint_i386]
    rfl
  have hplanted : ∀ y, (proc.enable i386 sbp).entry y =
      if y = entry.addr then (proc.entry y).map fun _ => planted else proc.entry y := by
    apply entry_write h ha (proc.enable i386 sbp) <;> rw [henable]
    · rfl
    · rw [hheap, Option.map_some]
      exact List.getElem?_set_self (List.getElem?_eq_some_iff.mp hheap).1
    · intro i hi
      exact List.getElem?_set_ne hi
  have hmem : (proc.enable i386 sbp).mem x = if x = entry.addr then trap else proc.mem x := by
    rw [henable]
    exact Function.update_apply proc.mem entry.addr trap x
  by_cases hx : x = entry.addr
  · rw [if_pos hx] at hmem ⊢
    rw [hx] at hmem ⊢
    simp [cell, Cell.plant, hplanted, hentry, hmem, planted]
  · rw [if_neg hx] at hmem ⊢
    simp [cell, hplanted, hx, hmem]

/-- Making sure of an entry keeps the pid. -/
@[simp] theorem pid_withEntry (proc : PointerProc n) (a : BitVec n) :
    (proc.withEntry a).1.pid = proc.pid := by
  unfold withEntry
  split <;> rfl

/-- It keeps the memory. -/
@[simp] theorem mem_withEntry (proc : PointerProc n) (a : BitVec n) :
    (proc.withEntry a).1.mem = proc.mem := by
  unfold withEntry
  split <;> rfl

/-- `insert_breakpoint` acts on the cell of its address, as it does in the tracee. -/
theorem cell_insert (h : Inserted proc inserted) (a x : Addr) :
    (proc.insertBreakpoint i386 a).cell x =
      if x = a then (proc.cell a).insert (decide (proc.pid ≠ 0)) else proc.cell x := by
  let bumped := (proc.withEntry a).1.bump (proc.withEntry a).2
  have hfirst := h.withEntry a
  have ha := (entry_withEntry h a a).1
  have hbumped : Inserted bumped (inserted ++ [a]) := hfirst.congr rfl (addrs_bump _ _)
  have hpid : bumped.pid = proc.pid := pid_withEntry proc a
  have hmem : bumped.mem = proc.mem := mem_withEntry proc a
  have hcell : ∀ y, bumped.cell y = if y = a then
      ⟨some ((proc.cell a).refs + 1), (proc.cell a).saved, proc.mem a⟩ else proc.cell y := by
    intro y
    rw [cell, entry_bump hfirst ha, (entry_withEntry h a y).2, hmem]
    by_cases hy : y = a
    · rw [if_pos hy, if_pos hy, if_pos hy, hy]
      cases he : proc.entry a <;> simp [cell, Cell.refs, he]
    · rw [if_neg hy, if_neg hy, if_neg hy]
      rfl
  have hone : bumped.heap[(proc.withEntry a).2]?.map Breakpoint.enabled = some 1 ↔
      (proc.cell a).refs = 0 := by
    have hentry : bumped.heap[(proc.withEntry a).2]? = bumped.entry a := by
      change _ = (dictFindEntry (proc.withEntry a).1.table a).bind _
      rw [ha, Option.bind_some]
    have hcount := congrArg Cell.count (hcell a)
    rw [if_pos rfl] at hcount
    rw [hentry]
    change (bumped.cell a).count = some 1 ↔ _
    rw [hcount, Option.some.injEq]
    omega
  have hdef : proc.insertBreakpoint i386 a = if (proc.cell a).refs = 0 ∧ proc.pid ≠ 0 then
      bumped.enable i386 (proc.withEntry a).2 else bumped := by
    change (if bumped.heap[(proc.withEntry a).2]?.map Breakpoint.enabled = some 1 ∧
      bumped.pid ≠ 0 then _ else _) = _
    simp only [hone, hpid]
    rfl
  rw [hdef]
  by_cases hplant : (proc.cell a).refs = 0 ∧ proc.pid ≠ 0
  · rw [if_pos hplant, cell_enable hbumped ha, hcell, hcell]
    have hbyte : (proc.cell a).byte = proc.mem a := rfl
    by_cases hx : x = a
    · simp [hx, Cell.insert, hplant.1, hplant.2, hbyte]
    · simp [hx]
  · rw [if_neg hplant, hcell]
    by_cases hx : x = a
    · simp only [hx, if_true, Cell.insert, decide_eq_true_eq, hplant, if_false]
      rfl
    · simp [hx]

/-- An insertion keeps the pid. -/
theorem pid_insert (proc : PointerProc 32) (a : Addr) :
    (proc.insertBreakpoint i386 a).pid = proc.pid := by
  unfold insertBreakpoint
  dsimp only
  split
  · rw [← pid_withEntry proc a, enable]
    split <;> rfl
  · exact pid_withEntry proc a

/-- After any calls every address has the same cell as in the tracee. -/
theorem cell_insertAll (pid : Pid) (mem : Addr → Byte) (addrs : List Addr) :
    (∀ x, (insertAll i386 { pid := pid, mem := mem } addrs).cell x =
      (addrs.foldl Utrace.insertBreakpoint { proc := { pid := pid }, mem := mem }).cell x) ∧
    (insertAll i386 { pid := pid, mem := mem } addrs).pid = pid ∧
    (addrs.foldl Utrace.insertBreakpoint { proc := { pid := pid }, mem := mem }).proc.pid =
      pid := by
  induction addrs using List.reverseRecOn with
  | nil =>
    refine ⟨fun x => ?_, rfl, rfl⟩
    have hfind :
        dictFindEntry (dictInit dictKey2hashInt dictKeyCmpInt : Dict Addr Nat) x = none :=
      dictFindEntry_dictInit _ _ x
    change (⟨((dictFindEntry (dictInit dictKey2hashInt dictKeyCmpInt) x).bind _).map _,
      (((dictFindEntry (dictInit dictKey2hashInt dictKeyCmpInt) x).bind _)).bind _, mem x⟩ :
        Cell) = _
    rw [hfind]
    rfl
  | append_singleton addrs a ih =>
    obtain ⟨hcell, hpid, hpid'⟩ := ih
    rw [insertAll, List.foldl_append, List.foldl_append]
    refine ⟨fun x => ?_, (pid_insert _ a).trans hpid,
      (Tracee.pid_of_header (header_insertBreakpoint _ a)).trans hpid'⟩
    refine (cell_insert (inserted_insertAll i386 pid mem addrs) a x).trans ?_
    refine Eq.trans ?_ (cell_insertBreakpoint _ a x).symm
    rw [hcell, hcell, hpid, hpid']

end PointerProc

end Utrace
