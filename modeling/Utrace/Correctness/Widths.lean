import Utrace.Interpretation.Pointers

/-!
# The keys of the table of breakpoints

A pointer of 32 bits is known by its low 32 bits, a wider one is not.
-/

namespace Utrace

variable {n : Nat} {proc : PointerProc n} {inserted : List (BitVec n)} {a b : BitVec n}

/-- A lookup of the address returns no entry or its own, and no other address that was inserted
has its entry. -/
structure KeyedByAddr (proc : PointerProc n) (inserted : List (BitVec n)) (a : BitVec n) :
    Prop where
  own : ∃ found, proc.address2bpstruct a = .ok found ∧ ∀ sbp ∈ found, proc.addrs[sbp]? = some a
  distinct : ∀ b ∈ inserted, a ∈ inserted → a ≠ b → ∀ sbp,
    proc.address2bpstruct a = .ok (some sbp) → proc.address2bpstruct b ≠ .ok (some sbp)

/-- With a table present the breakpoint is looked up in it. -/
theorem address2bpstruct_eq (h : proc.breakpoints ≠ none) (a : BitVec n) :
    proc.address2bpstruct a = .ok (dictFindEntry proc.table a) := by
  obtain ⟨d, hd⟩ := Option.ne_none_iff_exists'.mp h
  rw [PointerProc.address2bpstruct, PointerProc.table, hd]
  rfl

/-- An address known by its value shares its low bits with no other. -/
theorem Inserted.eq_of_keyed (h : Inserted proc inserted) (htable : proc.breakpoints ≠ none)
    (hkeyed : KeyedByAddr proc inserted a) (hb : b ∈ inserted)
    (hbits : b.setWidth 32 = a.setWidth 32) : b = a := by
  obtain ⟨⟨found, hown, haddr⟩, hdistinct⟩ := hkeyed
  obtain ⟨sbp, hsbp⟩ := h.entered b hb
  have hsame : dictFindEntry proc.table a = some sbp := by
    rw [← hsbp]
    exact dictFindEntry_congr h.hash h.cmp hbits.symm
  rw [address2bpstruct_eq htable, hsame] at hown
  obtain ⟨c, hc, hcaddr, _⟩ := h.found a sbp hsame
  have hca : c = a := by
    have haddr := haddr sbp (Except.ok.inj hown ▸ rfl)
    rw [hcaddr] at haddr
    exact Option.some.inj haddr
  by_contra hba
  apply hdistinct b hb (hca ▸ hc) (Ne.symm hba) sbp
  · rw [address2bpstruct_eq htable, hsame]
  · rw [address2bpstruct_eq htable, hsbp]

/-- An address that shares its low bits with no other is known by its value. -/
theorem Inserted.keyed (h : Inserted proc inserted) (htable : proc.breakpoints ≠ none)
    (hbits : ∀ b ∈ inserted, b.setWidth 32 = a.setWidth 32 → b = a) :
    KeyedByAddr proc inserted a := by
  refine ⟨⟨_, address2bpstruct_eq htable a, fun sbp hsbp => ?_⟩,
    fun b hb ha hab sbp hsbp hsbp' => ?_⟩
  · obtain ⟨c, hc, hcaddr, hcbits⟩ := h.found a sbp hsbp
    rw [hcaddr, hbits c hc hcbits]
  · rw [address2bpstruct_eq htable] at hsbp hsbp'
    obtain ⟨c, _, hcaddr, hcbits⟩ := h.found a sbp (Except.ok.inj hsbp)
    obtain ⟨c', _, hcaddr', hcbits'⟩ := h.found b sbp (Except.ok.inj hsbp')
    have hcc : c = c' := Option.some.inj (hcaddr.symm.trans hcaddr')
    apply hab (hbits b hb _).symm
    rw [← hcbits', ← hcc, hcbits]

/-- With pointers of any width, after any calls of `insert_breakpoint` an address is known by its
whole value exactly when there was a call and no other address inserted has its low 32 bits. -/
theorem keyed_by_addr_iff (arch : Arch) (pid : Pid) (mem : BitVec n → Byte)
    (addrs : List (BitVec n)) (a : BitVec n) :
    KeyedByAddr (PointerProc.insertAll arch { pid := pid, mem := mem } addrs) addrs a ↔
      addrs ≠ [] ∧ ∀ b ∈ addrs, b.setWidth 32 = a.setWidth 32 → b = a := by
  have hinserted := inserted_insertAll arch pid mem addrs
  have hnone := breakpoints_insertAll arch pid mem addrs
  by_cases hnil : addrs = []
  · apply iff_of_false
    · rintro ⟨⟨found, hlookup, _⟩, _⟩
      rw [PointerProc.address2bpstruct, hnone.mpr hnil] at hlookup
      cases hlookup
    · exact fun h => h.1 hnil
  · have htable := mt hnone.mp hnil
    constructor
    · intro hkeyed
      exact ⟨hnil, fun b hb hbits => hinserted.eq_of_keyed htable hkeyed hb hbits⟩
    · rintro ⟨_, hbits⟩
      exact hinserted.keyed htable hbits

/-- On i386 the low bits are the whole value. -/
theorem keyed_by_addr_i386 (pid : Pid) (mem : Addr → Byte) {addrs : List Addr}
    (h : addrs ≠ []) (a : Addr) :
    KeyedByAddr (PointerProc.insertAll i386 { pid := pid, mem := mem } addrs) addrs a := by
  apply (inserted_insertAll i386 pid mem addrs).keyed
    (mt (breakpoints_insertAll i386 pid mem addrs).mp h)
  intro b _ hbits
  rwa [BitVec.setWidth_eq, BitVec.setWidth_eq] at hbits

/-- `sysdeps/linux-gnu/x86_64/arch.h` and the eight-byte `long`. -/
def x8664 : Arch where
  sizeofLong := 8
  breakpointLength := 1
  breakInsn := [0xcc]

/-- Under wide pointers two breakpoints 4 GiB apart are one. -/
theorem breakpoints_merged : ¬KeyedByAddr (PointerProc.insertAll x8664
    { mem := fun _ : BitVec 64 => 0x90 } [0x400000, 0x100400000])
      [0x400000, 0x100400000] 0x100400000 := by
  intro hkeyed
  have htable := mt (breakpoints_insertAll x8664 0 (fun _ : BitVec 64 => 0x90)
    [0x400000, 0x100400000]).mp (List.cons_ne_nil _ _)
  have hsame := (inserted_insertAll x8664 0 _ _).eq_of_keyed htable hkeyed
    (b := 0x400000) (by decide) (by decide)
  exact absurd hsame (by decide)

end Utrace
