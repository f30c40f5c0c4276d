import Utrace.Core.Strings
import Utrace.Native.Elf

/-!
# The symbols read from a file

`read_elf` adds the global functions of the section `.text`. It looks up the section of a symbol
before its type, and so for symbols that have no section too.
-/

namespace Utrace

variable {mem : Addr → Byte} {maddr : Addr} {lte : Ltelf} {i k n : Nat}
  {s : Ltelf × List Nat} {sym : ElfSym}

/-! ## The file -/

/-- `e_shnum`. -/
def shnum (mem : Addr → Byte) (maddr : Addr) : Nat := (elfEhdr mem maddr).eShnum.toNat

/-- The section header table. -/
def sectionHeader (mem : Addr → Byte) (maddr : Addr) (i : Nat) : ElfShdr :=
  elfShdr mem (maddr + (elfEhdr mem maddr).eShoff) i

/-- The header table is complete, with one symbol table in section `k`. -/
structure ValidElf (mem : Addr → Byte) (maddr : Addr) (k : Nat) : Prop where
  shstrndx : (elfEhdr mem maddr).eShstrndx.toNat < shnum mem maddr
  symtab_lt : k < shnum mem maddr
  symtab : (sectionHeader mem maddr k).shType = shtSymtab
  unique : ∀ i < shnum mem maddr, (sectionHeader mem maddr i).shType = shtSymtab → i = k
  link : ∀ i < shnum mem maddr, (sectionHeader mem maddr i).shType = shtDynsym ∨
    (sectionHeader mem maddr i).shType = shtSymtab →
    (sectionHeader mem maddr i).shLink.toNat < shnum mem maddr

/-- The symbols of section `k`, in the order of the table. -/
def elfSymbols (mem : Addr → Byte) (maddr : Addr) (k : Nat) : List ElfSym :=
  (List.range ((sectionHeader mem maddr k).shSize.toNat / sizeofSym)).map
    (elfSym mem (maddr + (sectionHeader mem maddr k).shOffset))

/-- The section of the symbol is named `.text`. -/
def InText (mem : Addr → Byte) (maddr : Addr) (sym : ElfSym) : Prop :=
  sym.stShndx.toNat < shnum mem maddr ∧
    Memory.StringAt mem (maddr +
        (sectionHeader mem maddr (elfEhdr mem maddr).eShstrndx.toNat).shOffset +
      (sectionHeader mem maddr sym.stShndx.toNat).shName) textName

/-- A defined symbol of default visibility, which the loop looks up the section of. -/
def LooksUp (sym : ElfSym) : Prop := sym.stValue ≠ 0 ∧ sym.stSize ≠ 0 ∧ sym.stOther = 0

/-- A global function of `.text`. -/
def GlobalFunction (mem : Addr → Byte) (maddr : Addr) (sym : ElfSym) : Prop :=
  sym.stInfo >>> 4 = stbGlobal ∧ sym.stInfo &&& 0xf = sttFunc ∧ LooksUp sym ∧
    InText mem maddr sym

/-! ## Comparing a name -/

/-- A comparison is equal exactly if the string is there. -/
theorem strcmpEq_iff {a : Addr} {str : List Byte} (h : 0 ∉ str) :
    strcmpEq mem a str ↔ Memory.StringAt mem a str := by
  induction str generalizing a with
  | nil => rw [strcmpEq, decide_eq_true_eq, Memory.stringAt_nil]
  | cons c str ih =>
    obtain ⟨hc, hstr⟩ := not_or.mp (mt List.mem_cons.mpr h)
    rw [strcmpEq, Bool.and_eq_true, decide_eq_true_eq, ih hstr, Memory.stringAt_cons]
    exact and_congr_right fun _ => (and_iff_right (Ne.symm hc)).symm

instance (sym : ElfSym) : Decidable (InText mem maddr sym) :=
  decidable_of_iff (sym.stShndx.toNat < shnum mem maddr ∧
    strcmpEq mem (maddr + (sectionHeader mem maddr (elfEhdr mem maddr).eShstrndx.toNat).shOffset +
      (sectionHeader mem maddr sym.stShndx.toNat).shName) textName)
    (and_congr_right fun _ => strcmpEq_iff (by decide))

instance (sym : ElfSym) : Decidable (LooksUp sym) := by
  unfold LooksUp
  infer_instance

instance : DecidablePred (GlobalFunction mem maddr) := fun sym => by
  unfold GlobalFunction
  infer_instance

/-! ## The sections -/

/-- After `n` turns the indices used are in the table, and the symbol table is found once its
section is passed. -/
structure Loaded (mem : Addr → Byte) (maddr : Addr) (k n : Nat) (s : Ltelf × List Nat) : Prop where
  mapped : s.1.maddr = maddr
  inside : ∀ i ∈ s.2, i < shnum mem maddr
  symtab : k < n → s.1.localSymtab = maddr + (sectionHeader mem maddr k).shOffset ∧
    s.1.localSymtabLen = (sectionHeader mem maddr k).shSize ∧
    s.1.localStrtab = maddr +
      (sectionHeader mem maddr (sectionHeader mem maddr k).shLink.toNat).shOffset

/-- A section header is read from the file. -/
theorem shdr_eq (h : lte.maddr = maddr) (i : Nat) : lte.shdr mem i = sectionHeader mem maddr i := by
  rw [Ltelf.shdr, Ltelf.ehdr, h]
  rfl

/-- Where the indices of one turn come from. -/
theorem mem_loadSection {j : Nat} (hmapped : s.1.maddr = maddr)
    (hj : j ∈ (loadSection mem true s n).2) : j ∈ s.2 ∨ j = n ∨
      j = (sectionHeader mem maddr n).shLink.toNat ∧
        ((sectionHeader mem maddr n).shType = shtDynsym ∨
          (sectionHeader mem maddr n).shType = shtSymtab) := by
  simp only [loadSection, shdr_eq hmapped] at hj
  -- no section is of both types
  by_cases hdyn : (sectionHeader mem maddr n).shType = shtDynsym
  · have hsymtab : (sectionHeader mem maddr n).shType ≠ shtSymtab := by
      rw [hdyn]
      decide
    rw [if_pos hdyn, if_neg fun h => hsymtab h.2, List.mem_append, List.mem_append,
      List.mem_singleton, List.mem_singleton] at hj
    rcases hj with (hj | hj) | hj
    · exact Or.inl hj
    · exact Or.inr (Or.inl hj)
    · exact Or.inr (Or.inr ⟨hj, Or.inl hdyn⟩)
  · by_cases hsymtab : (sectionHeader mem maddr n).shType = shtSymtab
    · rw [if_neg hdyn, if_pos ⟨trivial, hsymtab⟩, List.mem_append, List.mem_append,
        List.mem_singleton, List.mem_singleton] at hj
      rcases hj with (hj | hj) | hj
      · exact Or.inl hj
      · exact Or.inr (Or.inl hj)
      · exact Or.inr (Or.inr ⟨hj, Or.inr hsymtab⟩)
    · rw [if_neg hdyn, if_neg fun h => hsymtab h.2, List.mem_append, List.mem_singleton] at hj
      rcases hj with hj | hj
      · exact Or.inl hj
      · exact Or.inr (Or.inl hj)

/-- Loading sections keeps the address of the file. -/
theorem maddr_loadSection (s : Ltelf × List Nat) (n : Nat) :
    (loadSection mem true s n).1.maddr = s.1.maddr := by
  simp only [loadSection]
  split <;> split <;> rfl

/-- The turn of a symbol table. -/
theorem local_loadSection (hmapped : s.1.maddr = maddr)
    (htype : (sectionHeader mem maddr n).shType = shtSymtab) :
    (loadSection mem true s n).1.localSymtab = maddr + (sectionHeader mem maddr n).shOffset ∧
      (loadSection mem true s n).1.localSymtabLen = (sectionHeader mem maddr n).shSize ∧
      (loadSection mem true s n).1.localStrtab = maddr +
        (sectionHeader mem maddr (sectionHeader mem maddr n).shLink.toNat).shOffset := by
  have hdyn : (sectionHeader mem maddr n).shType ≠ shtDynsym := by
    rw [htype]
    decide
  simp only [loadSection, shdr_eq hmapped]
  rw [if_neg hdyn, if_pos ⟨trivial, htype⟩, hmapped]
  exact ⟨rfl, rfl, rfl⟩

/-- Other turns leave what was found alone. -/
theorem local_loadSection_of_ne (hmapped : s.1.maddr = maddr)
    (htype : (sectionHeader mem maddr n).shType ≠ shtSymtab) :
    (loadSection mem true s n).1.localSymtab = s.1.localSymtab ∧
      (loadSection mem true s n).1.localSymtabLen = s.1.localSymtabLen ∧
      (loadSection mem true s n).1.localStrtab = s.1.localStrtab := by
  simp only [loadSection, shdr_eq hmapped]
  rw [if_neg fun h => htype h.2]
  split <;> exact ⟨rfl, rfl, rfl⟩

/-- Loading one more section. -/
theorem Loaded.step (hvalid : ValidElf mem maddr k) (h : Loaded mem maddr k n s)
    (hn : n < shnum mem maddr) : Loaded mem maddr k (n + 1) (loadSection mem true s n) := by
  refine ⟨(maddr_loadSection s n).trans h.mapped, fun j hj => ?_, fun hk => ?_⟩
  · rcases mem_loadSection h.mapped hj with hmem | rfl | ⟨rfl, htype⟩
    · exact h.inside j hmem
    · exact hn
    · exact hvalid.link n hn htype
  · rcases Nat.lt_succ_iff_lt_or_eq.mp hk with hlt | rfl
    · have htype : (sectionHeader mem maddr n).shType ≠ shtSymtab := fun htype =>
        hlt.ne' (hvalid.unique n hn htype)
      obtain ⟨hsymtab, hlength, hstrtab⟩ := local_loadSection_of_ne h.mapped htype
      rw [hsymtab, hlength, hstrtab]
      exact h.symtab hlt
    · exact local_loadSection h.mapped hvalid.symtab

/-- So any sections are loaded. -/
theorem loaded_range (hvalid : ValidElf mem maddr k) (hn : n ≤ shnum mem maddr) :
    Loaded mem maddr k n
      ((List.range n).foldl (loadSection mem true) ({ maddr := maddr }, [])) := by
  induction n with
  | zero => exact ⟨rfl, fun i hi => absurd hi List.not_mem_nil, fun hk => absurd hk k.not_lt_zero⟩
  | succ n ih =>
    rw [List.range_succ, List.foldl_append]
    exact (ih (Nat.le_of_succ_le hn)).step hvalid hn

/-- What is found in a complete file. -/
theorem doLoadElfSymtab_spec (hvalid : ValidElf mem maddr k) :
    Loaded mem maddr k (shnum mem maddr) (doLoadElfSymtab mem true { maddr := maddr }) ∧
      (doLoadElfSymtab mem true { maddr := maddr }).1.localShstrtab =
        maddr + (sectionHeader mem maddr (elfEhdr mem maddr).eShstrndx.toNat).shOffset := by
  have h := loaded_range hvalid le_rfl
  refine ⟨⟨h.mapped, fun i hi => ?_, h.symtab⟩, ?_⟩
  · rcases List.mem_append.mp hi with hi | hi
    · exact h.inside i hi
    · rw [List.mem_singleton.mp hi]
      exact hvalid.shstrndx
  · exact congrArg₂ (fun base header => base + ElfShdr.shOffset header) h.mapped
      (shdr_eq h.mapped _)

/-! ## The symbols -/

/-- The element of the list for a symbol. -/
def elfSymbol (strtab : Addr) (sym : ElfSym) : ElfSymbol where
  enterAddr := sym.stValue
  name := strtab + sym.stName

/-- The sign of `st_info` does not show in the binding that is looked for. -/
theorem sshiftRight_eq_stbGlobal (info : Byte) :
    info.sshiftRight 4 = stbGlobal ↔ info >>> 4 = stbGlobal := by
  revert info
  decide

/-- The condition of the loop, in one name. -/
theorem looksUp_iff : sym.stValue ≠ 0 ∧ sym.stSize > 0 ∧ sym.stOther = 0 ↔ LooksUp sym := by
  have hsize : sym.stSize > 0 ↔ sym.stSize ≠ 0 := by
    rw [gt_iff_lt, BitVec.lt_def, Ne, ← BitVec.toNat_inj]
    exact Nat.pos_iff_ne_zero
  rw [hsize, LooksUp]

variable {found : List ElfSymbol × List Nat}

/-- The index of a section is used for each symbol looked up. -/
theorem readSymbol_snd (found : List ElfSymbol × List Nat) (i : Nat) :
    (readSymbol mem lte found i).2 = found.2 ++
      if LooksUp (elfSym mem lte.localSymtab i) then
        [(elfSym mem lte.localSymtab i).stShndx.toNat] else [] := by
  simp only [readSymbol, looksUp_iff]
  split
  · split <;> rfl
  · exact (List.append_nil _).symm

/-- Where the section exists, the symbol is added if it is a global function of `.text`. -/
theorem readSymbol_fst (hmapped : lte.maddr = maddr) (hshstrtab : lte.localShstrtab =
      maddr + (sectionHeader mem maddr (elfEhdr mem maddr).eShstrndx.toNat).shOffset)
    (hshndx : LooksUp (elfSym mem lte.localSymtab i) →
      (elfSym mem lte.localSymtab i).stShndx.toNat < shnum mem maddr) :
    (readSymbol mem lte found i).1 =
      if GlobalFunction mem maddr (elfSym mem lte.localSymtab i) then
        elfSymbol lte.localStrtab (elfSym mem lte.localSymtab i) :: found.1 else found.1 := by
  have hadds : strcmpEq mem (lte.localShstrtab +
        (lte.shdr mem (elfSym mem lte.localSymtab i).stShndx.toNat).shName) textName ∧
      (elfSym mem lte.localSymtab i).stInfo &&& 0xf = sttFunc ∧
      (elfSym mem lte.localSymtab i).stInfo.sshiftRight 4 = stbGlobal ↔
      Memory.StringAt mem (maddr +
          (sectionHeader mem maddr (elfEhdr mem maddr).eShstrndx.toNat).shOffset +
        (sectionHeader mem maddr (elfSym mem lte.localSymtab i).stShndx.toNat).shName) textName ∧
      (elfSym mem lte.localSymtab i).stInfo &&& 0xf = sttFunc ∧
      (elfSym mem lte.localSymtab i).stInfo >>> 4 = stbGlobal := by
    rw [hshstrtab, shdr_eq hmapped, strcmpEq_iff (by decide), sshiftRight_eq_stbGlobal]
  simp only [readSymbol, looksUp_iff]
  by_cases hlooks : LooksUp (elfSym mem lte.localSymtab i)
  · rw [if_pos hlooks]
    by_cases hglobal : GlobalFunction mem maddr (elfSym mem lte.localSymtab i)
    · rw [if_pos hglobal, if_pos (hadds.mpr ⟨hglobal.2.2.2.2, hglobal.2.1, hglobal.1⟩)]
      rfl
    · rw [if_neg hglobal, if_neg]
      intro h
      obtain ⟨hname, htype, hbind⟩ := hadds.mp h
      exact hglobal ⟨hbind, htype, hlooks, hshndx hlooks, hname⟩
  · rw [if_neg hlooks, if_neg fun h => hlooks h.2.2.1]

/-- The indices the loop uses. -/
theorem foldl_readSymbol_snd (found : List ElfSymbol × List Nat) (is : List Nat) :
    (is.foldl (readSymbol mem lte) found).2 = found.2 ++
      ((is.map (elfSym mem lte.localSymtab)).filter LooksUp).map (·.stShndx.toNat) := by
  induction is generalizing found with
  | nil => exact (List.append_nil _).symm
  | cons i is ih =>
    rw [List.foldl_cons, ih, readSymbol_snd, List.append_assoc, List.map_cons, List.filter_cons]
    split <;> simp_all

/-- The symbols the loop adds. -/
theorem foldl_readSymbol_fst (hmapped : lte.maddr = maddr) (hshstrtab : lte.localShstrtab =
      maddr + (sectionHeader mem maddr (elfEhdr mem maddr).eShstrndx.toNat).shOffset)
    (found : List ElfSymbol × List Nat) (is : List Nat)
    (hshndx : ∀ sym ∈ is.map (elfSym mem lte.localSymtab), LooksUp sym →
      sym.stShndx.toNat < shnum mem maddr) :
    (is.foldl (readSymbol mem lte) found).1 =
      (((is.map (elfSym mem lte.localSymtab)).filter (GlobalFunction mem maddr)).map
        (elfSymbol lte.localStrtab)).reverse ++ found.1 := by
  induction is generalizing found with
  | nil => rfl
  | cons i is ih =>
    obtain ⟨hfirst, hrest⟩ := List.forall_mem_cons.mp hshndx
    rw [List.foldl_cons, ih _ hrest, readSymbol_fst hmapped hshstrtab hfirst, List.map_cons,
      List.filter_cons]
    split <;> simp_all

/-! ## The result -/

/-- The global functions of `.text`, the last one of the table first. -/
def globalFunctions (mem : Addr → Byte) (maddr : Addr) (k : Nat) : List ElfSymbol :=
  (((elfSymbols mem maddr k).filter (GlobalFunction mem maddr)).map (elfSymbol
    (maddr + (sectionHeader mem maddr (sectionHeader mem maddr k).shLink.toNat).shOffset))).reverse

/-- In a complete file the header table is indexed inside its bounds only and the global functions
of `.text` are returned, each once, in reverse order, exactly when every defined symbol of default
visibility has a section. -/
theorem read_elf_iff (hvalid : ValidElf mem maddr k) :
    ((∀ i ∈ (readElf mem maddr).2, i < shnum mem maddr) ∧
      (readElf mem maddr).1 = globalFunctions mem maddr k) ↔
      ∀ sym ∈ elfSymbols mem maddr k, LooksUp sym → sym.stShndx.toNat < shnum mem maddr := by
  obtain ⟨hloaded, hshstrtab⟩ := doLoadElfSymtab_spec hvalid
  obtain ⟨hsymtab, hlength, hstrtab⟩ := hloaded.symtab hvalid.symtab_lt
  have hsymbols :
      (List.range ((doLoadElfSymtab mem true { maddr := maddr }).1.localSymtabLen.toNat /
          sizeofSym)).map (elfSym mem (doLoadElfSymtab mem true { maddr := maddr }).1.localSymtab) =
        elfSymbols mem maddr k := by
    rw [hlength, hsymtab]
    rfl
  constructor
  · rintro ⟨hinside, _⟩ sym hsym hlooks
    apply hinside
    rw [readElf, foldl_readSymbol_snd, hsymbols]
    apply List.mem_append_right
    exact List.mem_map_of_mem (List.mem_filter.mpr ⟨hsym, decide_eq_true hlooks⟩)
  · intro hshndx
    constructor
    · intro i hi
      rw [readElf, foldl_readSymbol_snd, hsymbols] at hi
      rcases List.mem_append.mp hi with hi | hi
      · exact hloaded.inside i hi
      · obtain ⟨sym, hsym, rfl⟩ := List.mem_map.mp hi
        obtain ⟨hmem, hlooks⟩ := List.mem_filter.mp hsym
        exact hshndx sym hmem (of_decide_eq_true hlooks)
    · rw [readElf, foldl_readSymbol_fst hloaded.mapped hshstrtab, hsymbols, hstrtab,
        List.append_nil]
      · rfl
      · rw [hsymbols]
        exact hshndx

/-! ## A small file -/

/-- A section header with small fields. -/
def shdrBytes (name type offset size link : Byte) : List Byte :=
  [name, 0, 0, 0, type, 0, 0, 0] ++ List.replicate 8 0 ++
    [offset, 0, 0, 0, size, 0, 0, 0, link, 0, 0, 0] ++ List.replicate 12 0

/-- Code, a table with one global function, and the strings; the function is said to be in
section `shndx`. -/
def elfBytes (shndx : BitVec 16) : List Byte :=
  List.flatten [
    [0x7f, 0x45, 0x4c, 0x46], List.replicate 28 0, [52, 0, 0, 0], List.replicate 12 0,
    [4, 0, 3, 0], List.replicate 40 0, shdrBytes 1 1 0 0 0, shdrBytes 0 2 212 16 3,
    shdrBytes 0 3 228 9 0, [7, 0, 0, 0, 1, 0, 0, 0, 4, 0, 0, 0, 0x12, 0],
    [shndx.setWidth 8, (shndx >>> 8).setWidth 8], [0], textName, [0, 0x66, 0]]

/-- The file mapped at zero. -/
def elfMem (shndx : BitVec 16) (a : Addr) : Byte := (elfBytes shndx).getD a.toNat 0

/-- A file with one function. -/
theorem read_elf_function :
    (∀ i ∈ (readElf (elfMem 1) 0).2, i < shnum (elfMem 1) 0) ∧
      (readElf (elfMem 1) 0).1 = globalFunctions (elfMem 1) 0 2 :=
  (read_elf_iff ⟨by decide, by decide, by decide, by decide, by decide⟩).mpr (by decide)

/-- An absolute symbol, `SHN_ABS`, with a size: its section is looked up far behind the table of
four headers. -/
theorem section_of_absolute : ValidElf (elfMem 0xfff1) 0 2 ∧
    (∀ sym ∈ elfSymbols (elfMem 0xfff1) 0 2,
      sym.stShndx.toNat < shnum (elfMem 0xfff1) 0 ∨ 0xff00 ≤ sym.stShndx.toNat) ∧
    ¬∀ i ∈ (readElf (elfMem 0xfff1) 0).2, i < shnum (elfMem 0xfff1) 0 :=
  ⟨⟨by decide, by decide, by decide, by decide, by decide⟩, by decide, by decide⟩

end Utrace
