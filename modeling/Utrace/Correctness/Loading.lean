import Utrace.Correctness.Elf
import Utrace.Correctness.SymbolList
import Utrace.Interpretation.Ready

/-!
# From the file to the planted traps

The symbols `read_elf` finds in a complete file go through the options `-e` into the table of
breakpoints, and the first event plants them: the text then differs from what it was at the
functions selected, and nowhere else.
-/

namespace Utrace

variable {mem : Addr → Byte} {maddr : Addr} {k : Nat} {optargs : List (List Char)}

/-! ## Names -/

/-- The text of a name, one character for each byte. -/
def textOf (name : List Byte) : String := String.ofList (name.map fun b => Char.ofNat b.toNat)

/-- The record utrace keeps of a symbol: its address, and its name as text. -/
structure Named (mem : Addr → Byte) (e : ElfSymbol) (sym : LibrarySymbol) : Prop where
  addr : sym.enterAddr = e.enterAddr
  name : ∃ name, Memory.StringAt mem e.name name ∧ sym.name = textOf name

/-- The function is one of those the options ask for; without options, every function is. -/
def Selected (optargs : List (List Char)) (name : String) : Prop :=
  optargs = [] ∨ (name.toList ∈ listedValues optargs ↔ optargs.any negated = false)

/-- A selected global function of `.text` begins at the address. -/
def SelectedAt (mem : Addr → Byte) (maddr : Addr) (k : Nat) (optargs : List (List Char))
    (a : Addr) : Prop :=
  ∃ sym ∈ elfSymbols mem maddr k, GlobalFunction mem maddr sym ∧ sym.stValue = a ∧
    ∃ name, Memory.StringAt mem (maddr +
        (sectionHeader mem maddr (sectionHeader mem maddr k).shLink.toNat).shOffset +
      sym.stName) name ∧ Selected optargs (textOf name)

/-! ## The symbols of a complete file -/

/-- Of a complete file `read_elf` returns the global functions. -/
theorem readElf_eq (hvalid : ValidElf mem maddr k)
    (hsections : ∀ sym ∈ elfSymbols mem maddr k, LooksUp sym →
      sym.stShndx.toNat < shnum mem maddr) :
    (readElf mem maddr).1 = globalFunctions mem maddr k := by
  obtain ⟨hloaded, hshstrtab⟩ := doLoadElfSymtab_spec hvalid
  obtain ⟨hsymtab, hlength, hstrtab⟩ := hloaded.symtab hvalid.symtab_lt
  have hsymbols :
      (List.range ((doLoadElfSymtab mem true { maddr := maddr }).1.localSymtabLen.toNat /
          sizeofSym)).map (elfSym mem (doLoadElfSymtab mem true { maddr := maddr }).1.localSymtab) =
        elfSymbols mem maddr k := by
    rw [hlength, hsymtab]
    rfl
  rw [readElf, foldl_readSymbol_fst hloaded.mapped hshstrtab, hsymbols, hstrtab, List.append_nil]
  · rfl
  · rw [hsymbols]
    exact hsections

/-! ## The options -/

/-- With options of a value each symbol is kept as it is selected. -/
theorem keepSymbol_selected (env : Env) {sym : LibrarySymbol} (hname : sym.name ≠ "")
    (hne : optargs ≠ []) :
    keepSymbol (env.withOptE (processOptionsE optargs)) sym = true ↔
      Selected optargs sym.name := by
  obtain ⟨hmem, henable⟩ := processOptionsE_eq hname optargs
  rw [keepSymbol_eq]
  simp only [Env.withOptE, hmem, henable, Selected, hne, false_or]
  cases optargs.any negated <;> by_cases hin : sym.name.toList ∈ listedValues optargs <;>
    simp [hin]

/-- The symbols that end up in the list are those selected. -/
theorem mem_symbolsOf {env : Env} {filename : String} (hoptL : env.optL = true)
    (hvalue : optargs = [] ∨ ∃ value ∈ listedValues optargs, value ≠ [])
    (hnames : ∀ sym ∈ env.readElf filename, sym.name ≠ "") (sym : LibrarySymbol) :
    sym ∈ symbolsOf (env.withOptE (processOptionsE optargs)) (some filename) ↔
      sym ∈ env.readElf filename ∧ Selected optargs sym.name := by
  have hL : (env.withOptE (processOptionsE optargs)).optL = true := hoptL
  unfold symbolsOf
  rw [hL]
  dsimp only
  rcases hvalue with rfl | ⟨value, hvalue, hne⟩
  · have hempty : (env.withOptE (processOptionsE [])).opte.isEmpty = true := rfl
    rw [hempty, if_pos rfl]
    exact (and_iff_left (Or.inl rfl)).symm
  · have hoptargs : optargs ≠ [] := by
      rintro rfl
      cases hvalue
    have hopte : (env.withOptE (processOptionsE optargs)).opte.isEmpty = false := by
      have hname : String.ofList value ≠ "" := by simpa using hne
      have hin := (processOptionsE_eq hname optargs).1.mpr (by simpa using hvalue)
      rw [List.isEmpty_eq_false_iff]
      exact List.ne_nil_of_mem hin
    rw [hopte, if_neg Bool.false_ne_true, List.mem_filter]
    exact and_congr_right fun hsym => keepSymbol_selected env (hnames sym hsym) hoptargs

/-! ## The addresses -/

/-- Lists that are related element by element. -/
theorem exists_of_forall₂ {α β : Type*} {R : α → β → Prop} {l : List α} {l' : List β}
    (h : List.Forall₂ R l l') :
    (∀ a ∈ l, ∃ b ∈ l', R a b) ∧ ∀ b ∈ l', ∃ a ∈ l, R a b := by
  induction h with
  | nil => exact ⟨nofun, nofun⟩
  | cons hab _ ih =>
    refine ⟨List.forall_mem_cons.mpr ⟨⟨_, List.mem_cons_self .., hab⟩, fun a ha => ?_⟩,
      List.forall_mem_cons.mpr ⟨⟨_, List.mem_cons_self .., hab⟩, fun b hb => ?_⟩⟩
    · obtain ⟨b, hb, hR⟩ := ih.1 a ha
      exact ⟨b, List.mem_cons_of_mem _ hb, hR⟩
    · obtain ⟨a, ha, hR⟩ := ih.2 b hb
      exact ⟨a, List.mem_cons_of_mem _ ha, hR⟩

/-- A global function is the symbol of one. -/
theorem mem_globalFunctions {e : ElfSymbol} :
    e ∈ globalFunctions mem maddr k ↔
      ∃ sym ∈ elfSymbols mem maddr k, GlobalFunction mem maddr sym ∧
        elfSymbol (maddr +
          (sectionHeader mem maddr (sectionHeader mem maddr k).shLink.toNat).shOffset) sym = e := by
  simp [globalFunctions, and_assoc]

/-- The selected functions of the file are the symbols of the list, address by address. -/
theorem selectedAt_iff {env : Env} {filename : String} (hoptL : env.optL = true)
    (hvalue : optargs = [] ∨ ∃ value ∈ listedValues optargs, value ≠ [])
    (hnames : ∀ sym ∈ env.readElf filename, sym.name ≠ "")
    (hnamed : List.Forall₂ (Named mem) (globalFunctions mem maddr k) (env.readElf filename))
    (a : Addr) :
    SelectedAt mem maddr k optargs a ↔
      symbolRefs (symbolsOf (env.withOptE (processOptionsE optargs)) (some filename)) a ≠ 0 := by
  have hkept := mem_symbolsOf hoptL hvalue hnames
  obtain ⟨hforth, hback⟩ := exists_of_forall₂ hnamed
  have hrefs : symbolRefs (symbolsOf (env.withOptE (processOptionsE optargs)) (some filename)) a ≠
      0 ↔ ∃ sym ∈ env.readElf filename, Selected optargs sym.name ∧ sym.enterAddr = a := by
    rw [symbolRefs, Ne, List.countP_eq_zero]
    simp only [decide_eq_true_eq, not_forall, not_not]
    constructor
    · rintro ⟨sym, hsym, haddr⟩
      obtain ⟨hmem, hselected⟩ := (hkept sym).mp hsym
      exact ⟨sym, hmem, hselected, haddr⟩
    · rintro ⟨sym, hmem, hselected, haddr⟩
      exact ⟨sym, (hkept sym).mpr ⟨hmem, hselected⟩, haddr⟩
  rw [hrefs]
  constructor
  · rintro ⟨sym, hsym, hglobal, haddr, name, hname, hselected⟩
    obtain ⟨lib, hlib, hlibaddr, name', hname', hlibname⟩ :=
      hforth _ (mem_globalFunctions.mpr ⟨sym, hsym, hglobal, rfl⟩)
    have hsame : name' = name := hname'.unique hname
    exact ⟨lib, hlib, by rwa [hlibname, hsame], hlibaddr.trans haddr⟩
  · rintro ⟨lib, hlib, hselected, haddr⟩
    obtain ⟨e, he, hlibaddr, name, hname, hlibname⟩ := hback lib hlib
    obtain ⟨sym, hsym, hglobal, rfl⟩ := mem_globalFunctions.mp he
    exact ⟨sym, hsym, hglobal, hlibaddr.symm.trans haddr, name, hname, by rwa [← hlibname]⟩

/-! ## The first event -/

/-- At the first event the text becomes a trap where a symbol of the list is, and stays as it is
elsewhere. -/
theorem mem_enableAll_opened (env : Env) (filename : String) (pid : Pid) (text : Addr → Byte)
    (a : Addr) :
    (enableAllBreakpoints (openTracee env filename pid text)).mem a =
      if symbolRefs (symbolsOf env (some filename)) a = 0 then text a else trap := by
  have hbe : (openTracee env filename pid text).proc.breakpointsEnabled = -1 :=
    congrArg Process.breakpointsEnabled (header_openTracee env filename pid text)
  have hcell := cell_enableAllBreakpoints (openTracee env filename pid text) a
  rw [if_pos (by rw [hbe]; decide), cell_openTracee] at hcell
  have hbyte := congrArg Cell.byte hcell
  change (enableAllBreakpoints (openTracee env filename pid text)).mem a = _ at hbyte
  rw [hbyte]
  by_cases hz : symbolRefs (symbolsOf env (some filename)) a = 0
  · simp [hz, Cell.enable, Cell.refs]
  · simp [hz, Cell.enable, Cell.refs, Cell.plant]

variable {ι : Type*} [DecidableEq ι]

/-- The first event of a process enables the breakpoints of its file. -/
theorem step_opened (env : Env) (filename : String) (pid : Pid) (text : Addr → Byte)
    (tid : ι → Pid) (i : ι) (stop : Stop) :
    ∃ s, (Sys.opened env filename pid text tid).step env (.stop i stop) = some s ∧
      s.tracee = enableAllBreakpoints (openTracee env filename pid text) := by
  have hbe : (openTracee env filename pid text).proc.breakpointsEnabled = -1 :=
    congrArg Process.breakpointsEnabled (header_openTracee env filename pid text)
  have hfirst : handle env ((Sys.opened env filename pid text tid).focus i stop) stop = _ :=
    handle_first hbe
  exact ⟨_, Sys.step_stop_eq_some.mpr ⟨rfl, _, hfirst, rfl⟩, rfl⟩

/-- For every complete file whose defined symbols have sections, and every sequence of options
`-e`: the first event of a process opened on the file turns the bytes at the selected global
functions of `.text` into traps, and leaves every other byte of the process alone. -/
theorem planted_from_file {env : Env} {filename : String} (hvalid : ValidElf mem maddr k)
    (hsections : ∀ sym ∈ elfSymbols mem maddr k, LooksUp sym →
      sym.stShndx.toNat < shnum mem maddr)
    (hnamed : List.Forall₂ (Named mem) (readElf mem maddr).1 (env.readElf filename))
    (hoptL : env.optL = true)
    (hvalue : optargs = [] ∨ ∃ value ∈ listedValues optargs, value ≠ [])
    (hnames : ∀ sym ∈ env.readElf filename, sym.name ≠ "") (pid : Pid) (text : Addr → Byte)
    (tid : ι → Pid) (i : ι) (stop : Stop) :
    ∃ s, (Sys.opened (env.withOptE (processOptionsE optargs)) filename pid text tid).step
        (env.withOptE (processOptionsE optargs)) (.stop i stop) = some s ∧
      ∀ a, (SelectedAt mem maddr k optargs a → s.tracee.mem a = trap) ∧
        (¬SelectedAt mem maddr k optargs a → s.tracee.mem a = text a) := by
  rw [readElf_eq hvalid hsections] at hnamed
  obtain ⟨s, hs, htracee⟩ := step_opened (env.withOptE (processOptionsE optargs)) filename pid text
    tid i stop
  refine ⟨s, hs, fun a => ?_⟩
  have hselected := selectedAt_iff hoptL hvalue hnames hnamed a
  rw [htracee, mem_enableAll_opened]
  constructor
  · intro hat
    exact if_neg (hselected.mp hat)
  · intro hat
    exact if_pos (not_not.mp fun hne => hat (hselected.mpr hne))

/-- The symbols of the small file, as utrace keeps them. -/
def smallFile : Env where
  optL := true
  readElf _ := [⟨"f", 1⟩]

/-- The small file is complete. -/
theorem validElf_small : ValidElf (elfMem 1) 0 2 :=
  ⟨by decide, by decide, by decide, by decide, by decide⟩

/-- The name `f` is in it. -/
theorem stringAt_small : Memory.StringAt (elfMem 1) 235 [0x66] :=
  Memory.stringAt_cons.mpr ⟨by decide, by decide, Memory.stringAt_nil.mpr (by decide)⟩

/-- Its function has that name. -/
theorem named_small :
    List.Forall₂ (Named (elfMem 1)) (readElf (elfMem 1) 0).1 (smallFile.readElf "a") := by
  have hread : (readElf (elfMem 1) 0).1 = [⟨1, 235⟩] := by decide
  rw [hread]
  exact .cons ⟨rfl, [0x66], stringAt_small, by decide⟩ .nil

/-- With `-e f`, the byte of `f` becomes a trap, and the one behind it does not. -/
theorem planted_from_file_small :
    ∃ s, (Sys.opened (smallFile.withOptE (processOptionsE ["f".toList])) "a" 7 nops
        fun _ : Unit => 7).step (smallFile.withOptE (processOptionsE ["f".toList]))
          (.stop () (trapStop 0x3000)) = some s ∧
      s.tracee.mem 1 = trap ∧ s.tracee.mem 2 = nops 2 := by
  obtain ⟨s, hs, hmem⟩ := @planted_from_file (elfMem 1) 0 2 ["f".toList] Unit _ smallFile "a"
    validElf_small (by decide) named_small rfl
    (Or.inr ⟨['f'], by decide, by decide⟩) (by decide) 7 nops (fun _ : Unit => 7) ()
    (trapStop 0x3000)
  refine ⟨s, hs, (hmem 1).1 ?_, (hmem 2).2 ?_⟩
  · exact ⟨elfSym (elfMem 1) 212 0, by decide, by decide, by decide, [0x66], stringAt_small,
      Or.inr (by decide)⟩
  · rintro ⟨sym, hsym, -, haddr, -⟩
    have hnone : ∀ sym ∈ elfSymbols (elfMem 1) 0 2, sym.stValue ≠ 2 := by decide
    exact hnone sym hsym haddr

end Utrace
