import Utrace.Core.Segments
import Utrace.Native.Options
import Utrace.Interpretation.Counted

/-!
# The symbols that are traced: `-e` and `breakpoints_init`

The options `-e` name a set of functions, to be traced alone or to be left out. The symbols kept
are a sublist of those `read_elf` found, and each of them counts once at its address.
-/

namespace Utrace

variable {optargs : List (List Char)} {optarg segment : List Char} {name : String}

/-! ## The names listed -/

/-- A text without a comma is one name. -/
theorem enterNames_single (h : ',' ∉ segment) (hne : segment ≠ []) (names : List String) :
    enterNames segment names = String.ofList segment :: names := by
  unfold enterNames
  rw [if_neg hne]
  split
  · rename_i str2 hstr
    rw [strchr_of_notMem h] at hstr
    cases hstr
  · rfl

/-- The names in front of a comma, and behind. -/
theorem enterNames_cons (h : ',' ∉ segment) (rest : List Char) (names : List String) :
    enterNames (segment ++ ',' :: rest) names =
      enterNames rest (String.ofList segment :: names) := by
  rw [enterNames, if_neg (by simp)]
  split
  · rename_i str2 hstr
    rw [strchr_append h] at hstr
    cases hstr
    simp
  · rename_i hstr
    rw [strchr_append h] at hstr
    cases hstr

/-- The loop lists the segments between the commas, the last one first. -/
theorem enterNames_eq (strE : List Char) (names : List String) :
    enterNames strE names = ((segments ',' strE).map String.ofList).reverse ++ names := by
  induction strE using segments_induction ',' generalizing names with
  | nil => simp [enterNames]
  | last segment hsep hne =>
    rw [enterNames_single hsep hne, segments_single hsep hne]
    rfl
  | cons segment text hsep ih =>
    rw [enterNames_cons hsep, ih, segments_cons hsep]
    simp

/-- The text of an option negates the set. -/
def negated (optarg : List Char) : Bool := optarg.head? = some '!'

/-- The values of an option. -/
def valuesOfOption (optarg : List Char) : List (List Char) :=
  (if negated optarg then optarg.tail else optarg).splitOn ','

/-- The values of all options together. -/
def listedValues (optargs : List (List Char)) : List (List Char) :=
  optargs.flatMap valuesOfOption

/-- An option lists its values and what was listed before. -/
theorem mem_names_option (optE : OptE) (hname : name ≠ "") :
    name ∈ (optE.option optarg).names ↔
      name ∈ optE.names ∨ name.toList ∈ valuesOfOption optarg := by
  have hne : name.toList ≠ [] := by simpa using hname
  have henter : ∀ strE, name ∈ enterNames strE optE.names ↔
      name ∈ optE.names ∨ name.toList ∈ strE.splitOn ',' := by
    intro strE
    rw [enterNames_eq, List.mem_append, List.mem_reverse, or_comm, ← mem_segments_iff hne]
    refine or_congr_right ?_
    rw [List.mem_map]
    constructor
    · rintro ⟨segment, hsegment, rfl⟩
      simpa using hsegment
    · intro hsegment
      exact ⟨name.toList, hsegment, String.ofList_toList⟩
  unfold OptE.option valuesOfOption negated
  by_cases hhead : optarg.head? = some '!'
  · rw [if_pos hhead, if_pos (by simpa using hhead)]
    exact henter _
  · rw [if_neg hhead, if_neg (by simpa using hhead)]
    exact henter _

/-- It traces the names listed unless it negates them. -/
theorem enable_option (optE : OptE) (optarg : List Char) :
    (optE.option optarg).enable = (optE.enable && !negated optarg) := by
  unfold OptE.option negated
  split <;> simp [*]

/-- The names listed are the values of all options, and one `!` is enough to negate the set. -/
theorem processOptionsE_eq {name : String} (hname : name ≠ "") (optargs : List (List Char)) :
    (name ∈ (processOptionsE optargs).names ↔ name.toList ∈ listedValues optargs) ∧
      (processOptionsE optargs).enable = !optargs.any negated := by
  induction optargs using List.reverseRecOn with
  | nil => simp [processOptionsE, listedValues]
  | append_singleton optargs optarg ih =>
    have hstep : processOptionsE (optargs ++ [optarg]) =
        (processOptionsE optargs).option optarg := by
      rw [processOptionsE, List.foldl_append]
      rfl
    rw [hstep, mem_names_option _ hname, enable_option, ih.1, ih.2]
    exact ⟨by simp [listedValues], by simp [Bool.not_or]⟩

/-! ## The symbols kept -/

/-- A symbol that is listed stays exactly if the listed ones are traced, and any other exactly if
they are not. -/
theorem keepSymbol_eq (env : Env) (sym : LibrarySymbol) :
    keepSymbol env sym = if sym.name ∈ env.opte then env.opteEnable else !env.opteEnable := by
  have hfold : ∀ (names : List String) (keep : Bool),
      names.foldl (fun keep name => if sym.name = name then env.opteEnable else keep) keep =
        if sym.name ∈ names then env.opteEnable else keep := by
    intro names
    induction names with
    | nil => simp
    | cons first names ih =>
      intro keep
      rw [List.foldl_cons, ih]
      by_cases hin : sym.name ∈ names
      · simp [hin]
      · simp [hin]
  exact hfold env.opte _

/-- Every insertion counts once at its address, whether or not the trap is planted. -/
theorem count_insertAll (symbols : List LibrarySymbol) (t : Tracee) (a : Addr) :
    ((symbols.foldl (fun t sym => insertBreakpoint t sym.enterAddr) t).cell a).count =
      if symbolRefs symbols a = 0 then (t.cell a).count
      else some ((t.cell a).refs + symbolRefs symbols a) := by
  induction symbols generalizing t with
  | nil => rfl
  | cons sym symbols ih =>
    have hcount : symbolRefs (sym :: symbols) a =
        symbolRefs symbols a + if sym.enterAddr = a then 1 else 0 := by
      simp [symbolRefs, List.countP_cons]
    have hrefs : ∀ c : Cell, c.refs = c.count.getD 0 := fun _ => rfl
    rw [List.foldl_cons, ih, hrefs, cell_insertBreakpoint]
    by_cases ha : a = sym.enterAddr
    · subst ha
      by_cases hz : symbolRefs symbols sym.enterAddr = 0 <;> simp [hcount, hz]
      omega
    · simp [hcount, ha, Ne.symm ha, hrefs]

/-- The references after `breakpoints_init` are those of the symbols in the list. -/
theorem count_breakpointsInit (env : Env) (t : Tracee) (a : Addr) :
    ((breakpointsInit env t).cell a).count =
      if symbolRefs (symbolsOf env t.proc.filename) a = 0 then none
      else some (symbolRefs (symbolsOf env t.proc.filename) a : Int) := by
  have hempty : ∀ t : Tracee, t.proc.breakpoints = none → (t.cell a).count = none := by
    intro t ht
    simp [Tracee.cell, Tracee.entry, ht]
  have hcell : ((breakpointsInit env t).cell a).count =
      (((symbolsOf env t.proc.filename).foldl (fun t sym => insertBreakpoint t sym.enterAddr)
        { t with proc := { t.proc with
            breakpoints := none, listOfSymbols := symbolsOf env t.proc.filename } }).cell
              a).count := rfl
  rw [hcell, count_insertAll, Cell.refs, hempty _ rfl]
  simp

/-- The symbols kept are put in the list. -/
theorem listOfSymbols_breakpointsInit (env : Env) (t : Tracee) :
    (breakpointsInit env t).proc.listOfSymbols = symbolsOf env t.proc.filename := by
  have hheader := header_insertAll (symbolsOf env t.proc.filename) { t with proc :=
    { t.proc with breakpoints := none, listOfSymbols := symbolsOf env t.proc.filename } }
  exact congrArg Process.listOfSymbols hheader

/-- For every sequence of options `-e` with a value that is not empty, and every list of symbols
with names: `list_of_symbols` becomes the sublist of those listed, or, where an option begins
with `!`, of those not listed; and that is what the loop leaves of the records in memory. The count
of an address is the number of its symbols in that list. -/
theorem symbols_listed {env : Env} {t : Tracee} {filename : String}
    (hfilename : t.proc.filename = some filename) (hoptL : env.optL = true)
    (hvalue : ∃ value ∈ listedValues optargs, value ≠ [])
    (hnames : ∀ sym ∈ env.readElf filename, sym.name ≠ "") :
    let kept := (env.readElf filename).filter fun sym =>
      if optargs.any negated then sym.name.toList ∉ listedValues optargs
      else sym.name.toList ∈ listedValues optargs
    let after := breakpointsInit (env.withOptE (processOptionsE optargs)) t
    after.proc.listOfSymbols = kept ∧
      (∀ {ρ : Type} [DecidableEq ρ] (record : ρ → LibrarySymbol) (found : Links ρ),
        found.Holds record (env.readElf filename) →
          ∃ turns left, unlinkSymbols (env.withOptE (processOptionsE optargs)) record turns found =
            some left ∧ left.Holds record kept) ∧
      ∀ a, after.enabledAt a = kept.countP (fun sym => sym.enterAddr = a) ∧
        (after.entry a = none ↔ ∀ sym ∈ kept, sym.enterAddr ≠ a) := by
  intro kept after
  obtain ⟨value, hvalue, hne⟩ := hvalue
  have hopte : (processOptionsE optargs).names ≠ [] := by
    have hname : String.ofList value ≠ "" := by simpa using hne
    have hin := (processOptionsE_eq hname optargs).1.mpr (by simpa using hvalue)
    exact List.ne_nil_of_mem hin
  have hkeep : ∀ sym ∈ env.readElf filename,
      keepSymbol (env.withOptE (processOptionsE optargs)) sym =
        if optargs.any negated then decide (sym.name.toList ∉ listedValues optargs)
        else decide (sym.name.toList ∈ listedValues optargs) := by
    intro sym hsym
    obtain ⟨hmem, henable⟩ := processOptionsE_eq (hnames sym hsym) optargs
    rw [keepSymbol_eq]
    simp only [Env.withOptE, hmem, henable]
    cases optargs.any negated <;> by_cases hin : sym.name.toList ∈ listedValues optargs <;>
      simp [hin]
  have hfilter : (env.readElf filename).filter
      (keepSymbol (env.withOptE (processOptionsE optargs))) = kept := List.filter_congr hkeep
  have hsymbols : symbolsOf (env.withOptE (processOptionsE optargs)) t.proc.filename = kept := by
    have hL : (env.withOptE (processOptionsE optargs)).optL = true := hoptL
    have hopte' : (env.withOptE (processOptionsE optargs)).opte.isEmpty = false := by
      rw [List.isEmpty_eq_false_iff]
      exact hopte
    unfold symbolsOf
    rw [hL, hfilename]
    dsimp only
    rw [hopte', if_neg Bool.false_ne_true]
    exact hfilter
  refine ⟨(listOfSymbols_breakpointsInit _ t).trans hsymbols, fun record found hfound => ?_,
    fun a => ?_⟩
  · rw [← hfilter]
    exact hfound.unlink (keepSymbol (env.withOptE (processOptionsE optargs)))
  have hcount := count_breakpointsInit (env.withOptE (processOptionsE optargs)) t a
  rw [hsymbols] at hcount
  constructor
  · rw [← Tracee.refs_cell, Cell.refs, hcount]
    split
    · rename_i hzero
      exact (congrArg Nat.cast hzero).symm
    · rfl
  · rw [← Tracee.count_cell_eq_none, hcount, ite_eq_left_iff, symbolRefs]
    simp [List.countP_eq_zero]

/-- Three functions, and no other option. -/
def threeFunctions : Env where
  readElf _ := [⟨"f", 0x1000⟩, ⟨"g", 0x2000⟩, ⟨"h", 0x3000⟩]

/-- With `-e f,,k -e g,`, two of them are traced. -/
theorem symbols_listed_two :
    (breakpointsInit (threeFunctions.withOptE (processOptionsE ["f,,k".toList, "g,".toList]))
        { proc := { filename := some "a" }, mem := nops }).proc.listOfSymbols =
      [⟨"f", 0x1000⟩, ⟨"g", 0x2000⟩] := by
  have hlisted := @symbols_listed ["f,,k".toList, "g,".toList] threeFunctions
    { proc := { filename := some "a" }, mem := nops } "a" rfl rfl ⟨['f'], by decide, by decide⟩
    (by decide)
  exact hlisted.1.trans (by decide)

end Utrace
