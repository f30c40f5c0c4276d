import Utrace.Native.CommandLine

/-!
# The command line: what is accepted, and what it means

Every setting is read off the occurrences of its own option: the last argument, the number of
occurrences, or the arguments in their order. The arguments behind the options are the command's,
and are left alone.
-/

namespace Utrace

open Getopt (Arg Opt)

/-! ## The options by their letters -/

/-- The arguments of an option, in their order. -/
def optargs (c : Char) (opts : List Opt) : List Arg :=
  opts.filterMap fun o => if o.1 = c then o.2 else none

/-- How often an option is given. -/
def occurrences (c : Char) (opts : List Opt) : Nat := (opts.filter (·.1 = c)).length

section

variable (c : Char) (opts : List Opt) (o : Opt)

/-- A further option adds its argument to those of its letter. -/
@[simp] theorem optargs_append : optargs c (opts ++ [o]) =
    optargs c opts ++ if o.1 = c then o.2.toList else [] := by
  rw [optargs, List.filterMap_append]
  split <;> rename_i h <;> cases hopt : o.2 <;> simp [optargs, h, hopt]

/-- A further option counts for its letter. -/
@[simp] theorem occurrences_append : occurrences c (opts ++ [o]) =
    occurrences c opts + if o.1 = c then 1 else 0 := by
  rw [occurrences, List.filter_append, List.length_append]
  split <;> rename_i h <;> simp [occurrences, h]

/-- The arguments of a letter are those of its own options. -/
theorem optargs_filter : optargs c (opts.filter (·.1 = c)) = optargs c opts := by
  rw [optargs, List.filterMap_filter]
  apply List.filterMap_congr
  intro o _
  by_cases h : o.1 = c <;> simp [h]

/-- A letter has no more arguments than occurrences. -/
theorem length_optargs_le : (optargs c opts).length ≤ occurrences c opts := by
  rw [← optargs_filter]
  exact List.length_filterMap_le _ _

end

/-- The settings the options mean. -/
def Options.ofOpts (opta : Int) (opts : List Opt) : Options where
  opta := ((optargs 'a' opts).getLast?.map atoi).getD opta
  optc := occurrences 'c' opts
  optC := occurrences 'C' opts
  optd := occurrences 'd' opts
  opte := processOptionsE (optargs 'e' opts)
  optf := occurrences 'f' opts ≠ 0
  library := optargs 'l' opts
  optL := occurrences 'L' opts = 0
  optn := ((optargs 'n' opts).getLast?.map atoi).getD 0
  output := (optargs 'o' opts).getLast?
  optp := ((optargs 'p' opts).map atoi).reverse
  optr := occurrences 'r' opts
  opts := ((optargs 's' opts).getLast?.map atoi).getD 32
  optS := occurrences 'S' opts ≠ 0
  optt := occurrences 't' opts
  optT := occurrences 'T' opts
  optu := (optargs 'u' opts).getLast?

/-- What the options must be for all of them to be read. -/
structure Surroundings.Accepts (w : Surroundings) (opts : List Opt) : Prop where
  help : occurrences 'h' opts = 0
  version : occurrences 'V' opts = 0
  /-- `--indent` comes without an argument. -/
  indent : occurrences 'n' opts = (optargs 'n' opts).length
  library : (optargs 'l' opts).length ≤ maxLibrary
  output : ∀ name ∈ optargs 'o' opts, w.fopen name = .ok ()

/-! ## One option -/

/-- The short options without an argument. -/
def flags : List Char := ['c', 'd', 'f', 'h', 'i', 'L', 'r', 'S', 't', 'T', 'V', 'C']

/-- The letters without an argument are the flags. -/
theorem short_flag : ∀ c ∈ shortOptions, optionTable.short c = some false → c ∈ flags := by
  have hall : shortOptions.all fun c => optionTable.short c ≠ some false || flags.contains c := by
    decide
  intro c hmem hshort
  simpa [hshort] using List.all_eq_true.mp hall c hmem

/-- The letters with an argument are those that read `optarg`. -/
theorem short_readOptarg :
    ∀ c ∈ shortOptions, optionTable.short c = some true → c ∈ Surroundings.readOptarg := by
  have hall : shortOptions.all fun c =>
      optionTable.short c ≠ some true || Surroundings.readOptarg.contains c := by
    decide
  intro c hmem hshort
  simpa [hshort] using List.all_eq_true.mp hall c hmem

/-- A long option is a flag or a letter with an argument, but for `--indent`. -/
theorem long_known : ∀ p ∈ longOptions, p.hasArg = false ∧ (p.val ∈ flags ∨ p.val = 'n') ∨
    p.hasArg = true ∧ p.val ∈ Surroundings.readOptarg := by
  decide

/-- The options `getopt_long` returns. -/
theorem known_cases {o : Opt} (h : optionTable.Knows o) :
    o.1 ∈ flags ∧ o.2 = none ∨ (∃ c ∈ Surroundings.readOptarg, ∃ v, o = (c, some v)) ∨
      o = ('n', none) := by
  obtain ⟨c, optarg⟩ := o
  rcases h with h | ⟨p, hp, hval, harg⟩
  · have hmem := Getopt.Table.mem_of_short h
    cases optarg with
    | none => exact .inl ⟨short_flag c hmem h, rfl⟩
    | some v => exact .inr (.inl ⟨c, short_readOptarg c hmem h, v, rfl⟩)
  · dsimp only at hval harg
    subst hval
    rcases long_known p hp with ⟨hflag, hmem | heq⟩ | ⟨htrue, hmem⟩
    · obtain rfl : optarg = none := by simpa [hflag] using harg
      exact .inl ⟨hmem, rfl⟩
    · obtain rfl : optarg = none := by simpa [hflag] using harg
      exact .inr (.inr (by rw [heq]))
    · obtain ⟨v, rfl⟩ : ∃ v, optarg = some v := by
        apply Option.isSome_iff_exists.mp
        rw [← harg, htrue]
      exact .inr (.inl ⟨p.val, hmem, v, rfl⟩)

namespace Surroundings

variable {w : Surroundings} {opta : Int} {opts : List Opt} {o : Opt} {s : Options}

/-- Options are accepted up to each of them. -/
theorem Accepts.of_append (h : w.Accepts (opts ++ [o])) : w.Accepts opts where
  help := by
    have := h.help
    simp only [occurrences_append] at this
    omega
  version := by
    have := h.version
    simp only [occurrences_append] at this
    omega
  indent := by
    have := h.indent
    have hle := length_optargs_le 'n' opts
    simp only [occurrences_append, optargs_append, List.length_append] at this
    split at this
    · have hone : o.2.toList.length ≤ 1 := by cases o.2 <;> simp
      omega
    · simpa using this
  library := by
    have := h.library
    simp only [optargs_append, List.length_append] at this
    omega
  output name hname := h.output name (by simp [hname])

/-- What one more option must be. -/
theorem accepts_append_iff (h : w.Accepts opts) :
    w.Accepts (opts ++ [o]) ↔ o.1 ≠ 'h' ∧ o.1 ≠ 'V' ∧ (o.1 = 'n' → o.2.isSome) ∧
      (o.1 = 'l' → o.2.isSome → (optargs 'l' opts).length ≠ maxLibrary) ∧
      (o.1 = 'o' → ∀ name, o.2 = some name → w.fopen name = .ok ()) := by
  obtain ⟨c, optarg⟩ := o
  constructor
  · intro ⟨hhelp, hversion, hindent, hlibrary, houtput⟩
    simp only [occurrences_append, optargs_append] at hhelp hversion hindent hlibrary houtput
    refine ⟨?_, ?_, ?_, ?_, ?_⟩
    · rintro rfl
      simp at hhelp
    · rintro rfl
      simp at hversion
    · rintro rfl
      have := h.indent
      cases optarg with
      | none => simp [h.indent] at hindent
      | some v => rfl
    · rintro rfl hsome
      cases optarg with
      | none => cases hsome
      | some v =>
        simp only [if_true, Option.toList_some, List.length_append, List.length_singleton]
          at hlibrary
        omega
    · rintro rfl name rfl
      exact houtput name (by simp)
  · rintro ⟨hhelp, hversion, hindent, hlibrary, houtput⟩
    dsimp only at hhelp hversion hindent hlibrary houtput
    refine ⟨?_, ?_, ?_, ?_, ?_⟩
    · simp [h.help, hhelp]
    · simp [h.version, hversion]
    · by_cases hc : c = 'n'
      · obtain ⟨v, rfl⟩ := Option.isSome_iff_exists.mp (hindent hc)
        simp [h.indent, hc]
      · simp [h.indent, hc]
    · have hle := h.library
      by_cases hc : c = 'l'
      · cases optarg with
        | none => simpa using hle
        | some v =>
          have hne := hlibrary hc rfl
          simp only [optargs_append, hc, if_true, Option.toList_some, List.length_append,
            List.length_singleton]
          omega
      · simpa [hc] using hle
    · intro name hname
      rw [optargs_append, List.mem_append] at hname
      rcases hname with hname | hname
      · exact h.output name hname
      · split at hname
        · rename_i hc
          exact houtput hc name (by simpa using hname)
        · cases hname

/-- What the switch makes of a flag. -/
theorem processOption_flag {c : Char} (hc : c ∈ flags) :
    w.processOption (.ofOpts opta opts) (c, none) = .ok s ↔
      c ≠ 'h' ∧ c ≠ 'V' ∧ s = .ofOpts opta (opts ++ [(c, none)]) := by
  simp only [flags, List.mem_cons, List.not_mem_nil, or_false] at hc
  rcases hc with rfl | rfl | rfl | rfl | rfl | rfl | rfl | rfl | rfl | rfl | rfl | rfl <;>
    simp [processOption, Options.ofOpts, eq_comm]

/-- What the switch makes of an option with an argument. -/
theorem processOption_readOptarg {c : Char} (hc : c ∈ readOptarg) (v : Arg) :
    w.processOption (.ofOpts opta opts) (c, some v) = .ok s ↔
      (c = 'l' → (optargs 'l' opts).length ≠ maxLibrary) ∧
        (c = 'o' → w.fopen v = .ok ()) ∧ s = .ofOpts opta (opts ++ [(c, some v)]) := by
  simp only [readOptarg, List.mem_cons, List.not_mem_nil, or_false] at hc
  rcases hc with rfl | rfl | rfl | rfl | rfl | rfl | rfl | rfl
  case inr.inr.inl =>
    by_cases hfull : (optargs 'l' opts).length = maxLibrary
    · simp [processOption, Options.ofOpts, hfull]
    · simp [processOption, Options.ofOpts, hfull, eq_comm]
  case inr.inr.inr.inr.inl =>
    cases hopen : w.fopen v with
    | error strerror => simp [processOption, hopen]
    | ok file => simp [processOption, Options.ofOpts, hopen, eq_comm]
  all_goals simp [processOption, Options.ofOpts, processOptionsE, eq_comm]

/-- The switch adds one option to what was read. -/
theorem processOption_eq_ok_iff (h : w.Accepts opts) (ho : optionTable.Knows o) :
    w.processOption (.ofOpts opta opts) o = .ok s ↔
      w.Accepts (opts ++ [o]) ∧ s = .ofOpts opta (opts ++ [o]) := by
  rw [accepts_append_iff h]
  obtain ⟨hflag, hnone⟩ | ⟨c, hc, v, rfl⟩ | rfl := known_cases ho
  · obtain ⟨c, optarg⟩ := o
    dsimp only at hflag hnone
    subst hnone
    have hn : c ≠ 'n' := fun heq => absurd (heq ▸ hflag) (by decide)
    rw [processOption_flag hflag]
    simp [hn, and_assoc]
  · have hh : c ≠ 'h' := fun heq => absurd (heq ▸ hc) (by decide)
    have hV : c ≠ 'V' := fun heq => absurd (heq ▸ hc) (by decide)
    rw [processOption_readOptarg hc]
    simp [hh, hV, and_assoc]
  · simp [processOption, readOptarg]

/-- All options. -/
theorem foldlM_processOption (ho : ∀ o ∈ opts, optionTable.Knows o) :
    opts.foldlM w.processOption { opta } = .ok s ↔ w.Accepts opts ∧ s = .ofOpts opta opts := by
  induction opts using List.reverseRecOn generalizing s with
  | nil =>
    have haccepts : w.Accepts [] := ⟨rfl, rfl, rfl, Nat.zero_le _, by simp [optargs]⟩
    constructor
    · intro h
      cases h
      exact ⟨haccepts, rfl⟩
    · rintro ⟨-, rfl⟩
      rfl
  | append_singleton opts o ih =>
    have hknown : optionTable.Knows o := ho o (by simp)
    have ih := fun s => ih (s := s) fun o ho' => ho o (by simp [ho'])
    simp only [List.foldlM_append, List.foldlM_cons, List.foldlM_nil, bind_pure]
    constructor
    · intro h
      cases hfold : opts.foldlM w.processOption { opta } with
      | error e =>
        rw [hfold] at h
        cases h
      | ok s' =>
        obtain ⟨haccepts, rfl⟩ := (ih s').mp hfold
        rw [hfold] at h
        exact (processOption_eq_ok_iff haccepts hknown).mp h
    · rintro ⟨haccepts, rfl⟩
      have hbefore := haccepts.of_append
      rw [(ih _).mpr ⟨hbefore, rfl⟩]
      exact (processOption_eq_ok_iff hbefore hknown).mpr ⟨haccepts, rfl⟩

/-! ## All arguments -/

/-- A command line is accepted as its options and operands ask for. -/
theorem processOptions_eq_ok_iff {args argv : List Arg} {command : Option (List Char)} :
    w.processOptions opta args = .ok (s, argv, command) ↔
      Getopt.read optionTable w.processOption w.tryHelp { opta } [] args = .ok (s, argv) ∧
        (s.optp ≠ [] ∨ argv ≠ []) ∧ (s.optr = 0 ∨ s.optt = 0) ∧
          w.findCommand argv = .ok command := by
  rw [processOptions]
  cases Getopt.read optionTable w.processOption w.tryHelp { opta } [] args with
  | error e => simp
  | ok read =>
    obtain ⟨s', argv'⟩ := read
    dsimp only
    split
    · rename_i hnone
      constructor
      · rintro ⟨⟩
      · rintro ⟨hread, hsome, -⟩
        cases hread
        exact absurd hnone (by tauto)
    · split
      · rename_i hboth
        constructor
        · rintro ⟨⟩
        · rintro ⟨hread, -, hone, -⟩
          cases hread
          exact absurd hboth (by tauto)
      · rename_i hsome hone
        constructor
        · intro h
          split at h
          · cases h
          · rename_i hcommand
            cases h
            exact ⟨rfl, by tauto, by tauto, hcommand⟩
        · rintro ⟨hread, -, -, hcommand⟩
          cases hread
          rw [hcommand]

/-- The arguments that spell options are read as these options mean. -/
theorem read_spelled {args argv argv' : List Arg}
    (h : Getopt.Spelled optionTable args opts argv) :
    Getopt.read optionTable w.processOption w.tryHelp { opta } [] args = .ok (s, argv') ↔
      argv' = argv ∧ w.Accepts opts ∧ s = .ofOpts opta opts := by
  rw [h.read_eq (by decide), ← foldlM_processOption h.knows]
  cases opts.foldlM w.processOption { opta } with
  | error e => simp [Except.map]
  | ok s' => simp [Except.map, and_comm, eq_comm]

/-- The options mean the same when only options of different letters change places. -/
theorem ofOpts_congr {opts' : List Opt}
    (h : ∀ c, opts.filter (·.1 = c) = opts'.filter (·.1 = c)) :
    Options.ofOpts opta opts = .ofOpts opta opts' ∧ (w.Accepts opts ↔ w.Accepts opts') := by
  have hargs : ∀ c, optargs c opts = optargs c opts' := by
    intro c
    rw [← optargs_filter, h c, optargs_filter]
  have hcount : ∀ c, occurrences c opts = occurrences c opts' := by
    intro c
    rw [occurrences, h c, occurrences]
  refine ⟨by simp only [Options.ofOpts, hargs, hcount], ?_⟩
  constructor
  · rintro ⟨hhelp, hversion, hindent, hlibrary, houtput⟩
    simp only [hargs, hcount] at hhelp hversion hindent hlibrary houtput
    exact ⟨hhelp, hversion, hindent, hlibrary, houtput⟩
  · rintro ⟨hhelp, hversion, hindent, hlibrary, houtput⟩
    simp only [← hargs, ← hcount] at hhelp hversion hindent hlibrary houtput
    exact ⟨hhelp, hversion, hindent, hlibrary, houtput⟩

end Surroundings

open Surroundings in
/-- utrace goes on with exactly the command lines that spell options it accepts, followed by the
command or with a process to attach to. The settings are those the options mean, and the command's
arguments are left as they are. -/
theorem options_read (w : Surroundings) (opta : Int) (args : List Arg) (o : Options)
    (argv : List Arg) (command : Option (List Char)) :
    w.processOptions opta args = .ok (o, argv, command) ↔
      ∃ opts, Getopt.Spelled optionTable args opts argv ∧ w.Accepts opts ∧
        o = .ofOpts opta opts ∧ (optargs 'p' opts ≠ [] ∨ argv ≠ []) ∧
          (occurrences 'r' opts = 0 ∨ occurrences 't' opts = 0) ∧
            w.findCommand argv = .ok command := by
  rw [processOptions_eq_ok_iff]
  constructor
  · rintro ⟨hread, hsome, hone, hcommand⟩
    obtain ⟨opts, hspelled, -⟩ := (Getopt.read_eq_ok_iff (by decide)).mp hread
    obtain ⟨-, haccepts, rfl⟩ := (read_spelled hspelled).mp hread
    exact ⟨opts, hspelled, haccepts, rfl, by simpa [Options.ofOpts] using hsome, hone, hcommand⟩
  · rintro ⟨opts, hspelled, haccepts, rfl, hsome, hone, hcommand⟩
    have hread : Getopt.read optionTable w.processOption w.tryHelp { opta } [] args =
        .ok (.ofOpts opta opts, argv) := (read_spelled hspelled).mpr ⟨rfl, haccepts, rfl⟩
    exact ⟨hread, by simpa [Options.ofOpts] using hsome, hone, hcommand⟩

/-- Options of different letters may change places, be clustered or be spelled out: utrace goes
on with the one command line if and only if it does with the other, and in the same way. -/
theorem options_commute (w : Surroundings) (opta : Int) {args args' argv : List Arg}
    {opts opts' : List Opt} (h : Getopt.Spelled optionTable args opts argv)
    (h' : Getopt.Spelled optionTable args' opts' argv)
    (hsame : ∀ c, opts.filter (·.1 = c) = opts'.filter (·.1 = c))
    (result : Options × List Arg × Option (List Char)) :
    w.processOptions opta args = .ok result ↔ w.processOptions opta args' = .ok result := by
  obtain ⟨o, argv', command⟩ := result
  obtain ⟨hmeans, haccepts⟩ : Options.ofOpts opta opts = .ofOpts opta opts' ∧
      (w.Accepts opts ↔ w.Accepts opts') := Surroundings.ofOpts_congr hsame
  rw [Surroundings.processOptions_eq_ok_iff, Surroundings.processOptions_eq_ok_iff,
    Surroundings.read_spelled h, Surroundings.read_spelled h', hmeans, haccepts]

/-- The same two options, clustered and apart. -/
theorem options_commute_cluster :
    let w : Surroundings :=
      { progname := "utrace", fopen := fun _ => .ok (), getenvPath := none
        executable := fun _ => false, pathname := ⟨fun _ => '\x00', []⟩ }
    ∀ result, w.processOptions 50 [['-', 'f', 'n', '2'], ['l', 's']] = .ok result ↔
      w.processOptions 50 [['-', 'n'], ['2'], ['-', 'f'], ['-', '-'], ['l', 's']] = .ok result := by
  intro w result
  have hf : optionTable.short 'f' = some false := by decide
  have hn : optionTable.short 'n' = some true := by decide
  have h : Getopt.Spelled optionTable [['-', 'f', 'n', '2'], ['l', 's']]
      [('f', none), ('n', some ['2'])] [['l', 's']] :=
    .cluster (by simp) (.flag hf (.attached hn (by simp) _)) (.operand (.inl (by simp)) _)
  have h' : Getopt.Spelled optionTable [['-', 'n'], ['2'], ['-', 'f'], ['-', '-'], ['l', 's']]
      [('n', some ['2']), ('f', none)] [['l', 's']] :=
    .cluster (by simp) (.separate hn _ _) (.cluster (by simp) (.flag hf (.nil _)) (.dashes _))
  apply options_commute w 50 h h'
  intro c
  by_cases hc : c = 'f'
  · subst hc
    rfl
  · have hne : ¬ 'f' = c := fun heq => hc heq.symm
    simp [List.filter_cons, hne]

end Utrace
