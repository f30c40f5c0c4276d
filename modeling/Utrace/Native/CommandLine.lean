import Utrace.Core.Getopt
import Utrace.Native.Options
import Utrace.Native.Tgid

/-!
# The command line: `process_options` of `options.c`

The arguments behind the program's name are read with `getopt_long`. `strdup` and `malloc` are
taken to succeed, and what an option counts is a plain number: an argument vector is too short
for an int to wrap around. `opt_i` is never set.
-/

namespace Utrace

open Getopt (Arg Opt)

/-- The option string, behind its plus. -/
def shortOptions : List Char := "cdfhiLrStTVCa:e:l:n:o:p:s:u:".toList

/-- `long_options`. -/
def longOptions : List Getopt.LongOption :=
  [⟨"align".toList, true, 'a'⟩, ⟨"debug".toList, false, 'd'⟩, ⟨"demangle".toList, false, 'C'⟩,
    ⟨"indent".toList, false, 'n'⟩, ⟨"help".toList, false, 'h'⟩, ⟨"library".toList, true, 'l'⟩,
    ⟨"output".toList, true, 'o'⟩, ⟨"version".toList, false, 'V'⟩]

/-- What `getopt_long` is handed. -/
def optionTable : Getopt.Table := ⟨shortOptions, longOptions⟩

/-- `MAX_LIBRARY`. -/
def maxLibrary : Nat := 30

/-- The options, at their defaults but for the column. -/
structure Options where
  opta : Int
  optc : Nat := 0
  optC : Nat := 0
  optd : Nat := 0
  opte : OptE := {}
  optf : Bool := false
  /-- `library[0]` to `library[library_num - 1]`. -/
  library : List Arg := []
  optL : Bool := true
  optn : Int := 0
  /-- `output`: the standard error stream, or the file of this name. -/
  output : Option Arg := none
  /-- `opt_p`, latest first. -/
  optp : List Int := []
  optr : Nat := 0
  opts : Int := 32
  optS : Bool := false
  optt : Nat := 0
  optT : Nat := 0
  optu : Option Arg := none
  deriving DecidableEq

/-- The ways `process_options` does not return. -/
inductive Stopped where
  /-- `usage()` and `exit(0)`. -/
  | usage
  /-- The version, and `exit(0)`. -/
  | version
  /-- A message on the standard error stream and `exit(1)`; `usage()` in between for too few
  arguments. -/
  | error (message : String)
  /-- A null `optarg` was read. -/
  | nullOptarg
  deriving DecidableEq

/-- What `process_options` finds outside of its arguments. -/
structure Surroundings where
  /-- `argv[0]`. -/
  progname : String
  /-- `fopen(name, "w")`, with `strerror(errno)` where it fails. -/
  fopen : Arg → Except String Unit
  /-- `getenv("PATH")`. -/
  getenvPath : Option (List Char)
  /-- Whether `access(name, X_OK)` is zero. -/
  executable : List Char → Bool
  /-- The static buffer of `search_for_command`. -/
  pathname : Pathname

namespace Surroundings

variable (w : Surroundings)

/-- The default case of the switch. -/
def tryHelp : Stopped := .error s!"Try `{w.progname} --help' for more information\n"

/-- The options whose cases read `optarg`. -/
def readOptarg : List Char := ['a', 'e', 'l', 'n', 'o', 'p', 's', 'u']

/-- The switch of `process_options`. -/
def processOption (o : Options) : Opt → Except Stopped Options
  | ('a', some optarg) => .ok { o with opta := atoi optarg }
  | ('c', _) => .ok { o with optc := o.optc + 1 }
  | ('C', _) => .ok { o with optC := o.optC + 1 }
  | ('d', _) => .ok { o with optd := o.optd + 1 }
  | ('e', some optarg) => .ok { o with opte := o.opte.option optarg }
  | ('f', _) => .ok { o with optf := true }
  | ('h', _) => .error .usage
  | ('i', _) => .ok o
  | ('l', some optarg) =>
    if o.library.length = maxLibrary then
      .error (.error s!"Too many libraries.  Maximum is {maxLibrary}.\n")
    else .ok { o with library := o.library ++ [optarg] }
  | ('L', _) => .ok { o with optL := false }
  | ('n', some optarg) => .ok { o with optn := atoi optarg }
  | ('o', some optarg) =>
    match w.fopen optarg with
    | .ok () => .ok { o with output := some optarg }
    | .error strerror =>
      .error (.error s!"Can't open {String.ofList optarg} for output: {strerror}\n")
  | ('p', some optarg) => .ok { o with optp := atoi optarg :: o.optp }
  | ('r', _) => .ok { o with optr := o.optr + 1 }
  | ('s', some optarg) => .ok { o with opts := atoi optarg }
  | ('S', _) => .ok { o with optS := true }
  | ('t', _) => .ok { o with optt := o.optt + 1 }
  | ('T', _) => .ok { o with optT := o.optT + 1 }
  | ('u', some optarg) => .ok { o with optu := some optarg }
  | ('V', _) => .error .version
  | (c, _) => .error (if c ∈ readOptarg then .nullOptarg else w.tryHelp)

/-- `command`, for the arguments that are left. -/
def findCommand (argv : List Arg) : Except Stopped (Option (List Char)) :=
  match argv with
  | [] => .ok none
  | filename :: _ =>
    match (searchForCommand w.getenvPath w.executable filename w.pathname).result with
    | .ok command => .ok (some command)
    | .error message => .error (.error message)

/-- `process_options`, from the column `opt_a` on the arguments behind `argv[0]`: the options, the
arguments of the command and `command`. -/
def processOptions (opta : Int) (argv : List Arg) :
    Except Stopped (Options × List Arg × Option (List Char)) :=
  match Getopt.read optionTable w.processOption w.tryHelp { opta } [] argv with
  | .error stopped => .error stopped
  | .ok (o, argv) =>
    if o.optp = [] ∧ argv = [] then .error (.error s!"{w.progname}: too few arguments\n")
    else if o.optr ≠ 0 ∧ o.optt ≠ 0 then
      .error (.error s!"{w.progname}: Incompatible options -r and -t\n")
    else
      match w.findCommand argv with
      | .error stopped => .error stopped
      | .ok command => .ok (o, argv, command)

end Surroundings

end Utrace
