import Utrace.Native.Breakpoints

/-!
# Options: `options.c`

The text of an option `-e`, taken apart in place, and the search for the command in `PATH`. A
string is the list of its characters up to the terminating zero, and a pointer into it is what
is left of it from there on. Lengths are plain numbers: all the strings fit into memory
together, so that no sum of two of them wraps around.
-/

namespace Utrace

/-- `strchr`, for a character that is not the zero. -/
def strchr : List Char → Char → Option (List Char)
  | [], _ => none
  | d :: str, c => if d = c then some (d :: str) else strchr str c

/-- A character that does not occur is not found. -/
theorem strchr_of_notMem {str : List Char} {c : Char} (h : c ∉ str) : strchr str c = none := by
  induction str with
  | nil => rfl
  | cons d str ih =>
    rw [List.mem_cons, not_or] at h
    rw [strchr, if_neg (Ne.symm h.1), ih h.2]

/-- The first occurrence is found. -/
theorem strchr_append {segment : List Char} {c : Char} (h : c ∉ segment) (rest : List Char) :
    strchr (segment ++ c :: rest) c = some (c :: rest) := by
  induction segment with
  | nil => rw [List.nil_append, strchr, if_pos rfl]
  | cons d segment ih =>
    rw [List.mem_cons, not_or] at h
    rw [List.cons_append, strchr, if_neg (Ne.symm h.1), ih h.2]

/-- What is left from the character on is not empty, and no longer than the whole. -/
theorem length_of_strchr {str str2 : List Char} {c : Char} (h : strchr str c = some str2) :
    0 < str2.length ∧ str2.length ≤ str.length := by
  induction str with
  | nil => cases h
  | cons d str ih =>
    unfold strchr at h
    split at h
    · cases h
      exact ⟨Nat.succ_pos _, le_rfl⟩
    · obtain ⟨hpos, hle⟩ := ih h
      exact ⟨hpos, hle.trans (Nat.le_succ _)⟩

/-! ## `process_options`: `-e` -/

/-- `opt_e`, latest first, and `opt_e_enable`. -/
structure OptE where
  names : List String := []
  enable : Bool := true
  deriving DecidableEq

/-- The loop of `-e`: a comma is overwritten by the zero that ends the name in front of it. -/
def enterNames (strE : List Char) (optE : List String) : List String :=
  if strE = [] then optE
  else
    match _h : strchr strE ',' with
    | some str2 =>
      let name := strE.take (strE.length - str2.length)
      enterNames str2.tail (String.ofList name :: optE)
    | none => String.ofList strE :: optE
termination_by strE.length
decreasing_by
  obtain ⟨hpos, hle⟩ := length_of_strchr _h
  rw [List.length_tail]
  omega

/-- One option `-e`. -/
def OptE.option (optE : OptE) (optarg : List Char) : OptE :=
  if optarg.head? = some '!' then ⟨enterNames optarg.tail optE.names, false⟩
  else ⟨enterNames optarg optE.names, optE.enable⟩

/-- All options `-e`, from the first on. -/
def processOptionsE (optargs : List (List Char)) : OptE := optargs.foldl OptE.option {}

/-- The options and the outside world with these `-e` options. -/
def Env.withOptE (env : Env) (optE : OptE) : Env :=
  { env with opte := optE.names, opteEnable := optE.enable }

/-! ## `search_for_command` -/

/-- `PATH_MAX`. -/
def pathMax : Nat := 4096

/-- `pathname[PATH_MAX]`, with the indices stored at. -/
structure Pathname where
  chars : Nat → Char
  stores : List Nat := []

namespace Pathname

/-- `pathname[i] = c`. -/
def store (pathname : Pathname) (i : Nat) (c : Char) : Pathname :=
  ⟨Function.update pathname.chars i c, i :: pathname.stores⟩

/-- Characters stored from index `i` on. -/
def copy (pathname : Pathname) (i : Nat) : List Char → Pathname
  | [] => pathname
  | c :: str => (pathname.store i c).copy (i + 1) str

/-- The string in the buffer. -/
def text (pathname : Pathname) : List Char :=
  ((List.range pathMax).map pathname.chars).takeWhile (· ≠ '\x00')

end Pathname

/-- What `strncpy` copies: zeros follow a string that is too short. -/
def strncpy (str : List Char) (n : Nat) : List Char :=
  str.take n ++ List.replicate (n - str.length) '\x00'

/-- What `search_for_command` did: the command it returned, or the message in front of
`exit(1)`; the names handed to `access`, oldest first; and the buffer. -/
structure Searched where
  result : Except String (List Char)
  tried : List (List Char) := []
  pathname : Pathname

/-- `n` and `m`, at the start of a turn. -/
def componentLength (path : List Char) : Nat × Nat :=
  match strchr path ':' with
  | some colon => (path.length - colon.length, path.length - colon.length + 1)
  | none => (path.length, path.length)

/-- Each component moves the search on. -/
theorem componentLength_pos {path : List Char} (h : path ≠ []) : 0 < (componentLength path).2 := by
  unfold componentLength
  split
  · exact Nat.succ_pos _
  · exact List.length_pos_iff.mpr h

/-- The buffer a turn hands to `access`, for the `n` of its start. -/
def fillPathname (pathname : Pathname) (path filename : List Char) (n : Nat) : Pathname :=
  let pathname := pathname.copy 0 (strncpy path n)
  if n ≠ 0 ∧ pathname.chars (n - 1) ≠ '/' then
    (pathname.store n '/').copy (n + 1) (filename ++ ['\x00'])
  else pathname.copy n (filename ++ ['\x00'])

/-- The loop of `search_for_command`; `access(pathname, X_OK)` is zero for the executables. -/
def searchPath (executable : List Char → Bool) (filename : List Char) (pathname : Pathname)
    (path : List Char) : Searched :=
  if _hpath : path = [] then { result := .ok filename, pathname := pathname }
  else
    let n := (componentLength path).1
    let m := (componentLength path).2
    if n + filename.length + 1 ≥ pathMax then
      { result := .error "Error: filename too long\n", pathname := pathname }
    else
      let pathname := fillPathname pathname path filename n
      if executable pathname.text then
        { result := .ok pathname.text, tried := [pathname.text], pathname := pathname }
      else
        let rest := searchPath executable filename pathname (path.drop m)
        { rest with tried := pathname.text :: rest.tried }
termination_by path.length
decreasing_by
  have hpos := componentLength_pos _hpath
  have hlength := List.length_pos_iff.mpr _hpath
  rw [List.length_drop]
  omega

/-- `search_for_command`, for what `getenv("PATH")` returns. -/
def searchForCommand (getenvPath : Option (List Char)) (executable : List Char → Bool)
    (filename : List Char) (pathname : Pathname) : Searched :=
  if (strchr filename '/').isSome then { result := .ok filename, pathname := pathname }
  else
    match getenvPath with
    | none => { result := .ok filename, pathname := pathname }
    | some path => searchPath executable filename pathname path

end Utrace
