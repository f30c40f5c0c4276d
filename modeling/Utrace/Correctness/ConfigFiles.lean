import Utrace.Interpretation.Buffers

/-!
# The last declaration of a name

The personal file is read after the system file, and a function put on the list later is found
first. What is put there is made of the pieces the buffer cuts a line into, not of the line,
so the last declaration of a name is found exactly when a long line that is the last to declare
it declares it in its pieces as it does whole.
-/

namespace Utrace

variable {sysconfdir home : String} {system personal name : List Char}

/-- The lines of both files. -/
def lines (system personal : List Char) : List (List Char) :=
  system.splitOn '\n' ++ personal.splitOn '\n'

/-- What the lines declare when each is taken whole, with the positions of the lines. -/
def wholeLines (system personal : List Char) : List (Function × Nat) :=
  placed (fun line => (declares line).toList) 0 (lines system personal)

/-- The functions made while both files are read, each with the line its text stands on. -/
def readOrigins (system personal : List Char) : List (Function × Nat) :=
  origins 0 system ++ origins (system.splitOn '\n').length personal

/-- The function has the name. -/
def named (name : List Char) (func : Function) : Bool := func.name = name

/-- What is promised of a name: without `-C`, the function found is the last one declared by
a whole line, and was made of the text of that line. -/
structure FindsLast (sysconfdir home : String) (system personal name : List Char) : Prop where
  found : name2func id (readConfigFiles sysconfdir home system personal).listOfFunctions name =
    (latest (named name ∘ Prod.fst) (wholeLines system personal)).map Prod.fst
  line : (latest (named name ∘ Prod.fst) (readOrigins system personal)).map Prod.snd =
    (latest (named name ∘ Prod.fst) (wholeLines system personal)).map Prod.snd

/-- The line declares the name, whole or in one of its pieces. -/
def Mentions (name line : List Char) : Prop :=
  latest (named name) (piecesDeclare line) ≠ none ∨
    latest (named name) (declares line).toList ≠ none

/-- Where the last line that declares the name either way is longer than the buffer, the last of
its pieces that declares the name declares what the whole line does. -/
def KeptWhole (system personal name : List Char) : Prop :=
  ∀ before line after, lines system personal = before ++ line :: after →
    bufSize ≤ line.length → Mentions name line → (∀ line' ∈ after, ¬Mentions name line') →
      latest (named name) (piecesDeclare line) = latest (named name) (declares line).toList

/-- Short lines are kept whole anyway. -/
theorem keptWhole_iff_agreeLast : KeptWhole system personal name ↔
    AgreeLast (named name) piecesDeclare (fun line => (declares line).toList)
      (lines system personal) := by
  constructor
  · intro h before line after hlines hline hafter
    by_cases hlong : bufSize ≤ line.length
    · exact h before line after hlines hlong hline hafter
    · rw [piecesDeclare_short (Nat.lt_of_not_le hlong)]
  · intro h before line after hlines _ hline hafter
    exact h before line after hlines hline hafter

/-- So are files of short lines. -/
theorem keptWhole_of_short (h : ∀ line ∈ lines system personal, line.length < bufSize)
    (name : List Char) : KeptWhole system personal name := by
  intro before line after hlines hlong
  have hshort := h line (by rw [hlines]; simp)
  exact absurd hlong (Nat.not_le_of_lt hshort)

/-- The list after both files, newest function first. -/
theorem listOfFunctions_readConfigFiles (sysconfdir home : String) (system personal : List Char) :
    (readConfigFiles sysconfdir home system personal).listOfFunctions =
      ((readOrigins system personal).map Prod.fst).reverse := by
  have hsystem := listOfFunctions_readStream
    { filename := sysconfdir ++ "/ltrace.conf" } 0 system
  rw [readConfigFiles, readConfigFile, readConfigFile]
  dsimp only
  rw [listOfFunctions_readStream _ (system.splitOn '\n').length personal]
  dsimp only
  rw [hsystem, List.append_nil, readOrigins, List.map_append, List.reverse_append]

/-- The function found is the last one made, and the observer knows of which line. -/
theorem name2func_readConfigFiles (sysconfdir home : String)
    (system personal name : List Char) :
    name2func id (readConfigFiles sysconfdir home system personal).listOfFunctions name =
      (latest (named name ∘ Prod.fst) (readOrigins system personal)).map Prod.fst := by
  rw [listOfFunctions_readConfigFiles, map_latest]
  rfl

/-- Options of pairs with equal components are equal. -/
theorem eq_of_map_fst_of_map_snd {α β : Type*} {o o' : Option (α × β)}
    (hfst : o.map Prod.fst = o'.map Prod.fst) (hsnd : o.map Prod.snd = o'.map Prod.snd) :
    o = o' := by
  cases o with
  | none => cases o' <;> simp_all
  | some x =>
    cases o' with
    | none => simp at hfst
    | some y => exact congrArg some (Prod.ext (Option.some.inj hfst) (Option.some.inj hsnd))

/-- Reading both files is taking the pieces of all their lines. -/
theorem readOrigins_eq (hsystem : '\x00' ∉ system) (hpersonal : '\x00' ∉ personal) :
    readOrigins system personal = placed piecesDeclare 0 (lines system personal) := by
  rw [readOrigins, lines, placed_append, origins_eq_placed hsystem, origins_eq_placed hpersonal,
    Nat.zero_add]

/-- For every pair of files without zero bytes and every name: the last declaration of the name
by a whole line is the one found exactly when the last line that declares the name, whole or
in pieces, is short, or declares in its pieces what it declares whole. -/
theorem finds_last_iff (hsystem : '\x00' ∉ system) (hpersonal : '\x00' ∉ personal) :
    (∀ name, FindsLast sysconfdir home system personal name) ↔
      ∀ name, KeptWhole system personal name := by
  refine forall_congr' fun name => ?_
  rw [keptWhole_iff_agreeLast, ← latest_placed_eq_iff (k := 0), ← readOrigins_eq hsystem hpersonal]
  constructor
  · intro h
    have hfound := h.found
    rw [name2func_readConfigFiles] at hfound
    exact eq_of_map_fst_of_map_snd hfound h.line
  · intro h
    refine ⟨?_, congrArg _ h⟩
    rw [name2func_readConfigFiles]
    exact congrArg _ h

/-- The personal file overrides the system file. -/
theorem finds_last_iff_short : FindsLast "/etc" "/root" "int f(int);\nvoid g(void);".toList
    "int f(string);".toList "f".toList := by
  have hsystem : '\x00' ∉ "int f(int);\nvoid g(void);".toList := by simp
  have hpersonal : '\x00' ∉ "int f(string);".toList := by simp
  refine (finds_last_iff hsystem hpersonal).mpr (fun name => keptWhole_of_short ?_ name) _
  decide

/-- A line that begins with a semicolon declares nothing. -/
theorem declares_semicolon (text : List Char) : declares (';' :: text) = none := by
  have hunknown : (str2type (eatSpaces (cString (';' :: text)))).1 = .unknown := by
    have hline : eatSpaces (cString (';' :: text)) = ';' :: cString text := by
      simp [eatSpaces, cString]
    rw [hline, str2type]
    simp [listOfPt]
  unfold declares processLine
  simp [hunknown]

/-- A comment that fills the buffer, with text behind it. -/
def longComment (text : List Char) : List Char :=
  ';' :: (List.replicate (bufSize - 2) ' ' ++ text)

/-- A long comment in front of a file adds no declaration. -/
theorem piecesDeclare_longComment (text : List Char) :
    piecesDeclare (longComment text) = piecesDeclare text := by
  have hlength : (';' :: List.replicate (bufSize - 2) ' ').length = bufSize - 1 := by
    rw [List.length_cons, List.length_replicate]
    rfl
  have hfull : bufSize - 1 ≤ (longComment text).length := by
    rw [longComment, ← List.cons_append, List.length_append, hlength]
    exact Nat.le_add_right ..
  rw [piecesDeclare_full hfull, longComment, ← List.cons_append, List.take_left' hlength,
    List.drop_left' hlength, declares_semicolon]
  rfl

/-- A file of one long comment. -/
theorem splitOn_longComment {text : List Char} (htext : '\n' ∉ text) :
    (longComment text).splitOn '\n' = [longComment text] := by
  apply List.splitOn_eq_singleton
  simp [longComment, htext]

/-- A long comment adds no NUL to the file. -/
theorem zero_notMem_longComment {text : List Char} (htext : '\x00' ∉ text) :
    '\x00' ∉ longComment text := by
  simp [longComment, htext]

/-- The end of a comment that is too long is taken for a declaration. -/
theorem comment_end_declares :
    ¬∀ (sysconfdir home : String) (system personal : List Char),
      '\x00' ∉ system → '\x00' ∉ personal → ∀ name,
        name2func id (readConfigFiles sysconfdir home system personal).listOfFunctions name =
          (latest (named name ∘ Prod.fst) (wholeLines system personal)).map Prod.fst := by
  intro hclaim
  have hzero : '\x00' ∉ "int f(int);".toList := by simp
  have hend : '\n' ∉ "int f(int);".toList := by simp
  have hsame := hclaim "/etc" "/root" (longComment "int f(int);".toList) []
    (zero_notMem_longComment hzero) List.not_mem_nil ['f']
  have hpieces : piecesDeclare "int f(int);".toList = [oneInt] := by
    rw [piecesDeclare_short (by decide), declares_eq_some.mpr (processLine_oneInt "" 0)]
    rfl
  have hnone : piecesDeclare [] = [] := by
    rw [piecesDeclare_short (by decide), declares_nil]
    rfl
  have hread : readOrigins (longComment "int f(int);".toList) [] = [(oneInt, 0)] := by
    rw [readOrigins_eq (zero_notMem_longComment hzero) List.not_mem_nil, lines,
      splitOn_longComment hend]
    simp only [List.splitOn_nil, List.singleton_append, placed, piecesDeclare_longComment, hpieces,
      hnone]
    rfl
  have hwhole : wholeLines (longComment "int f(int);".toList) [] = [] := by
    rw [wholeLines, lines, splitOn_longComment hend]
    simp [placed, declares_nil, longComment, declares_semicolon]
  rw [name2func_readConfigFiles, hread, hwhole] at hsame
  simp [latest, named, oneInt] at hsame

end Utrace
