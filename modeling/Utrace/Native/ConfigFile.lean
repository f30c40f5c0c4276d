import Utrace.Native.Config
import Utrace.Native.Arguments

/-!
# Config files: `read_config_file.c`, `main`

A file is the list of its bytes, and a stream is what is left to read of it. A file that cannot
be opened is missing. Debug output is left out.
-/

namespace Utrace

/-- `buf[1024]`. -/
def bufSize : Nat := 1024

/-- The bytes `fgets` puts into the buffer while there is room, and the rest of the stream. -/
def fgetsLoop : Nat → List Char → List Char × List Char
  | 0, stream => ([], stream)
  | _ + 1, [] => ([], [])
  | room + 1, c :: stream =>
    if c = '\n' then (['\n'], stream)
    else
      let read := fgetsLoop room stream
      (c :: read.1, read.2)

/-- `fgets`: one byte of the buffer is for the terminating zero. -/
def fgets (size : Nat) (stream : List Char) : Option (List Char × List Char) :=
  if stream = [] then none else some (fgetsLoop (size - 1) stream)

/-- A piece read leaves no more of the file than there was. -/
theorem length_fgetsLoop (room : Nat) (stream : List Char) :
    (fgetsLoop room stream).2.length ≤ stream.length := by
  induction room generalizing stream with
  | zero => exact le_rfl
  | succ room ih =>
    cases stream with
    | nil => exact le_rfl
    | cons c stream =>
      unfold fgetsLoop
      split
      · exact Nat.le_succ _
      · exact (ih stream).trans (Nat.le_succ _)

/-- What is left of a stream is shorter. -/
theorem length_of_fgets {size : Nat} {stream buf rest : List Char} (hsize : 1 < size)
    (h : fgets size stream = some (buf, rest)) : rest.length < stream.length := by
  obtain ⟨room, rfl⟩ : ∃ room, size = room + 2 := ⟨size - 2, by omega⟩
  cases stream with
  | nil => cases h
  | cons c stream =>
    rw [fgets, if_neg (List.cons_ne_nil c stream)] at h
    change some (fgetsLoop (room + 1) (c :: stream)) = _ at h
    unfold fgetsLoop at h
    split at h
    · cases h
      exact Nat.lt_succ_self _
    · cases h
      exact Nat.lt_succ_of_le (length_fgetsLoop room stream)

/-- The globals of `read_config_file.c`, and the messages handed to `output_line`, newest
first. -/
structure ConfigFile where
  filename : String := ""
  lineNo : Nat := 0
  listOfFunctions : List Function := []
  messages : List String := []

namespace ConfigFile

/-- One turn of the loop of `read_config_file`. -/
def take (s : ConfigFile) (buf : List Char) : ConfigFile :=
  let s := { s with lineNo := s.lineNo + 1 }
  match processLine s.filename s.lineNo buf with
  | .skipped => s
  | .syntaxError message => { s with messages := message :: s.messages }
  | .function tmp => { s with listOfFunctions := tmp :: s.listOfFunctions }

/-- The loop of `read_config_file`. -/
def readStream (s : ConfigFile) (stream : List Char) : ConfigFile :=
  match _h : fgets bufSize stream with
  | none => s
  | some (buf, rest) => readStream (s.take buf) rest
termination_by stream.length
decreasing_by exact length_of_fgets (by decide) _h

end ConfigFile

/-- `read_config_file`, with the content of the file. -/
def readConfigFile (s : ConfigFile) (filename : String) (content : Option (List Char)) :
    ConfigFile :=
  let s := { s with filename := filename }
  match content with
  | none => s
  | some stream => ConfigFile.readStream { s with lineNo := 0 } stream

/-- The files `main` reads, where there is a home directory. -/
def readConfigFiles (sysconfdir home : String) (system personal : Option (List Char)) :
    ConfigFile :=
  readConfigFile (readConfigFile {} (sysconfdir ++ "/ltrace.conf") system)
    (home ++ "/.ltrace.conf") personal

end Utrace
