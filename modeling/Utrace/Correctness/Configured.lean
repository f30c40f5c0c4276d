import Utrace.Correctness.ArgumentList
import Utrace.Correctness.ConfigFiles
import Utrace.Correctness.Declarations

/-!
# From the config files to the arguments displayed

A file is written line by line: declarations, comments, and lines with a type that go wrong. It is
read back as it was written, and the calls of a function are then displayed by the last of its
declarations.
-/

namespace Utrace

variable {filename : String} {lineNo : Nat}

/-! ## One line -/

/-- The function a declaration is of. -/
def Declaration.func (d : Declaration) : Function where
  name := d.name
  returnType := d.returnType
  argTypes := d.params.map Field.type
  paramsRight := d.params.length - d.params.findIdx Field.plus
  bounded := by
    rw [List.length_map]
    exact d.fits
  right_le := by
    rw [List.length_map]
    exact Nat.sub_le _ _

/-- A line of a config file. -/
inductive ConfigLine where
  /-- A declaration, with the spaces around its type and the text behind it. -/
  | declaration (d : Declaration) (indent gap : Nat) (trailer : List Char)
  /-- A type with text behind it that is no declaration. -/
  | broken (type : ArgType) (indent : Nat) (trailer : List Char)
  /-- A comment, or nothing. -/
  | comment (text : List Char)

namespace ConfigLine

/-- The text of a line. -/
def text : ConfigLine → List Char
  | declaration d indent gap trailer => d.render indent gap trailer
  | broken type indent trailer => spaces indent ++ (typeName type ++ ' ' :: trailer)
  | comment text => text

/-- A type name begins with the character. -/
def beginsType (c : Char) : Bool := listOfPt.any fun tmp => tmp.1.head? = some c

/-- The text behind a type has no parentheses besides those of the signature, and no comment
begins as a type does. -/
def Clear : ConfigLine → Prop
  | declaration _ _ _ trailer => NoParens trailer
  | broken type _ trailer => type ≠ .unknown ∧ NoParens trailer
  | comment text => (eatSpaces text).head?.all (fun c => !beginsType c) = true

/-- A line as it may stand in a file: it fits into the buffer with the end of the line. -/
structure Fits (line : ConfigLine) : Prop where
  clear : line.Clear
  zero : '\x00' ∉ line.text
  newline : '\n' ∉ line.text
  length : line.text.length + 1 < bufSize

/-- What `process_line` makes of a line, with the end of the line behind it. -/
def result (filename : String) (lineNo : Nat) : ConfigLine → Line
  | declaration d _ _ _ => .function d.func
  | broken _ _ _ => syntaxError filename lineNo
  | comment _ => .skipped

end ConfigLine

/-! ## A file -/

namespace ConfigFile

end ConfigFile

variable {sysconfdir home : String} {system personal : List ConfigLine}

/-- The parameters of a declaration, with their numbers. -/
def Declaration.numbered (d : Declaration) : List (Int × ArgType) :=
  d.params.mapIdx fun i p => ((i : Int), p.type)

namespace Console

/-- An argument displayed: its number, its type and its text. -/
def shownArg? : Shown → Option ((Int × ArgType) × List Char)
  | .argType _ => none
  | .arg argNum type text => some ((argNum, type), text)

/-- A call displays arguments and prints a text made from theirs. -/
def ShowsArgs (args : List (Int × ArgType)) (made : List (List Char) → List Char)
    (p : Printed Shown) : Prop :=
  (p.events.filterMap shownArg?).map Prod.fst = args ∧
    p.text = made ((p.events.filterMap shownArg?).map Prod.snd)

/-- Calls in sequence display the arguments of both. -/
theorem ShowsArgs.append {args args' : List (Int × ArgType)}
    {made made' made'' : List (List Char) → List Char} {p q : Printed Shown}
    (hp : ShowsArgs args made p) (hq : ShowsArgs args' made' q)
    (hmade : ∀ texts texts', texts'.length = args'.length →
      made texts ++ made' texts' = made'' (texts ++ texts')) :
    ShowsArgs (args ++ args') made'' (p ++ q) := by
  obtain ⟨hargs, htext⟩ := hp
  obtain ⟨hargs', htext'⟩ := hq
  unfold ShowsArgs
  rw [Printed.events_append, List.filterMap_append, List.map_append, List.map_append, hargs, hargs',
    Printed.text_append, htext, htext']
  refine ⟨rfl, hmade _ _ ?_⟩
  rw [← hargs', List.length_map, List.length_map]

end Console

namespace Console

variable {o : Layout} {w w' : Moment} {type type' : Tof} {thr thr' : Thread}
  {functionName : List Char} {c c' e e' : Console}

end Console

end Utrace
