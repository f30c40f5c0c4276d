import Utrace.Native.Types

/-!
# Declarations: `read_config_file.c`

A line is the list of its characters up to the terminating zero, and a pointer into it is
what is left of it from there on.
-/

namespace Utrace

/-- `list_of_pt`. -/
def listOfPt : List (List Char × ArgType) :=
  [("void".toList, .void), ("int".toList, .int), ("uint".toList, .uint),
    ("octal".toList, .octal), ("char".toList, .char), ("addr".toList, .addr),
    ("file".toList, .file), ("format".toList, .format), ("string".toList, .string),
    ("string0".toList, .string0), ("string1".toList, .string1),
    ("string2".toList, .string2), ("string3".toList, .string3)]

/-- The character after a type name is one of ` ,)#`, or the terminating zero, which `index`
finds as well. -/
def endsType (str : List Char) : Bool := str.head?.all (· ∈ " ,)#".toList)

/-- `str2type`, with what is left of the string. -/
def str2type (str : List Char) : ArgType × List Char :=
  match listOfPt.find? fun tmp => tmp.1.isPrefixOf str && endsType (str.drop tmp.1.length) with
  | some tmp => (tmp.2, str.drop tmp.1.length)
  | none => (.unknown, str)

/-- `eat_spaces`. -/
def eatSpaces (str : List Char) : List Char := str.dropWhile (· = ' ')

/-- The loop of `start_of_arg_sig`, over what lies left of `pos`, read backwards; the position
is the number of characters left of it. -/
def argSigLoop (stacked : Int) : List Char → Option Nat
  | [] => none
  | c :: left =>
    if c = ')' then argSigLoop (stacked + 1) left
    else if c = '(' then
      if 0 < stacked - 1 then argSigLoop (stacked - 1) left
      else if stacked - 1 = 0 then some left.length
      else none
    else argSigLoop stacked left

/-- `start_of_arg_sig`: the position of the left parenthesis. -/
def startOfArgSig (str : List Char) : Option Nat := argSigLoop 0 str.reverse

/-- What `process_line` makes of a line. -/
inductive Line where
  | skipped
  /-- The message of `output_line`. -/
  | syntaxError (message : String)
  | function (fun_p : Function)
  deriving DecidableEq

/-- The message of a syntax error. -/
def syntaxError (filename : String) (lineNo : Nat) : Line :=
  .syntaxError s!"Syntax error in `{filename}', line {lineNo}"

/-- The parameters read so far: `arg_types` up to `i`, and `params_right`. -/
structure Params where
  argTypes : List ArgType
  paramsRight : Nat
  right_le : paramsRight ≤ argTypes.length

namespace Params

/-- Before the loop. -/
def none : Params := ⟨[], 0, le_rfl⟩

/-- One more parameter, with a `+` in front of it or not. -/
def add (params : Params) (plus : Bool) (type : ArgType) : Params where
  argTypes := params.argTypes ++ [type]
  paramsRight := if plus ∨ params.paramsRight ≠ 0 then params.paramsRight + 1 else 0
  right_le := by
    have hle := params.right_le
    rw [List.length_append, List.length_singleton]
    split <;> omega

end Params

/-- The loop of `process_line` over the parameters, for as many turns as are left: what was
read, and what is left of the line. -/
def readParams (returnType : ArgType) : Nat → Params → List Char → Option (Params × List Char)
  | 0, params, str => some (params, str)
  | turns + 1, params, str =>
    match eatSpaces str with
    | ')' :: str => some (params, ')' :: str)
    | str =>
      let plus := str.head? = some '+'
      let read := str2type (if plus then str.tail else str)
      let params := params.add plus read.1
      -- The type checked is that of the function.
      if returnType = .unknown then none
      else
        match eatSpaces read.2 with
        | ',' :: str => readParams returnType turns params str
        | ')' :: str => readParams returnType turns params (')' :: str)
        | _ => none

/-- Each turn adds one parameter at most. -/
theorem length_readParams {returnType : ArgType} {turns : Nat} {params params' : Params}
    {str rest : List Char} (h : readParams returnType turns params str = some (params', rest)) :
    params'.argTypes.length ≤ params.argTypes.length + turns := by
  induction turns generalizing params str with
  | zero =>
    cases h
    exact le_rfl
  | succ turns ih =>
    have hadd : ∀ plus type, (params.add plus type).argTypes.length + turns =
        params.argTypes.length + (turns + 1) := by
      intro plus type
      rw [Params.add, List.length_append, List.length_singleton]
      omega
    unfold readParams at h
    split at h
    · cases h
      exact Nat.le_add_right ..
    · dsimp only at h
      split at h
      · cases h
      · split at h
        · exact hadd _ _ ▸ ih h
        · exact hadd _ _ ▸ ih h
        · cases h

/-- The text before the terminating zero. -/
def cString (buf : List Char) : List Char := buf.takeWhile (· ≠ '\x00')

/-- `process_line`, for the line with a number. -/
def processLine (filename : String) (lineNo : Nat) (buf : List Char) : Line :=
  let read := str2type (eatSpaces (cString buf))
  let returnType := read.1
  if returnType = .unknown then .skipped
  else
    let str := eatSpaces read.2
    match startOfArgSig str with
    | none => syntaxError filename lineNo
    | some tmp =>
      match h : readParams returnType maxArgs .none (str.drop (tmp + 1)) with
      | none => syntaxError filename lineNo
      | some (params, _) => .function
        { name := str.take tmp
          returnType := returnType
          argTypes := params.argTypes
          paramsRight := params.paramsRight
          bounded := by simpa [Params.none] using length_readParams h
          right_le := params.right_le }

end Utrace
