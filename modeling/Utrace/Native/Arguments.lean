import Utrace.Native.Types

/-!
# Arguments: `display_args.c`, `output_right`, `sysdeps/linux-gnu/i386/trace.c`

Which words of a stopped thread the display of a result asks for. What the words hold comes
in as data; the text printed for them is left out.
-/

namespace Utrace

/-- `enum tof`. -/
inductive Tof where
  | none
  | function
  | functionr
  | syscall
  | syscallr
  deriving DecidableEq, Repr

/-- A word of a stopped thread. -/
inductive Word where
  /-- `PTRACE_PEEKUSER`. -/
  | user (offset : Int)
  /-- `PTRACE_PEEKTEXT`. -/
  | text (addr : Addr)
  deriving DecidableEq, Repr

/-- `EAX`, the index of the register in the user area. -/
def eax : Int := 6

/-- `gimme_arg`: the word it reads. -/
def gimmeArg (type : Tof) (thr : Thread) (argNum : Int) : Except Halt Word :=
  if argNum = -1 then .ok (.user (4 * eax))
  else
    match type with
    | .function | .functionr => .ok (.text (thr.stackPointer + BitVec.ofInt 32 (4 * (argNum + 1))))
    | .syscall | .syscallr => .ok (.user (4 * argNum))
    | .none => .error (.exit 1)

/-- What is found in the traced thread. -/
structure Answers where
  /-- The value of a word. -/
  word : Word → Int
  /-- The block `umovestr` filled from an address. -/
  block : Int → List Byte

/-- The byte of a character. -/
def byteOf (c : Char) : Byte := BitVec.ofNat 8 c.toNat

/-- The second loop of `display_format`: how many further arguments it asks for. A directive
begins at a `%` and may skip characters; `inside` tells whether one has begun. The loop over
a directive leaves at a zero byte as well, and the outer loop then steps over that byte. -/
def formatArgs (inside : Bool) : List Byte → Nat
  | [] => 0
  | c :: str1 =>
    if inside then
      if c = byteOf '%' ∨ c = 0 then formatArgs false str1
      else if c ∈ "diuoxXcs".toList.map byteOf then formatArgs false str1 + 1
      -- The byte that follows is overwritten with a zero.
      else if c ∈ "eEfg".toList.map byteOf then 0
      else if c = byteOf '*' then formatArgs true str1 + 1
      else formatArgs true str1
    else if c = 0 then 0
    else formatArgs (c = byteOf '%') str1

/-- `display_format`: the arguments it asks `gimme_arg` for. -/
def displayFormat (answers : Answers) (type : Tof) (thr : Thread) (argNum : Int) : List Int :=
  argNum ::
    match gimmeArg type thr argNum with
    | .error _ => []
    | .ok word =>
      if answers.word word = 0 then []
      else (List.range (formatArgs false (answers.block (answers.word word)))).map
        fun k => argNum + 1 + k

/-- `display_stringN`; `display_string` asks for one argument. -/
def displayStringN (arg2 argNum : Int) : List Int := [arg2 - 1, argNum]

/-- `display_arg`: the arguments it asks `gimme_arg` for. -/
def displayArg (answers : Answers) (type : Tof) (thr : Thread) (argNum : Int) :
    ArgType → List Int
  | .void => []
  | .int | .uint | .octal | .char | .addr | .string => [argNum]
  | .format => displayFormat answers type thr argNum
  | .string0 => displayStringN 0 argNum
  | .string1 => displayStringN 1 argNum
  | .string2 => displayStringN 2 argNum
  | .string3 => displayStringN 3 argNum
  -- `display_unknown`.
  | .unknown | .file => [argNum]

/-- `name2func`; `demangle` is `my_demangle` under `-C`, and else changes nothing. -/
def name2func (demangle : List Char → List Char) (listOfFunctions : List Function)
    (name : List Char) : Option Function :=
  listOfFunctions.find? fun func => demangle func.name = demangle name

/-- `arg_types[i]`. -/
def Function.argType (func : Function) (i : Nat) : ArgType := func.argTypes.getD i .unknown

/-- `output_right`: the arguments it asks `gimme_arg` for, with the declaration found. The
loop stops before the last parameter, which is displayed after it. -/
def outputRightArgs (answers : Answers) (type : Tof) (thr : Thread) :
    Option Function → List Int
  | none => displayArg answers type thr (-1) .unknown
  | some func =>
    let i := func.numParams - func.paramsRight
    let params := (List.range' i (func.paramsRight - 1)).flatMap fun (i : Nat) =>
      displayArg answers type thr i (func.argType i)
    let last := func.numParams - 1
    let right :=
      if func.paramsRight ≠ 0 then displayArg answers type thr last (func.argType last) else []
    let result :=
      if func.returnType = .void then [] else displayArg answers type thr (-1) func.returnType
    params ++ right ++ result

end Utrace
