import Utrace.Native.Display
import Utrace.Native.Time

/-!
# The text of the trace: `output.c`

What `Output.lean` keeps as records is written here character by character, together with
`current_column`, which is added up by hand at most of the calls that print. The counter is
taken for unbounded; lines stay far below `INT_MAX` characters. So are `opt_a - 1` and
`opt_n*callstack_depth`: the options keep away from the ends of `int`. The times and what is
found in the thread come in as data.
-/

namespace Utrace

/-- The options and the table that `output.c` consults. -/
structure Layout where
  /-- `opt_a`. -/
  opta : Int
  /-- `opt_c`. -/
  optc : Bool
  /-- `my_demangle` under `-C`; else the name itself. -/
  demangle : List Char → List Char
  /-- `opt_f`. -/
  optf : Bool
  /-- `opt_i`. -/
  opti : Bool
  /-- `opt_n`. -/
  optn : Int
  /-- `opt_p` is not null. -/
  optp : Bool
  /-- `opt_r`. -/
  optr : Bool
  /-- `opt_s`. -/
  opts : Int
  /-- `opt_t`. -/
  optt : Int
  /-- `opt_T`. -/
  optT : Bool
  /-- `output == stderr`. -/
  toStderr : Bool
  /-- `list_of_functions`. -/
  listOfFunctions : List Function

/-- What a call finds. -/
structure Moment where
  /-- `gimme_arg(type, thr, arg_num)`. -/
  arg : Int → BitVec 32
  /-- The memory of the thread. -/
  mem : Addr → Byte
  /-- The heap each display of an argument finds. -/
  heap : Int → Heap
  /-- `list_of_processes->next` is not null. -/
  several : Bool
  /-- The `gettimeofday` of `opt_r`. -/
  relative : Timeval
  /-- The `gettimeofday` of `opt_t`. -/
  absolute : Timeval
  /-- `tm_hour`, `tm_min` and `tm_sec` of `localtime`. -/
  localtime : Int × Int × Int
  /-- `current_time_spent`. -/
  currentTimeSpent : Timeval

/-- What the display of an argument is given. -/
def Moment.display (w : Moment) (o : Layout) : Display := ⟨o.opts, w.arg, w.mem, w.heap⟩

/-- What a call does for arguments besides printing. -/
inductive Shown where
  /-- `func->arg_types[i]` is read. -/
  | argType (i : Nat)
  /-- `display_arg`, with the text it printed. -/
  | arg (argNum : Int) (type : ArgType) (text : List Char)
  deriving DecidableEq

/-- The static variables of `output.c` and `display_args.c`, and what was written. -/
structure Console where
  /-- `current_pid`. -/
  currentPid : Pid := 0
  /-- `current_depth`. -/
  currentDepth : Nat := 0
  /-- `current_column`. -/
  currentColumn : Int := 0
  /-- `old_tv`. -/
  oldTv : Timeval := ⟨0, 0⟩
  /-- `string_maxlength`. -/
  stringMaxlength : Int := intMax
  /-- The characters written to `output`. -/
  text : List Char := []
  /-- What was done for arguments besides, oldest first. -/
  shown : List Shown := []

/-- `%u` and `%lu`. -/
def unsignedInt (n : Int) : List Char := unsigned (n % 2 ^ 32).toNat

namespace Console

/-! ## The arguments -/

/-- `display_arg`. -/
def showArg (d : Display) (argNum : Int) (type : ArgType) : Printing Shown Int :=
  fun stringMaxlength => (d.displayArg stringMaxlength argNum type).map fun shown =>
    ({ ret := shown.1.ret, text := shown.1.text, events := [.arg argNum type shown.1.text] },
      shown.2)

/-- `display_arg(type, thr, i, func->arg_types[i])`. -/
def showDeclared (d : Display) (func : Function) (i : Nat) : Printing Shown Int :=
  (Printing.print (.event (.argType i))).andThen (showArg d i (func.argType i))

/-- `fprintf(output, ", ")`. -/
def separator : Printed Shown := fprintf ", ".toList

/-- Arguments from `i` on with a separator behind each, for as many turns as are left. -/
def showList (d : Display) (func : Function) : Nat → Nat → Printing Shown Int
  | 0, _ => .print .nothing
  | turns + 1, i =>
    ((showDeclared d func i).andThen (.print separator)).andThen (showList d func turns (i + 1))

/-- The arguments of `output_left`. -/
def leftArgs (d : Display) (func : Function) : Printing Shown Int :=
  let turns := ((func.numParams : Int) - func.paramsRight - 1).toNat
  (showList d func turns 0).andThen
    (if func.numParams > func.paramsRight then
      (showDeclared d func turns).andThen
        (.print (if func.paramsRight ≠ 0 then separator else .nothing))
    else .print .nothing)

/-- The arguments of `output_right`. -/
def rightArgs (d : Display) (func : Function) : Printing Shown Int :=
  let start := func.numParams - func.paramsRight
  let turns := ((func.numParams : Int) - 1 - start).toNat
  (showList d func turns start).andThen
    (if func.paramsRight ≠ 0 then showDeclared d func (start + turns) else .print .nothing)

/-- Unknown arguments from `i` on with a separator behind each. -/
def showUnknown (d : Display) : Nat → Int → Printing Shown Int
  | 0, _ => .print .nothing
  | turns + 1, i =>
    ((showArg d i .unknown).andThen (.print separator)).andThen (showUnknown d turns (i + 1))

/-- The arguments of `output_left` for a function that is not declared. -/
def unknownArgs (d : Display) : Printing Shown Int :=
  (showUnknown d 4 0).andThen (showArg d 4 .unknown)

/-- The arguments of an enter line. -/
def enterArgs (d : Display) : Option Function → Printing Shown Int
  | none => unknownArgs d
  | some func => leftArgs d func

/-- The arguments of a return line. -/
def resultArgs (d : Display) : Option Function → Printing Shown Int
  | none => .print .nothing
  | some func => rightArgs d func

/-! ## Printing -/

/-- A call that prints, its result dropped. -/
def print (c : Console) (text : List Char) : Console := { c with text := c.text ++ text }

/-- `current_column += ..`. -/
def count (c : Console) (p : Printed Shown) : Console :=
  { c with
    text := c.text ++ p.text
    shown := c.shown ++ p.events
    currentColumn := c.currentColumn + p.ret }

/-- `current_column += ..`, for a call that may not return. -/
def counting (c : Console) (a : Printing Shown Int) : Option Console :=
  (a c.stringMaxlength).map fun r => { c.count r.1 with stringMaxlength := r.2 }

/-- Such a call, its result dropped. -/
def printing (c : Console) (a : Printing Shown Int) : Option Console :=
  (a c.stringMaxlength).map fun r =>
    { c.print r.1.text with shown := c.shown ++ r.1.events, stringMaxlength := r.2 }

/-! ## Lines -/

/-- The thread id in front of a line. -/
def tidPrefix (o : Layout) (w : Moment) (thr : Thread) : Printed Shown :=
  if !o.toStderr ∧ (o.optp ∨ o.optf) then fprintf (unsignedInt thr.tid ++ [' '])
  else if w.several then fprintf ("[tid ".toList ++ unsignedInt thr.tid ++ "] ".toList)
  else .nothing

/-- `opt_r`. -/
def relativeStamp (diff : Timeval) : Printed Shown :=
  fprintf (padded ' ' 3 (unsignedInt diff.tvSec) ++ '.' :: zeroPadded 6 diff.tvUsec ++ [' '])

/-- `%02d:%02d:%02d`. -/
def clock (tm : Int × Int × Int) : List Char :=
  zeroPadded 2 tm.1 ++ ':' :: zeroPadded 2 tm.2.1 ++ ':' :: zeroPadded 2 tm.2.2

/-- `opt_t`. -/
def absoluteStamp (o : Layout) (w : Moment) : Printed Shown :=
  if o.optt = 0 then .nothing
  else if o.optt > 2 then
    fprintf (unsignedInt w.absolute.tvSec ++ '.' :: zeroPadded 6 w.absolute.tvUsec ++ [' '])
  else if o.optt > 1 then
    fprintf (clock w.localtime ++ '.' :: zeroPadded 6 w.absolute.tvUsec ++ [' '])
  else fprintf (clock w.localtime ++ [' '])

/-- `opt_i`. -/
def addressPrefix (o : Layout) (type : Tof) (thr : Thread) : Printed Shown :=
  if o.opti then
    if type = .function ∨ type = .functionr then
      fprintf ('[' :: pointer thr.returnAddr.toNat ++ "] ".toList)
    else fprintf ('[' :: pointer thr.instructionPointer.toNat ++ "] ".toList)
  else .nothing

/-- `output_indent`. -/
def outputIndent (o : Layout) (thr : Thread) (c : Console) : Console :=
  c.count (fprintf (blanks (o.optn * thr.callstack.depth)))

/-- `begin_of_line`. -/
def beginOfLine (o : Layout) (w : Moment) (type : Tof) (thr : Option Thread) (c : Console) :
    Console :=
  let c := { c with currentColumn := 0 }
  match thr with
  | none => c
  | some thr =>
    let c := c.count (tidPrefix o w thr)
    let c :=
      if o.optr then
        let (diff, oldTv) := relativeTime c.oldTv w.relative
        { c.count (relativeStamp diff) with oldTv := oldTv }
      else c
    let c := c.count (absoluteStamp o w)
    let c := c.count (addressPrefix o type thr)
    if o.optn > 0 ∧ type ≠ .none then outputIndent o thr c else c

/-- `output_line`, with the text its format and arguments make, if there is a format. -/
def outputLine (o : Layout) (w : Moment) (thr : Option Thread) (fmt : Option (List Char))
    (c : Console) : Console :=
  if o.optc then c
  else
    let c := if c.currentPid ≠ 0 then c.print " <unfinished ...>\n".toList else c
    let c := { c with currentPid := 0 }
    match fmt with
    | none => c
    | some text =>
      { (beginOfLine o w .none thr c).print (text ++ ['\n']) with currentColumn := 0 }

/-- `tabto`. -/
def tabto (col : Int) (c : Console) : Console :=
  if c.currentColumn < col then c.print (blanks (col - c.currentColumn)) else c

/-- `add_prefix_space`. -/
def addPrefixSpace (currentPid : Pid) (depth : Nat) (isLeft : Bool) : Printed Shown :=
  let spaces := List.replicate (min depth maxCalldepth) ' ' ++
    (if isLeft then '+' else '-') :: '[' :: padded ' ' 2 (signed depth) ++ [']']
  fprintf ('[' :: padded ' ' 5 (signed currentPid) ++ "] ".toList ++ spaces)

/-- `output_left` up to the arguments. -/
def openLeft (o : Layout) (w : Moment) (type : Tof) (thr : Thread) (functionName : List Char)
    (c : Console) : Console :=
  let c :=
    if c.currentPid ≠ 0 then
      { c.print " <unfinished ...>\n".toList with currentPid := 0, currentColumn := 0 }
    else c
  let c := { c with currentPid := thr.tid, currentDepth := thr.callstack.depth }
  let c := beginOfLine o w type (some thr) c
  let c := c.count (addPrefixSpace c.currentPid c.currentDepth true)
  c.count (fprintf (o.demangle functionName ++ ['(']))

/-- `output_left`. -/
def outputLeft (o : Layout) (w : Moment) (type : Tof) (thr : Thread) (functionName : List Char)
    (c : Console) : Option Console :=
  if o.optc then some c
  else
    (openLeft o w type thr functionName c).counting
      (enterArgs (w.display o) (name2func o.demangle o.listOfFunctions functionName))

/-- `output_right` up to the arguments. -/
def openRight (o : Layout) (w : Moment) (type : Tof) (thr : Thread) (functionName : List Char)
    (c : Console) : Console :=
  let c :=
    if c.currentPid ≠ 0 ∧ (c.currentPid ≠ thr.tid ∨ c.currentDepth ≠ thr.callstack.depth) then
      { c.print " <unfinished ...>\n".toList with currentPid := 0 }
    else c
  if c.currentPid ≠ thr.tid then
    let c := beginOfLine o w type (some thr) c
    let c := c.count (addPrefixSpace c.currentPid thr.callstack.depth false)
    c.count (fprintf (o.demangle functionName ++ " resumed> ".toList))
  else c

/-- The value a call returned. -/
def returnValue (d : Display) : Option Function → Printing Shown Int
  | none => showArg d (-1) .unknown
  | some func =>
    if func.returnType = .void then .print (fprintf "<void>".toList)
    else showArg d (-1) func.returnType

/-- `opt_T`. -/
def timeSpent (o : Layout) (w : Moment) : List Char :=
  if o.optT then
    " <".toList ++ unsignedInt w.currentTimeSpent.tvSec ++
      '.' :: zeroPadded 6 w.currentTimeSpent.tvUsec ++ ['>']
  else []

/-- `output_right` behind the arguments. -/
def closeRight (o : Layout) (w : Moment) (func : Option Function) (c : Console) :
    Option Console :=
  let c := c.count (fprintf ") ".toList)
  let c := (tabto (o.opta - 1) c).print "= ".toList
  (c.printing (returnValue (w.display o) func)).map fun c =>
    { c.print (timeSpent o w ++ ['\n']) with currentPid := 0, currentColumn := 0 }

/-- `output_right`; the call counts of `opt_c` are left out. -/
def outputRight (o : Layout) (w : Moment) (type : Tof) (thr : Thread) (functionName : List Char)
    (c : Console) : Option Console :=
  let func := name2func o.demangle o.listOfFunctions functionName
  if o.optc then some c
  else
    ((openRight o w type thr functionName c).counting (resultArgs (w.display o) func)).bind
      (closeRight o w func)

end Console

end Utrace
