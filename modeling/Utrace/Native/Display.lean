import Utrace.Native.Arguments
import Utrace.Native.Printf

/-!
# The text of an argument: `display_args.c`, `umovestr`

Strings are copied out of the traced thread into a block of `malloc` before they are
displayed. The fetches of arguments and every access to such a block are kept beside the
text. A block is followed by whatever else the heap holds; reading past the end of the heap
ends utrace. The `int` variables `len` and the results added up are taken for unbounded: they
stay in their type for texts below `INT_MAX` characters.
-/

namespace Utrace

/-! ## The copy of a string -/

/-- The inner loop of `umovestr` over the bytes of a word: the bytes it stores, and whether
it stored the terminating zero and returned. -/
def copyWord (len : Int) : Nat → List Byte → List Byte × Bool
  | _, [] => ([], false)
  | offset, c :: a =>
    if c ≠ 0 ∧ (offset : Int) < len then
      let rest := copyWord len (offset + 1) a
      (c :: rest.1, rest.2)
    else ([0], true)

/-- The outer loop of `umovestr`, for as many turns as are left. -/
def copyWords (mem : Addr → Byte) (addr : Addr) (len : Int) : Nat → Nat → List Byte
  | 0, _ => [0]
  | turns + 1, offset =>
    let word := copyWord len offset (Memory.peek i386.sizeofLong mem (addr + (offset : Addr)))
    if word.2 then word.1
    else word.1 ++ copyWords mem addr len turns (offset + i386.sizeofLong)

/-- `umovestr`: the bytes it stores from `laddr` on, one after another. As long as
`offset < len`, a further word is read. -/
def umovestr (mem : Addr → Byte) (addr : Addr) (len : Int) : List Byte :=
  copyWords mem addr len ((len + 3) / 4).toNat 0

/-- `INT_MAX`. -/
def intMax : Int := 2 ^ 31 - 1

/-- `MIN(opt_s, string_maxlength)`. -/
def minLength (opts stringMaxlength : Int) : Int :=
  if opts < stringMaxlength then opts else stringMaxlength

/-- `MIN(opt_s, string_maxlength)+3`, converted to `size_t`. -/
def blockSize (opts stringMaxlength : Int) : Nat :=
  ((minLength opts stringMaxlength + 3) % 2 ^ 32).toNat

/-- Whether `malloc` returns a block of a size. -/
def mallocs (size : Nat) : Bool := size < 2 ^ 31

/-- Who accesses a block. -/
inductive Site where
  /-- `umovestr` stores. -/
  | umovestr
  /-- The loop over the characters. -/
  | characters
  /-- The outer loop over the directives of a format. -/
  | scan
  /-- The inner loop, inside a directive. -/
  | directive
  deriving DecidableEq, Repr

/-- What a display does besides printing. -/
inductive Access where
  /-- `gimme_arg`. -/
  | argument (argNum : Int)
  /-- A byte of a block of `size` bytes is read or written. -/
  | byte (site : Site) (index size : Nat)
  deriving DecidableEq, Repr

/-- The heap behind the blocks it hands out. -/
structure Heap where
  /-- For a block of a size, the bytes from its start on. -/
  fresh : Nat → Nat → Byte
  /-- The number of bytes from the start of such a block to the end of the heap. -/
  mapped : Nat → Nat
  le_mapped : ∀ size, size ≤ mapped size

/-- What a display is given. -/
structure Display where
  /-- `opt_s`. -/
  opts : Int
  /-- `gimme_arg(type, thr, arg_num)`. -/
  arg : Int → BitVec 32
  /-- The memory of the thread. -/
  mem : Addr → Byte
  /-- What a block may hold before the copy, at each display of an argument. -/
  heap : Int → Heap

/-! ## Characters and strings -/

/-- `display_char`. -/
def displayChar (what : Int) : Printed Access :=
  if what = -1 then fprintf "EOF".toList
  else if what = 13 then fprintf "\\r".toList
  else if what = 10 then fprintf "\\n".toList
  else if what = 9 then fprintf "\\t".toList
  else if what = 8 then fprintf "\\b".toList
  else if what = 92 then fprintf "\\\\".toList
  else if what < 32 ∨ 126 < what then
    fprintf ('\\' :: padded '0' 3 (octal (BitVec.ofInt 8 what).toNat))
  else fprintf [Char.ofNat what.toNat]

/-- The block after bytes were stored from its start on. -/
def storedIn (fresh : Nat → Byte) (copy : List Byte) (i : Nat) : Byte := copy.getD i (fresh i)

/-- The stores of `umovestr`. -/
def stores (size : Nat) (copy : List Byte) : Printed Access :=
  { events := (List.range copy.length).map fun i => .byte .umovestr i size }

/-- The loop of `display_string`, for as many turns as are left, and the index it ends at. -/
def showBytes (str1 : Nat → Byte) (size : Nat) : Nat → Nat → Printed Access × Nat
  | 0, i => (.nothing, i)
  | turns + 1, i =>
    let read := Printed.event (.byte .characters i size)
    if str1 i ≠ 0 then
      let rest := showBytes str1 size turns (i + 1)
      (read ++ displayChar (str1 i).toNat ++ rest.1, rest.2)
    else (read, i)

/-- The mark of a string that was cut, with the index the display ended at. -/
def showCut (d : Display) (stringMaxlength : Int) (str1 : Nat → Byte) (size i : Nat) :
    Printed Access :=
  Printed.event (.byte .characters i size) ++
    if str1 i ≠ 0 ∧ d.opts ≤ stringMaxlength then fprintf "...".toList else .nothing

namespace Display

/-- `display_string`. -/
def displayString (d : Display) (stringMaxlength argNum : Int) : Printed Access :=
  let addr := d.arg argNum
  let size := blockSize d.opts stringMaxlength
  let length := minLength d.opts stringMaxlength
  let copy := umovestr d.mem addr (length + 1)
  let str1 := storedIn ((d.heap argNum).fresh size) copy
  let shown := showBytes str1 size length.toNat 0
  Printed.event (.argument argNum) ++
    if addr = 0 then fprintf "NULL".toList
    else if mallocs size then
      stores size copy ++ fprintf ['"'] ++ shown.1 ++ fprintf ['"'] ++
        showCut d stringMaxlength str1 size shown.2
    else fprintf "???".toList

/-- `display_stringN`, with the value it leaves in `string_maxlength`. -/
def displayStringN (d : Display) (arg2 argNum : Int) : Printed Access × Int :=
  let stringMaxlength := (d.arg (arg2 - 1)).toInt
  (Printed.event (.argument (arg2 - 1)) ++ d.displayString stringMaxlength argNum, intMax)

/-- `display_unknown`. -/
def displayUnknown (d : Display) (argNum : Int) : Printed Access :=
  let tmp := (d.arg argNum).toInt
  Printed.event (.argument argNum) ++
    if tmp < 1000000 ∧ -1000000 < tmp then fprintf (signed tmp)
    else fprintf (pointer (d.arg argNum).toNat)

/-! ## Formats -/

/-- The first loop of `display_format`: it runs while fewer than `bound` characters were
printed. Every turn prints one at least, so no more than `bound` turns are needed. -/
def showFormat (str1 : Nat → Byte) (size : Nat) (bound : Int) :
    Nat → Int → Nat → Printed Access × Nat
  | 0, _, i => (.nothing, i)
  | turns + 1, len, i =>
    if len < bound then
      let read := Printed.event (.byte .characters i size)
      if str1 i ≠ 0 then
        let c := displayChar (str1 i).toNat
        let rest := showFormat str1 size bound turns (len + c.ret) (i + 1)
        (read ++ c ++ rest.1, rest.2)
      else (read, i)
    else (.nothing, i)

/-- The argument of one conversion or of a `*`, with the text in front of it. -/
def displayAsked (d : Display) (stringMaxlength argNum : Int) (c : Byte) : Printed Access :=
  let value := d.arg argNum
  let fetch := Printed.event (.argument argNum)
  if c = byteOf 'd' ∨ c = byteOf 'i' then fetch ++ fprintf (", ".toList ++ signed value.toInt)
  else if c = byteOf 'u' then fetch ++ fprintf (", ".toList ++ unsigned value.toNat)
  else if c = byteOf 'o' then fetch ++ fprintf (", 0".toList ++ octal value.toNat)
  else if c = byteOf 'x' ∨ c = byteOf 'X' then
    fetch ++ fprintf (", ".toList ++ altHex value.toNat)
  else if c = byteOf 'c' then
    fprintf ", '".toList ++ (fetch ++ displayChar value.toInt) ++ fprintf ['\'']
  else if c = byteOf 's' then
    fprintf ", ".toList ++ d.displayString stringMaxlength argNum
  else fetch ++ fprintf (", ".toList ++ signed value.toInt)

/-- The second loop of `display_format`, and the loop over a directive inside it, with the
bytes of the heap that are left from index `i` on. `inside` tells which of the two loops
reads `str1[i]`; the inner one leaves at a zero byte as well, and the outer one then steps
over that byte. -/
def scanFormat (d : Display) (stringMaxlength : Int) (size : Nat) :
    Nat → Bool → Nat → Int → (Nat → Byte) → Option (Printed Access)
  | 0, _, _, _, _ => none
  | left + 1, false, i, argNum, str1 =>
    let read := Printed.event (.byte .scan i size)
    if str1 i = 0 then some read
    else
      (scanFormat d stringMaxlength size left (str1 i = byteOf '%') (i + 1) argNum str1).map
        fun rest => read ++ rest
  | left + 1, true, i, argNum, str1 =>
    let read := Printed.event (.byte .directive i size)
    let c := str1 i
    if c = byteOf '%' ∨ c = 0 then
      (scanFormat d stringMaxlength size left false (i + 1) argNum str1).map
        fun rest => read ++ rest
    else if ("diuoxXcs".toList.map byteOf).contains c then
      (scanFormat d stringMaxlength size left false (i + 1) (argNum + 1) str1).map
        fun rest => read ++ d.displayAsked stringMaxlength (argNum + 1) c ++ rest
    else if ("eEfg".toList.map byteOf).contains c then
      -- `str1[i+1]='\0'`, which ends the outer loop.
      (scanFormat d stringMaxlength size left false (i + 1) argNum
        (Function.update str1 (i + 1) 0)).map
        fun rest => read ++ fprintf ", ...".toList ++
          Printed.event (.byte .directive (i + 1) size) ++ rest
    else if c = byteOf '*' then
      (scanFormat d stringMaxlength size left true (i + 1) (argNum + 1) str1).map
        fun rest => read ++ d.displayAsked stringMaxlength (argNum + 1) c ++ rest
    else
      (scanFormat d stringMaxlength size left true (i + 1) argNum str1).map
        fun rest => read ++ rest

/-- `display_format`. -/
def displayFormat (d : Display) (stringMaxlength argNum : Int) : Option (Printed Access) :=
  let addr := d.arg argNum
  let size := blockSize d.opts stringMaxlength
  let length := minLength d.opts stringMaxlength
  let copy := umovestr d.mem addr (length + 1)
  let str1 := storedIn ((d.heap argNum).fresh size) copy
  let shown := showFormat str1 size (length + 1) (length + 1).toNat 1 0
  if addr = 0 then some (Printed.event (.argument argNum) ++ fprintf "NULL".toList)
  else if mallocs size then
    let left := (d.heap argNum).mapped size
    (d.scanFormat stringMaxlength size left false 0 argNum str1).map fun rest =>
      Printed.event (.argument argNum) ++ stores size copy ++ fprintf ['"'] ++ shown.1 ++
        fprintf ['"'] ++ showCut d stringMaxlength str1 size shown.2 ++ rest
  else some (Printed.event (.argument argNum) ++ fprintf "???".toList)

/-- `display_arg`, with the value it leaves in `string_maxlength`. -/
def displayArg (d : Display) (stringMaxlength argNum : Int) :
    ArgType → Option (Printed Access × Int)
  | .void => some (.nothing, stringMaxlength)
  | .int => some (fetched (fprintf (signed (d.arg argNum).toInt)))
  | .uint => some (fetched (fprintf (unsigned (d.arg argNum).toNat)))
  | .octal => some (fetched (fprintf ('0' :: octal (d.arg argNum).toNat)))
  | .char => some
    (fprintf ['\''] ++ (Printed.event (.argument argNum) ++ displayChar (d.arg argNum).toInt) ++
      fprintf ['\''], stringMaxlength)
  | .addr => some (fetched
    (if d.arg argNum = 0 then fprintf "NULL".toList else fprintf (pointer (d.arg argNum).toNat)))
  | .format => (d.displayFormat stringMaxlength argNum).map fun p => (p, stringMaxlength)
  | .string => some (d.displayString stringMaxlength argNum, stringMaxlength)
  | .string0 => some (d.displayStringN 0 argNum)
  | .string1 => some (d.displayStringN 1 argNum)
  | .string2 => some (d.displayStringN 2 argNum)
  | .string3 => some (d.displayStringN 3 argNum)
  | .unknown | .file => some (d.displayUnknown argNum, stringMaxlength)
where
  /-- One fetch, and then the text. -/
  fetched (p : Printed Access) : Printed Access × Int :=
    (Printed.event (.argument argNum) ++ p, stringMaxlength)

end Display

end Utrace
