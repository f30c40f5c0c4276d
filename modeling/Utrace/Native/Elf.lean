import Utrace.Native.Breakpoint

/-!
# Symbols of an ELF file: `elf.c`

The file is mapped into memory, and its tables are read through pointers into the mapping.
Every index into the section header table is recorded.
-/

namespace Utrace

/-! ## The structures of `elf.h` -/

/-- `Elf32_Half` at an address. -/
def elfHalf (mem : Addr → Byte) (a : Addr) : BitVec 16 := mem (a + 1) ++ mem a

/-- `Elf32_Word`, `Elf32_Addr` or `Elf32_Off` at an address. -/
def elfWord (mem : Addr → Byte) (a : Addr) : BitVec 32 := elfHalf mem (a + 2) ++ elfHalf mem a

/-- `Elf_Ehdr`. -/
structure ElfEhdr where
  eShoff : BitVec 32
  eShnum : BitVec 16
  eShstrndx : BitVec 16
  deriving DecidableEq

/-- `Elf_Shdr`. -/
structure ElfShdr where
  shName : BitVec 32
  shType : BitVec 32
  shOffset : BitVec 32
  shSize : BitVec 32
  shLink : BitVec 32
  deriving DecidableEq

/-- `Elf_Sym`. -/
structure ElfSym where
  stName : BitVec 32
  stValue : BitVec 32
  stSize : BitVec 32
  stInfo : Byte
  stOther : Byte
  stShndx : BitVec 16
  deriving DecidableEq

/-- `*ehdr`. -/
def elfEhdr (mem : Addr → Byte) (ehdr : Addr) : ElfEhdr where
  eShoff := elfWord mem (ehdr + 32)
  eShnum := elfHalf mem (ehdr + 48)
  eShstrndx := elfHalf mem (ehdr + 50)

/-- `sizeof(Elf_Shdr)`. -/
def sizeofShdr : Nat := 40

/-- `shdr[i]`. -/
def elfShdr (mem : Addr → Byte) (shdr : Addr) (i : Nat) : ElfShdr :=
  let p := shdr + BitVec.ofNat 32 (sizeofShdr * i)
  { shName := elfWord mem p
    shType := elfWord mem (p + 4)
    shOffset := elfWord mem (p + 16)
    shSize := elfWord mem (p + 20)
    shLink := elfWord mem (p + 24) }

/-- `sizeof(Elf_Sym)`. -/
def sizeofSym : Nat := 16

/-- `symtab[i]`. -/
def elfSym (mem : Addr → Byte) (symtab : Addr) (i : Nat) : ElfSym :=
  let p := symtab + BitVec.ofNat 32 (sizeofSym * i)
  { stName := elfWord mem p
    stValue := elfWord mem (p + 4)
    stSize := elfWord mem (p + 8)
    stInfo := mem (p + 12)
    stOther := mem (p + 13)
    stShndx := elfHalf mem (p + 14) }

/-- `SHT_SYMTAB`. -/
def shtSymtab : BitVec 32 := 2

/-- `SHT_DYNSYM`. -/
def shtDynsym : BitVec 32 := 11

/-- `STB_GLOBAL`. -/
def stbGlobal : Byte := 1

/-- `STT_FUNC`. -/
def sttFunc : Byte := 2

/-- `".text"`, without its zero. -/
def textName : List Byte := [0x2e, 0x74, 0x65, 0x78, 0x74]

/-! ## The functions -/

/-- `struct ltelf`, while the file is mapped. -/
structure Ltelf where
  maddr : Addr
  strtab : Addr := 0
  symtab : Addr := 0
  localSymtab : Addr := 0
  symtabLen : BitVec 32 := 0
  localSymtabLen : BitVec 32 := 0
  localStrtab : Addr := 0
  localShstrtab : Addr := 0

/-- `struct library_symbol`, with its name as a pointer into the mapping. -/
structure ElfSymbol where
  enterAddr : Addr
  name : Addr
  deriving DecidableEq, Repr

namespace Ltelf

variable (mem : Addr → Byte) (lte : Ltelf)

/-- `*lte->ehdr`. -/
def ehdr : ElfEhdr := elfEhdr mem lte.maddr

/-- `shdr[i]`. -/
def shdr (i : Nat) : ElfShdr := elfShdr mem (lte.maddr + (lte.ehdr mem).eShoff) i

end Ltelf

/-- Whether `strcmp` returns zero. -/
def strcmpEq (mem : Addr → Byte) (s : Addr) : List Byte → Bool
  | [] => mem s = 0
  | c :: str => mem s = c && strcmpEq mem (s + 1) str

/-- One turn of the loop of `do_load_elf_symtab`, and the indices it adds. -/
def loadSection (mem : Addr → Byte) (loadLocal : Bool) (s : Ltelf × List Nat) (i : Nat) :
    Ltelf × List Nat :=
  let shdr := s.1.shdr mem
  let link := (shdr i).shLink.toNat
  let s := (s.1, s.2 ++ [i])
  let s :=
    if (shdr i).shType = shtDynsym then
      ({ s.1 with
        symtab := s.1.maddr + (shdr i).shOffset
        symtabLen := (shdr i).shSize
        strtab := s.1.maddr + (shdr link).shOffset }, s.2 ++ [link])
    else s
  if loadLocal ∧ (shdr i).shType = shtSymtab then
    ({ s.1 with
      localSymtab := s.1.maddr + (shdr i).shOffset
      localSymtabLen := (shdr i).shSize
      localStrtab := s.1.maddr + (shdr link).shOffset }, s.2 ++ [link])
  else s

/-- `do_load_elf_symtab`. -/
def doLoadElfSymtab (mem : Addr → Byte) (loadLocal : Bool) (lte : Ltelf) : Ltelf × List Nat :=
  let s := (List.range (lte.ehdr mem).eShnum.toNat).foldl (loadSection mem loadLocal) (lte, [])
  let shstrndx := (lte.ehdr mem).eShstrndx.toNat
  ({ s.1 with localShstrtab := s.1.maddr + (s.1.shdr mem shstrndx).shOffset }, s.2 ++ [shstrndx])

/-- `add_local_symbol`; the new symbol comes first. -/
def addLocalSymbol (mem : Addr → Byte) (lte : Ltelf) (i : Nat) (librarySymbols : List ElfSymbol) :
    List ElfSymbol :=
  let sym := elfSym mem lte.localSymtab i
  { enterAddr := sym.stValue, name := lte.localStrtab + sym.stName } :: librarySymbols

/-- One turn of the loop of `read_elf` over the local symbols. The header of the symbol's
section is looked at before the type of the symbol. -/
def readSymbol (mem : Addr → Byte) (lte : Ltelf) (s : List ElfSymbol × List Nat) (i : Nat) :
    List ElfSymbol × List Nat :=
  let sym := elfSym mem lte.localSymtab i
  let shndx := sym.stShndx.toNat
  if sym.stValue ≠ 0 ∧ sym.stSize > 0 ∧ sym.stOther = 0 then
    let s := (s.1, s.2 ++ [shndx])
    if strcmpEq mem (lte.localShstrtab + (lte.shdr mem shndx).shName) textName ∧
        sym.stInfo &&& 0xf = sttFunc ∧ sym.stInfo.sshiftRight 4 = stbGlobal then
      (addLocalSymbol mem lte i s.1, s.2)
    else s
  else s

/-- `read_elf`, for a file mapped at `maddr`. The loop over the dynamic symbols adds none and is
left out. -/
def readElf (mem : Addr → Byte) (maddr : Addr) : List ElfSymbol × List Nat :=
  let loaded := doLoadElfSymtab mem true { maddr := maddr }
  (List.range (loaded.1.localSymtabLen.toNat / sizeofSym)).foldl (readSymbol mem loaded.1)
    ([], loaded.2)

end Utrace
