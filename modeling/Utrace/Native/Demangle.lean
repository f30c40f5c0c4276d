import Utrace.Native.Counts

/-!
# Demangled names: `demangle.c`, and `name2func` of `output.c`

`cplus_demangle` is library code and comes in as a function; a null pointer is `none`. `strdup` is
taken to succeed. What `name2func` and the lines print goes through one table, so the state of
`demangle.c` is passed from call to call.
-/

namespace Utrace

/-- The table behind `d`. -/
structure DemangleDict where
  dict : Dict CString CString
  hash : dict.key2hash = dictKey2hashString
  cmp : dict.keyCmp = dictKeyCmpString

namespace DemangleDict

/-- The names are compared exactly. -/
theorem exact (d : DemangleDict) : d.dict.Exact := by
  intro k k'
  rw [d.cmp]
  exact dictKeyCmpString_eq_zero_iff k k'

/-- `dict_init(dict_key2hash_string, dict_key_cmp_string)`. -/
def init : DemangleDict := ⟨dictInit dictKey2hashString dictKeyCmpString, rfl, rfl⟩

/-- `dict_find_entry`. -/
def find (d : DemangleDict) (name : CString) : Option CString := dictFindEntry d.dict name

/-- `dict_enter`. -/
def enter (d : DemangleDict) (name value : CString) : DemangleDict :=
  ⟨dictEnter d.dict name value, d.hash, d.cmp⟩

/-- The empty table holds no name. -/
@[simp] theorem find_init (name : CString) : init.find name = none :=
  dictFindEntry_dictInit _ _ name

/-- An entered name is found, and the other names as before. -/
theorem find_enter (d : DemangleDict) (name value name' : CString) :
    (d.enter name value).find name' =
      (d.find name').or (if name' = name then some value else none) :=
  dictFindEntry_dictEnter d.exact name value name'

end DemangleDict

/-- `d`, and the names `cplus_demangle` was called for, latest first. -/
structure Demangler where
  d : Option DemangleDict := none
  asked : List CString := []

namespace Demangler

variable (cplusDemangle : CString → Option CString) {α : Type*}

/-- `my_demangle`. -/
def myDemangle (s : Demangler) (functionName : CString) : CString × Demangler :=
  let d := s.d.getD .init
  match d.find functionName with
  | some tmp => (tmp, { s with d := some d })
  | none =>
    let fnCopy := functionName
    let tmp := (cplusDemangle functionName).getD fnCopy
    (tmp, { d := some (d.enter fnCopy tmp), asked := functionName :: s.asked })

/-- `opt_C ? my_demangle(name) : name`. -/
def shownName (optC : Bool) (s : Demangler) (name : CString) : CString × Demangler :=
  if optC then s.myDemangle cplusDemangle name else (name, s)

/-- `name2func`, for the functions of the list under their names. Both names are looked up
again in every turn. -/
def name2func (optC : Bool) (s : Demangler) (name : CString) :
    List (CString × α) → Option α × Demangler
  | [] => (none, s)
  | tmp :: listOfFunctions =>
    let str1 := s.shownName cplusDemangle optC tmp.1
    let str2 := str1.2.shownName cplusDemangle optC name
    if strcmp str1.1.bytes str2.1.bytes = 0 then (some tmp.2, str2.2)
    else name2func optC str2.2 name listOfFunctions

/-- A use of a name, in a line or to find its declaration. -/
inductive Use (α : Type*) where
  | shown (name : CString)
  | declared (listOfFunctions : List (CString × α)) (name : CString)

/-- What the use yields. -/
def use (optC : Bool) (s : Demangler) : Use α → (CString ⊕ Option α) × Demangler
  | .shown name =>
    let shown := s.shownName cplusDemangle optC name
    (.inl shown.1, shown.2)
  | .declared listOfFunctions name =>
    let found := s.name2func cplusDemangle optC name listOfFunctions
    (.inr found.1, found.2)

/-- One use after the other, with what they yield. -/
def uses (optC : Bool) (s : Demangler) : List (Use α) → List (CString ⊕ Option α) × Demangler
  | [] => ([], s)
  | u :: us =>
    let first := s.use cplusDemangle optC u
    let rest := uses optC first.2 us
    (first.1 :: rest.1, rest.2)

end Demangler

end Utrace
