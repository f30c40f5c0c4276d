import Utrace.Native.Breakpoint
import Utrace.Native.Dict
import Utrace.Native.Time

/-!
# Counted calls: the `-c` branch of `output_right`

With `-c` nothing is printed when a call returns: its name is looked up in `dict_opt_c`,
entered there when it is new, and the call and its time are added to the entry. `malloc`
and `strdup` are taken to succeed.
-/

namespace Utrace

/-! ## Tables keyed by strings -/

/-- A C string: its bytes before the terminating zero. -/
structure CString where
  bytes : List Byte
  noZero : 0 ∉ bytes
  deriving DecidableEq

/-- The loop of `dict_key2hash_string`. -/
def key2hashLoop (total : BitVec 32) (shift : Nat) : List Byte → BitVec 32
  | [] => total
  | c :: s =>
    let total := total ^^^ (c.signExtend 32 <<< shift)
    let shift := shift + 5
    key2hashLoop total (if 24 < shift then shift - 24 else shift) s

/-- `dict_key2hash_string`. -/
def dictKey2hashString (key : CString) : BitVec 32 := key2hashLoop 0 0 key.bytes

/-- `strcmp`: the difference of the first two bytes that differ, as `unsigned char`. -/
def strcmp : List Byte → List Byte → BitVec 32
  | [], [] => 0
  | c :: _, [] => c.setWidth 32
  | [], c :: _ => -c.setWidth 32
  | c :: s, c' :: s' => if c = c' then strcmp s s' else c.setWidth 32 - c'.setWidth 32

/-- `dict_key_cmp_string`. -/
def dictKeyCmpString (key1 key2 : CString) : BitVec 32 := strcmp key1.bytes key2.bytes

/-- A byte is zero exactly if its extension is. -/
theorem setWidth_eq_zero_iff {c : Byte} : c.setWidth 32 = 0#32 ↔ c = 0 := by
  constructor
  · intro h
    bv_omega
  · rintro rfl
    rfl

/-- Strings without a zero byte compare equal only to themselves. -/
theorem strcmp_eq_zero_iff {s s' : List Byte} (h : 0 ∉ s) (h' : 0 ∉ s') :
    strcmp s s' = 0 ↔ s = s' := by
  induction s generalizing s' with
  | nil =>
    cases s' with
    | nil => exact iff_of_true rfl rfl
    | cons c s' =>
      refine iff_of_false (fun hcmp => h' ?_) (List.cons_ne_nil c s').symm
      have hzero : c.setWidth 32 = 0#32 := by simpa [strcmp] using hcmp
      rw [setWidth_eq_zero_iff.mp hzero]
      exact List.mem_cons_self
  | cons c s ih =>
    cases s' with
    | nil =>
      refine iff_of_false (fun hcmp => h ?_) (List.cons_ne_nil c s)
      rw [setWidth_eq_zero_iff.mp hcmp]
      exact List.mem_cons_self
    | cons c' s' =>
      rw [strcmp]
      by_cases hc : c = c'
      · subst hc
        rw [if_pos rfl, List.cons.injEq, ih (List.not_mem_of_not_mem_cons h)
          (List.not_mem_of_not_mem_cons h')]
        exact (and_iff_right rfl).symm
      · rw [if_neg hc]
        refine iff_of_false (fun hcmp => hc ?_) fun heq => hc (List.cons.inj heq).1
        bv_omega

/-- Names compare equal only to themselves. -/
theorem dictKeyCmpString_eq_zero_iff (k k' : CString) : dictKeyCmpString k k' = 0 ↔ k = k' := by
  unfold dictKeyCmpString
  rw [strcmp_eq_zero_iff k.noZero k'.noZero, CString.mk.injEq]

/-! ## `dict_opt_c` -/

/-- `struct opt_c_struct`. -/
structure OptCStruct where
  count : Int
  tv : Timeval
  deriving DecidableEq, Repr

/-- The table behind `dict_opt_c`. -/
structure OptCDict where
  dict : Dict CString OptCStruct
  hash : dict.key2hash = dictKey2hashString
  cmp : dict.keyCmp = dictKeyCmpString

namespace OptCDict

/-- So the table tells its keys apart. -/
theorem exact (d : OptCDict) : d.dict.Exact := by
  intro k k'
  rw [d.cmp]
  exact dictKeyCmpString_eq_zero_iff k k'

/-- `dict_init(dict_key2hash_string, dict_key_cmp_string)`. -/
def init : OptCDict := ⟨dictInit dictKey2hashString dictKeyCmpString, rfl, rfl⟩

/-- `dict_find_entry`. -/
def find (d : OptCDict) (name : CString) : Option OptCStruct := dictFindEntry d.dict name

/-- `dict_enter`. -/
def enter (d : OptCDict) (name : CString) (st : OptCStruct) : OptCDict :=
  ⟨dictEnter d.dict name st, d.hash, d.cmp⟩

/-- A write through the pointer a lookup returned. -/
def update (d : OptCDict) (name : CString) (f : OptCStruct → OptCStruct) : OptCDict :=
  ⟨dictUpdate d.dict name f, d.hash, d.cmp⟩

/-- Nothing is found in a new table. -/
@[simp] theorem find_init (name : CString) : init.find name = none :=
  dictFindEntry_dictInit _ _ name

/-- Entering adds what was not found before. -/
theorem find_enter (d : OptCDict) (name : CString) (st : OptCStruct) (name' : CString) :
    (d.enter name st).find name' = (d.find name').or (if name' = name then some st else none) :=
  dictFindEntry_dictEnter d.exact name st name'

/-- Updating changes what is found under its own name. -/
theorem find_update (d : OptCDict) (name : CString) (f : OptCStruct → OptCStruct)
    (name' : CString) : (d.update name f).find name' =
      if name' = name then (d.find name').map f else d.find name' :=
  dictFindEntry_dictUpdate d.exact name f name'

end OptCDict

/-! ## `output_right` -/

/-- The entry made for a name that is new. -/
def OptCStruct.fresh : OptCStruct := { count := 0, tv := { tvSec := 0, tvUsec := 0 } }

/-- What `output_right` adds to an entry. -/
def OptCStruct.add (st : OptCStruct) (currentTimeSpent : Timeval) : OptCStruct :=
  let tv : Timeval :=
    if 1000000 < st.tv.tvUsec + currentTimeSpent.tvUsec then
      { tvUsec := st.tv.tvUsec + (currentTimeSpent.tvUsec - 1000000)
        tvSec := st.tv.tvSec + 1 }
    else { st.tv with tvUsec := st.tv.tvUsec + currentTimeSpent.tvUsec }
  { count := st.count + 1
    tv := { tv with tvSec := tv.tvSec + currentTimeSpent.tvSec } }

/-- The `-c` branch of `output_right`, on `dict_opt_c`. -/
def outputRightOptC (dictOptC : Option OptCDict) (functionName : CString)
    (currentTimeSpent : Timeval) : Option OptCDict :=
  let d := dictOptC.getD .init
  let d :=
    match d.find functionName with
    | some _ => d
    | none => d.enter functionName .fresh
  some (d.update functionName fun st => st.add currentTimeSpent)

end Utrace
