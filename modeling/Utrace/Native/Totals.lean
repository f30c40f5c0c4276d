import Utrace.Native.Counts

/-!
# The table printed at the end: `summary.c`

The entries of `dict_opt_c` are copied out, added up and sorted, and one row is printed for
each. The sums and the row values are computed in the machine integers of i386.
-/

namespace Utrace

/-- `struct entry_st`. -/
structure EntrySt where
  name : CString
  count : Int
  tv : Timeval
  deriving DecidableEq

/-- The static variables of `summary.c`. -/
structure Totals where
  entries : List EntrySt := []
  totCount : BitVec 32 := 0
  totUsecs : BitVec 32 := 0

/-- `fill_struct`, for `dict_apply_to_all`; `realloc` is taken to succeed. -/
def fillStruct (key : CString) (st : OptCStruct) (totals : Totals) : OptCStruct × Totals :=
  (st,
    { entries := totals.entries ++ [{ name := key, count := st.count, tv := st.tv }]
      totCount := totals.totCount + BitVec.ofInt 32 st.count
      totUsecs := totals.totUsecs + 1000000 * BitVec.ofInt 32 st.tv.tvSec +
        BitVec.ofInt 32 st.tv.tvUsec })

/-- `compar`. -/
def compar (en1 en2 : EntrySt) : Int :=
  if en2.tv.tvSec - en1.tv.tvSec ≠ 0 then en2.tv.tvSec - en1.tv.tvSec
  else en2.tv.tvUsec - en1.tv.tvUsec

/-- One row of `show_summary`: the values it is computed from and the fields it prints. -/
structure SummaryRow where
  entry : EntrySt
  /-- The `unsigned long long` variable `c`. -/
  c : BitVec 64
  percent : Nat
  hundredths : Nat
  /-- The two numbers of `%4d.%06d`. -/
  sec : Int
  usec : Int
  usecsPerCall : Nat

/-- The loop body of `show_summary`; a division by zero ends utrace. The product is taken in
`int`, and only then converted; what is printed is converted to `unsigned long`. -/
def summaryRow (totUsecs : BitVec 32) (entry : EntrySt) : Option SummaryRow :=
  let c : BitVec 64 := (1000000 * BitVec.ofInt 32 entry.tv.tvSec +
    BitVec.ofInt 32 entry.tv.tvUsec).signExtend 64
  if totUsecs = 0 ∨ BitVec.ofInt 32 entry.count = 0 then none
  else
    let p := 100000 * c / totUsecs.setWidth 64 + 5
    some
      { entry := entry
        c := c
        percent := ((p / 1000).setWidth 32).toNat
        hundredths := ((p / 10 % 100).setWidth 32).toNat
        sec := entry.tv.tvSec
        usec := entry.tv.tvUsec
        usecsPerCall := ((c / (BitVec.ofInt 32 entry.count).signExtend 64).setWidth 32).toNat }

/-- The loop of `show_summary` over the sorted entries. -/
def summaryRows (totUsecs : BitVec 32) : List EntrySt → Option (List SummaryRow)
  | [] => some []
  | entry :: entries => (summaryRow totUsecs entry).bind fun row =>
    (summaryRows totUsecs entries).map fun rows => row :: rows

/-- What `show_summary` prints: the rows, and the three numbers of the last line. -/
structure Summary where
  rows : List SummaryRow
  totSec : Nat
  totUsec : Nat
  totCount : Int

/-- The totals after `dict_apply_to_all`; a null table is passed over. -/
def totalsOf (dictOptC : Option OptCDict) : Totals :=
  match dictOptC with
  | none => {}
  | some d => (dictApplyToAll d.dict fillStruct {}).2

/-- `show_summary`. -/
def showSummary (dictOptC : Option OptCDict) : Option Summary :=
  let totals := totalsOf dictOptC
  let entries := totals.entries.mergeSort fun en1 en2 => compar en1 en2 ≤ 0
  (summaryRows totals.totUsecs entries).map fun rows =>
    { rows := rows
      totSec := (totals.totUsecs / 1000000).toNat
      totUsec := (totals.totUsecs % 1000000).toNat
      totCount := totals.totCount.toInt }

end Utrace
