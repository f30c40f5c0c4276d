import Mathlib.Algebra.Order.BigOperators.Group.List
import Mathlib.Algebra.Order.Ring.Int
import Utrace.Correctness.Summary
import Utrace.Native.Totals

/-!
# The arithmetic of the last table

The total fits its type whenever it is below 2^32, and a row fits an `int` only below 2^31.
The total is what every row divides by, so rows without any time end utrace.
-/

namespace Utrace

/-! ## The entries and their total -/

/-- The entries of the table, as `dict_apply_to_all` meets them. -/
def countedEntries (dictOptC : Option OptCDict) : List EntrySt :=
  match dictOptC with
  | none => []
  | some d => d.dict.entries.map fun e =>
    { name := e.key, count := e.value.count, tv := e.value.tv }

/-- The microseconds of all entries. -/
def totalMicros (entries : List EntrySt) : Int := (entries.map fun e => e.tv.micros).sum

/-- The entry of a name that was called: its fields have their types, and its time is
normalised and not negative. -/
structure EntrySt.Measured (entry : EntrySt) : Prop where
  one_le : 1 ≤ entry.count
  lt : entry.count < 2 ^ 31
  normalised : entry.tv.Normalised
  nonneg : 0 ≤ entry.tv.tvSec

/-- The time of a measured entry is not negative. -/
theorem EntrySt.Measured.micros_nonneg {entry : EntrySt} (h : entry.Measured) :
    0 ≤ entry.tv.micros := by
  have hsec := h.nonneg
  have husec := h.normalised.nonneg
  unfold Timeval.micros
  omega

/-- A chain of entries is copied out, and its time added up. -/
theorem applyChain_fillStruct (es : List (DictEntry CString OptCStruct)) (totals : Totals) :
    (applyChain fillStruct es totals).2.entries = totals.entries ++
        es.map (fun e => { name := e.key, count := e.value.count, tv := e.value.tv }) ∧
      (applyChain fillStruct es totals).2.totUsecs = totals.totUsecs +
        BitVec.ofInt 32 ((es.map fun e => e.value.tv.micros).sum) := by
  induction es generalizing totals with
  | nil => simp [applyChain]
  | cons e es ih =>
    obtain ⟨hentries, husecs⟩ := ih (fillStruct e.key e.value totals).2
    refine ⟨?_, ?_⟩
    · rw [applyChain, hentries]
      simp [fillStruct]
    · rw [applyChain, husecs]
      simp only [fillStruct, List.map_cons, List.sum_cons, Timeval.micros, BitVec.ofInt_add,
        BitVec.ofInt_mul]
      ac_rfl

/-- What `fill_struct` collects from a table. -/
theorem totalsOf_eq (dictOptC : Option OptCDict) :
    (totalsOf dictOptC).entries = countedEntries dictOptC ∧
      (totalsOf dictOptC).totUsecs = BitVec.ofInt 32 (totalMicros (countedEntries dictOptC)) := by
  cases dictOptC with
  | none => exact ⟨rfl, rfl⟩
  | some d =>
    have hflatten := applyBuckets_flatten fillStruct d.dict.buckets {}
    have hsnd : (dictApplyToAll d.dict fillStruct {}).2 =
        (applyChain fillStruct d.dict.entries {}).2 := congrArg Prod.snd hflatten
    obtain ⟨hentries, husecs⟩ := applyChain_fillStruct d.dict.entries {}
    unfold totalsOf countedEntries totalMicros
    dsimp only
    rw [hsnd, hentries, husecs]
    refine ⟨List.nil_append _, ?_⟩
    rw [List.map_map]
    exact BitVec.zero_add _

/-- No entry has more time than all. -/
theorem micros_le_totalMicros {entries : List EntrySt} (h : ∀ e ∈ entries, e.Measured)
    {entry : EntrySt} (hmem : entry ∈ entries) : entry.tv.micros ≤ totalMicros entries := by
  unfold totalMicros
  refine List.single_le_sum ?_ _ (List.mem_map_of_mem hmem)
  intro micros hmicros
  obtain ⟨e, he, rfl⟩ := List.mem_map.mp hmicros
  exact (h e he).micros_nonneg

/-- All time together is not negative. -/
theorem totalMicros_nonneg {entries : List EntrySt} (h : ∀ e ∈ entries, e.Measured) :
    0 ≤ totalMicros entries := by
  refine List.sum_nonneg fun micros hmicros => ?_
  obtain ⟨e, he, rfl⟩ := List.mem_map.mp hmicros
  exact (h e he).micros_nonneg

/-- A number below 2^32 is zero as a machine integer only if it is zero. -/
theorem ofInt_eq_zero_iff {n : Int} (hnonneg : 0 ≤ n) (hlt : n < 2 ^ 32) :
    BitVec.ofInt 32 n = 0 ↔ n = 0 := by
  rw [← BitVec.toNat_inj, BitVec.toNat_ofInt]
  change (n % (2 ^ 32 : Nat)).toNat = 0 ↔ n = 0
  omega

/-! ## One row -/

/-- The row of an entry, where nothing is divided by zero. -/
theorem summaryRow_exists {totUsecs : BitVec 32} (htot : totUsecs ≠ 0) {entry : EntrySt}
    (h : entry.Measured) : ∃ row, summaryRow totUsecs entry = some row := by
  have hcount : BitVec.ofInt 32 entry.count ≠ 0 := by
    have hone := h.one_le
    have hlt := h.lt
    rw [ne_eq, ofInt_eq_zero_iff (by omega) (by omega)]
    omega
  exact ⟨_, if_neg (not_or_intro htot hcount)⟩

/-- The row is that of its entry. -/
theorem entry_summaryRow {totUsecs : BitVec 32} {entry : EntrySt} {row : SummaryRow}
    (hrow : summaryRow totUsecs entry = some row) : row.entry = entry := by
  unfold summaryRow at hrow
  dsimp only at hrow
  split at hrow
  · cases hrow
  · cases hrow
    rfl

/-- The variable `c` of a row is exact below 2^31 microseconds, and from there on it is not. -/
theorem toNat_c_eq_iff {totUsecs : BitVec 32} {entry : EntrySt} {row : SummaryRow}
    (hrow : summaryRow totUsecs entry = some row) (hnonneg : 0 ≤ entry.tv.micros)
    (hlt : entry.tv.micros < 2 ^ 32) :
    (row.c.toNat : Int) = row.entry.tv.micros ↔ row.entry.tv.micros < 2 ^ 31 := by
  unfold summaryRow at hrow
  dsimp only at hrow
  split at hrow
  · cases hrow
  · cases hrow
    have hsum : 1000000 * BitVec.ofInt 32 entry.tv.tvSec + BitVec.ofInt 32 entry.tv.tvUsec =
        BitVec.ofInt 32 entry.tv.micros := by
      unfold Timeval.micros
      rw [BitVec.ofInt_add, BitVec.ofInt_mul]
      rfl
    have htoNat : (BitVec.ofInt 32 entry.tv.micros).toNat = entry.tv.micros.toNat := by
      rw [BitVec.toNat_ofInt, Int.emod_eq_of_lt hnonneg (by exact_mod_cast hlt)]
    dsimp only
    rw [hsum, BitVec.toNat_signExtend, BitVec.toNat_setWidth, htoNat, BitVec.msb_eq_decide, htoNat]
    by_cases hfits : entry.tv.micros < 2 ^ 31
    · rw [if_neg (by rw [decide_eq_true_eq]; omega)]
      omega
    · rw [if_pos (by rw [decide_eq_true_eq]; omega)]
      omega

/-! ## All rows -/

/-- All rows are there. -/
theorem summaryRows_exists {totUsecs : BitVec 32} (htot : totUsecs ≠ 0) {entries : List EntrySt}
    (h : ∀ e ∈ entries, e.Measured) : ∃ rows, summaryRows totUsecs entries = some rows := by
  induction entries with
  | nil => exact ⟨[], rfl⟩
  | cons entry entries ih =>
    obtain ⟨row, hrow⟩ := summaryRow_exists htot (h entry List.mem_cons_self)
    obtain ⟨rows, hrows⟩ := ih fun e he => h e (List.mem_cons_of_mem _ he)
    exact ⟨row :: rows, by rw [summaryRows, hrow, hrows]; rfl⟩

/-- The rows are those of the entries, and every entry has its row. -/
theorem summaryRows_rows {totUsecs : BitVec 32} {entries : List EntrySt} {rows : List SummaryRow}
    (h : summaryRows totUsecs entries = some rows) :
    (∀ row ∈ rows, ∃ e ∈ entries, summaryRow totUsecs e = some row) ∧
      ∀ e ∈ entries, ∃ row ∈ rows, summaryRow totUsecs e = some row := by
  induction entries generalizing rows with
  | nil =>
    cases h
    exact ⟨List.forall_mem_nil _, List.forall_mem_nil _⟩
  | cons entry entries ih =>
    obtain ⟨row, hrow, h⟩ := Option.bind_eq_some_iff.mp h
    obtain ⟨rest, hrest, rfl⟩ := Option.map_eq_some_iff.mp h
    obtain ⟨hrows, hentries⟩ := ih hrest
    refine ⟨List.forall_mem_cons.mpr ⟨⟨entry, List.mem_cons_self, hrow⟩, fun r hr => ?_⟩,
      List.forall_mem_cons.mpr ⟨⟨row, List.mem_cons_self, hrow⟩, fun e he => ?_⟩⟩
    · obtain ⟨e, he, hof⟩ := hrows r hr
      exact ⟨e, List.mem_cons_of_mem _ he, hof⟩
    · obtain ⟨r, hr, hof⟩ := hentries e he
      exact ⟨r, List.mem_cons_of_mem _ hr, hof⟩

/-- Without any time there is no row. -/
theorem entries_eq_nil_of_summaryRows_zero {entries : List EntrySt} {rows : List SummaryRow}
    (h : summaryRows 0 entries = some rows) : entries = [] := by
  cases entries with
  | nil => rfl
  | cons entry entries =>
    obtain ⟨row, hrow, _⟩ := Option.bind_eq_some_iff.mp h
    simp [summaryRow] at hrow

/-- The table is printed, and every row is derived from the exact time of its entry. -/
def SummaryExact (dictOptC : Option OptCDict) : Prop :=
  ∃ summary, showSummary dictOptC = some summary ∧
    ∀ row ∈ summary.rows, (row.c.toNat : Int) = row.entry.tv.micros

/-- For every table of measured calls below 2^32 microseconds: it is printed with exact rows
exactly when some time was spent at all, if there are entries, and no entry has 2^31
microseconds or more. -/
theorem summary_exact_iff (dictOptC : Option OptCDict)
    (hmeasured : ∀ e ∈ countedEntries dictOptC, e.Measured)
    (htotal : totalMicros (countedEntries dictOptC) < 2 ^ 32) :
    SummaryExact dictOptC ↔
      (countedEntries dictOptC = [] ∨ 0 < totalMicros (countedEntries dictOptC)) ∧
        ∀ e ∈ countedEntries dictOptC, e.tv.micros < 2 ^ 31 := by
  obtain ⟨hentries, husecs⟩ := totalsOf_eq dictOptC
  have hnonneg := totalMicros_nonneg hmeasured
  have hzero := ofInt_eq_zero_iff hnonneg htotal
  rw [← husecs] at hzero
  set totals := totalsOf dictOptC with htotals
  set sorted := totals.entries.mergeSort fun en1 en2 => compar en1 en2 ≤ 0 with hsorted
  have hmem : ∀ e, e ∈ sorted ↔ e ∈ countedEntries dictOptC := by
    intro e
    rw [hsorted, List.mem_mergeSort, hentries]
  have hbound : ∀ e ∈ countedEntries dictOptC, e.tv.micros < 2 ^ 32 := fun e he =>
    (micros_le_totalMicros hmeasured he).trans_lt htotal
  have hshow : ∀ summary, showSummary dictOptC = some summary →
      summaryRows totals.totUsecs sorted = some summary.rows := by
    intro summary hsummary
    obtain ⟨rows, hrows, rfl⟩ := Option.map_eq_some_iff.mp hsummary
    exact hrows
  constructor
  · rintro ⟨summary, hsummary, hexact⟩
    have hrows := hshow summary hsummary
    refine ⟨?_, fun e he => ?_⟩
    · by_cases htot : totals.totUsecs = 0
      · left
        rw [htot] at hrows
        have hnil := entries_eq_nil_of_summaryRows_zero hrows
        refine List.eq_nil_iff_forall_not_mem.mpr fun e he => ?_
        rw [← hmem, hnil] at he
        cases he
      · right
        rw [hzero] at htot
        omega
    · obtain ⟨row, hrow, hof⟩ := (summaryRows_rows hrows).2 e ((hmem e).mpr he)
      have hexact' := hexact row hrow
      rw [toNat_c_eq_iff hof (hmeasured e he).micros_nonneg (hbound e he),
        entry_summaryRow hof] at hexact'
      exact hexact'
  · rintro ⟨htime, hfits⟩
    have hrows : ∃ rows, summaryRows totals.totUsecs sorted = some rows := by
      rcases htime with hnil | hpos
      · have hsorted : sorted = [] :=
          List.eq_nil_iff_forall_not_mem.mpr fun e he => by simp [hmem, hnil] at he
        exact ⟨[], by rw [hsorted]; rfl⟩
      · exact summaryRows_exists (fun h => by rw [hzero] at h; omega)
          fun e he => hmeasured e ((hmem e).mp he)
    obtain ⟨rows, hrows⟩ := hrows
    refine ⟨_, Option.map_eq_some_iff.mpr ⟨rows, hrows, rfl⟩, fun row hrow => ?_⟩
    obtain ⟨e, he, hof⟩ := (summaryRows_rows hrows).1 row hrow
    have he := (hmem e).mp he
    rw [toNat_c_eq_iff hof (hmeasured e he).micros_nonneg (hbound e he), entry_summaryRow hof]
    exact hfits e he

/-- The table of one name. -/
def tableOf (name : CString) (st : OptCStruct) : OptCDict := OptCDict.init.enter name st

/-- The table of one name has one entry. -/
theorem countedEntries_tableOf (name : CString) (st : OptCStruct) :
    countedEntries (some (tableOf name st)) =
      [{ name := name, count := st.count, tv := st.tv }] := by
  have hperm := entries_dictEnter_perm OptCDict.init.dict name st
  have hnil : OptCDict.init.dict.entries = [] := entries_dictInit _ _
  rw [hnil, List.perm_singleton] at hperm
  change (dictEnter OptCDict.init.dict name st).entries.map _ = _
  rw [hperm]
  rfl

/-- One call of `f` that took half a second. -/
theorem summary_exact_iff_half :
    SummaryExact (some (tableOf nameF ⟨1, ⟨0, 500000⟩⟩)) := by
  have hentries := countedEntries_tableOf nameF ⟨1, ⟨0, 500000⟩⟩
  refine (summary_exact_iff _ ?_ ?_).mpr ⟨Or.inr ?_, ?_⟩
  all_goals rw [hentries]
  · exact List.forall_mem_singleton.mpr ⟨by decide, by decide, ⟨by decide, by decide⟩, by decide⟩
  · decide
  · decide
  · exact List.forall_mem_singleton.mpr (by decide)

/-- One call of `f` that was over within a microsecond. -/
theorem summary_divides_by_zero :
    ¬∀ dictOptC : Option OptCDict, (∀ e ∈ countedEntries dictOptC, e.Measured) →
      totalMicros (countedEntries dictOptC) < 2 ^ 32 → SummaryExact dictOptC := by
  intro hclaim
  have hentries := countedEntries_tableOf nameF ⟨1, ⟨0, 0⟩⟩
  obtain ⟨summary, hsummary, _⟩ := hclaim (some (tableOf nameF ⟨1, ⟨0, 0⟩⟩))
    (by
      rw [hentries]
      exact List.forall_mem_singleton.mpr ⟨by decide, by decide, ⟨by decide, by decide⟩, by decide⟩)
    (by rw [hentries]; decide)
  obtain ⟨hfill, husecs⟩ := totalsOf_eq (some (tableOf nameF ⟨1, ⟨0, 0⟩⟩))
  rw [hentries] at hfill husecs
  have hnone : showSummary (some (tableOf nameF ⟨1, ⟨0, 0⟩⟩)) = none := by
    unfold showSummary
    dsimp only
    rw [hfill, husecs, List.mergeSort_singleton]
    rfl
  rw [hnone] at hsummary
  cases hsummary

end Utrace
