import Mathlib.Algebra.BigOperators.Ring.Finset
import Utrace.Core.Shares
import Utrace.Correctness.Totals

/-!
# The report on all calls

The table printed at the end has one row for each function called, with its calls and their exact
time, in descending order of the times. A second that was carried late does not disturb the
order, and the percentages add up to the whole but for half a hundredth each.
-/

namespace Utrace

/-! ## The entries -/

/-- No name is entered twice. -/
def OptCDict.Distinct (d : OptCDict) : Prop := (d.dict.entries.map (·.key)).Nodup

/-- A name is not found exactly if no entry has it. -/
theorem OptCDict.find_eq_none_iff {d : OptCDict} {name : CString} :
    d.find name = none ↔ name ∉ d.dict.entries.map (·.key) := by
  rw [OptCDict.find, dictFindEntry_eq_find?_key d.exact, Option.map_eq_none_iff,
    List.find?_eq_none, List.mem_map]
  simp

/-- Entering a name that is not found enters none twice. -/
theorem OptCDict.Distinct.enter {d : OptCDict} (hd : d.Distinct) {name : CString}
    (hname : d.find name = none) (st : OptCStruct) : (d.enter name st).Distinct := by
  have hperm := (entries_dictEnter_perm d.dict name st).map (·.key)
  apply hperm.nodup_iff.mpr
  rw [List.map_cons, List.nodup_cons]
  exact ⟨OptCDict.find_eq_none_iff.mp hname, hd⟩

/-- Updating an entry enters nothing. -/
theorem OptCDict.Distinct.update {d : OptCDict} (hd : d.Distinct) (name : CString)
    (f : OptCStruct → OptCStruct) : (d.update name f).Distinct := by
  rw [OptCDict.Distinct, OptCDict.update, keys_dictUpdate]
  exact hd

/-- Whatever calls are counted, no name is entered twice. -/
theorem distinct_countAll (calls : List CompletedCall) :
    ∀ d, countAll calls = some d → d.Distinct := by
  induction calls using List.reverseRecOn with
  | nil =>
    intro d hd
    cases hd
  | append_singleton calls call ih =>
    intro d hd
    rw [countAll, List.foldl_append, List.foldl_cons, List.foldl_nil, outputRightOptC] at hd
    obtain rfl := Option.some.inj hd
    have hbefore : ((countAll calls).getD .init).Distinct := by
      cases h : countAll calls with
      | none => simp [OptCDict.Distinct, OptCDict.init]
      | some d => exact ih d h
    apply OptCDict.Distinct.update
    split
    · exact hbefore
    · rename_i hnone
      exact hbefore.enter hnone _

/-- The entry of a name that was called: it counts the calls and their time. A second of its
microseconds has not been carried exactly if they add up to whole seconds. -/
structure EntrySt.Counts (calls : List CompletedCall) (entry : EntrySt) : Prop where
  count : entry.count = (valuesOf calls entry.name).length
  micros : entry.tv.micros = ((valuesOf calls entry.name).map Timeval.micros).sum
  sec : ((valuesOf calls entry.name).map Timeval.tvSec).sum ≤ entry.tv.tvSec
  nonneg : 0 ≤ entry.tv.tvUsec
  le : entry.tv.tvUsec ≤ 1000000
  whole : entry.tv.tvUsec = 1000000 ↔ WholeSeconds calls entry.name

/-- The entries are found under their names. -/
theorem mem_countedEntries {d : OptCDict} (hd : d.Distinct) {entry : EntrySt}
    (he : entry ∈ countedEntries (some d)) :
    d.find entry.name = some { count := entry.count, tv := entry.tv } := by
  obtain ⟨e, hmem, rfl⟩ := List.mem_map.mp he
  dsimp only
  rw [OptCDict.find, dictFindEntry_eq_find?_key d.exact]
  cases hfind : d.dict.entries.find? fun e' => e'.key = e.key with
  | none =>
    rw [List.find?_eq_none] at hfind
    exact absurd (decide_eq_true rfl) (hfind e hmem)
  | some e' =>
    have hkey : e'.key = e.key := by simpa using List.find?_some hfind
    have heq : e' = e := List.inj_on_of_nodup_map hd (List.mem_of_find?_eq_some hfind) hmem hkey
    rw [heq]
    rfl

/-- The names of the entries are the keys of the table. -/
theorem names_countedEntries (d : OptCDict) :
    (countedEntries (some d)).map (·.name) = d.dict.entries.map (·.key) := by
  rw [countedEntries, List.map_map]
  rfl

/-- After any calls there is one entry for each name called. -/
theorem entries_countAll (calls : List CompletedCall)
    (hspent : ∀ call ∈ calls, call.2.Normalised) :
    ((countedEntries (countAll calls)).map (·.name)).Nodup ∧
      (∀ name, name ∈ (countedEntries (countAll calls)).map (·.name) ↔
        name ∈ calls.map Prod.fst) ∧
      ∀ entry ∈ countedEntries (countAll calls), entry.Counts calls := by
  have hfind := countOf_countAll calls
  cases htable : countAll calls with
  | none =>
    refine ⟨List.nodup_nil, fun name => ?_, List.forall_mem_nil _⟩
    have hnone := hfind name
    rw [htable] at hnone
    refine iff_of_false List.not_mem_nil fun hname => ?_
    rw [if_neg (valuesOf_ne_nil_iff.mpr hname)] at hnone
    cases hnone
  | some d =>
    have hd := distinct_countAll calls d htable
    rw [htable] at hfind
    rw [names_countedEntries]
    refine ⟨hd, fun name => ?_, fun entry he => ?_⟩
    · rw [← not_iff_not, ← OptCDict.find_eq_none_iff, ← valuesOf_ne_nil_iff]
      refine (hfind name).congr_left.trans ?_
      by_cases hnil : valuesOf calls name = []
      · simp [hnil]
      · simp [hnil]
    · have hentry := (hfind entry.name).symm.trans (mem_countedEntries hd he)
      split at hentry
      · cases hentry
      · have hst := Option.some.inj hentry
        have hdigits : ∀ usec ∈ (valuesOf calls entry.name).map Timeval.tvUsec,
            0 ≤ usec ∧ usec < 1000000 := by
          intro usec husec
          obtain ⟨spent, hmem, rfl⟩ := List.mem_map.mp husec
          have hnormal := hspent _ (mem_of_mem_valuesOf hmem)
          exact ⟨hnormal.nonneg, hnormal.lt⟩
        obtain ⟨hlow, hhigh, _⟩ := lateDigit_spec (by decide) hdigits
        have hlate := lateDigit_lt_iff (by decide) hdigits
        rw [← tvUsec_foldl_add, hst] at hlow hhigh hlate
        refine ⟨?_, ?_, ?_, hlow, hhigh, ?_⟩
        · have hcount := count_foldl_add (valuesOf calls entry.name)
          rwa [hst] at hcount
        · have hmicros := micros_foldl_add (valuesOf calls entry.name)
          rwa [hst] at hmicros
        · have hsec := sum_tvSec_le_foldl_add (valuesOf calls entry.name)
          rwa [hst] at hsec
        · rw [WholeSeconds, ← not_iff_not, ← hlate]
          exact ⟨hhigh.lt_of_ne, ne_of_lt⟩

/-- The time of all entries is the time of all calls. -/
theorem totalMicros_countAll {calls : List CompletedCall}
    (hspent : ∀ call ∈ calls, call.2.Normalised) :
    totalMicros (countedEntries (countAll calls)) =
      (calls.map fun call => call.2.micros).sum := by
  obtain ⟨hnodup, hnames, hcounts⟩ := entries_countAll calls hspent
  rw [← sum_valuesOf Timeval.micros calls hnodup fun call hcall =>
    (hnames call.1).mpr (List.mem_map_of_mem hcall), List.map_map]
  unfold totalMicros
  congr 1
  apply List.map_congr_left
  intro entry he
  exact (hcounts entry he).micros

/-- The calls of all entries are all calls. -/
theorem sum_count_countAll {calls : List CompletedCall}
    (hspent : ∀ call ∈ calls, call.2.Normalised) :
    ((countedEntries (countAll calls)).map (·.count)).sum = calls.length := by
  obtain ⟨hnodup, hnames, hcounts⟩ := entries_countAll calls hspent
  have hone := sum_valuesOf (fun _ => (1 : Int)) calls hnodup fun call hcall =>
    (hnames call.1).mpr (List.mem_map_of_mem hcall)
  rw [List.map_map] at hone
  have hlength : ∀ {α : Type} (l : List α), (l.map fun _ => (1 : Int)).sum = l.length := by
    intro α l
    rw [List.map_const', List.sum_replicate, nsmul_one]
  rw [hlength] at hone
  rw [← hone]
  congr 1
  apply List.map_congr_left
  intro entry he
  exact (hcounts entry he).count.trans (hlength _).symm

/-! ## The order -/

/-- The comparison puts more seconds first, and then more microseconds. -/
theorem compar_le_iff (en1 en2 : EntrySt) : compar en1 en2 ≤ 0 ↔
    en2.tv.tvSec < en1.tv.tvSec ∨
      en2.tv.tvSec = en1.tv.tvSec ∧ en2.tv.tvUsec ≤ en1.tv.tvUsec := by
  unfold compar
  split <;> omega

/-- `qsort` may be given `compar`, and puts longer times first. -/
theorem pairwise_sorted (entries : List EntrySt) :
    (entries.mergeSort fun en1 en2 => compar en1 en2 ≤ 0).Pairwise
      fun en1 en2 => compar en1 en2 ≤ 0 := by
  have htrans : ∀ a b c : EntrySt, decide (compar a b ≤ 0) → decide (compar b c ≤ 0) →
      decide (compar a c ≤ 0) := by
    intro a b c hab hbc
    simp only [decide_eq_true_eq, compar_le_iff] at hab hbc ⊢
    omega
  have htotal : ∀ a b : EntrySt, decide (compar a b ≤ 0) || decide (compar b a ≤ 0) := by
    intro a b
    simp only [Bool.or_eq_true, decide_eq_true_eq, compar_le_iff]
    omega
  exact (List.pairwise_mergeSort htrans htotal entries).imp of_decide_eq_true

/-- A second carried late does not matter to the order. -/
theorem micros_le_of_compar {calls : List CompletedCall} {en1 en2 : EntrySt}
    (h1 : en1.Counts calls) (h2 : en2.Counts calls) (h : compar en1 en2 ≤ 0) :
    en2.tv.micros ≤ en1.tv.micros := by
  rw [compar_le_iff] at h
  have hnonneg := h1.nonneg
  have hle := h2.le
  unfold Timeval.micros
  omega

/-! ## The rows -/

/-- The row of an entry below 2^31 microseconds. -/
structure SummaryRow.Shows (row : SummaryRow) (totUsecs : Nat) (entry : EntrySt) : Prop where
  of : row.entry = entry
  c : (row.c.toNat : Int) = entry.tv.micros
  sec : row.sec = entry.tv.tvSec
  usec : row.usec = entry.tv.tvUsec
  share : 100 * row.percent + row.hundredths = roundedShare 10000 totUsecs row.c.toNat
  usecsPerCall : (row.usecsPerCall : Int) = entry.tv.micros / entry.count

/-- The variable `p` and its digits do not overflow, nor does their conversion. -/
theorem digits_eq_roundedShare {c : BitVec 64} {totUsecs : BitVec 32}
    (hc : c.toNat ≤ totUsecs.toNat) :
    100 * (((100000 * c / totUsecs.setWidth 64 + 5) / 1000).setWidth 32).toNat +
        (((100000 * c / totUsecs.setWidth 64 + 5) / 10 % 100).setWidth 32).toNat =
      roundedShare 10000 totUsecs.toNat c.toNat := by
  have htot := totUsecs.isLt
  have hmul : (100000 * c).toNat = 100000 * c.toNat := by
    rw [BitVec.toNat_mul]
    exact Nat.mod_eq_of_lt (by change 100000 * c.toNat < 2 ^ 64; omega)
  have hle : 100000 * c.toNat / totUsecs.toNat ≤ 100000 :=
    Nat.div_le_of_le_mul (by omega)
  have hp : (100000 * c / totUsecs.setWidth 64 + 5).toNat =
      100000 * c.toNat / totUsecs.toNat + 5 := by
    rw [BitVec.toNat_add, BitVec.toNat_udiv, hmul, BitVec.toNat_setWidth_of_le (by decide)]
    exact Nat.mod_eq_of_lt (by change _ + 5 < 2 ^ 64; omega)
  rw [BitVec.toNat_setWidth, BitVec.toNat_setWidth, BitVec.toNat_umod, BitVec.toNat_udiv,
    BitVec.toNat_udiv, hp, roundedShare]
  change 100 * ((100000 * c.toNat / totUsecs.toNat + 5) / 1000 % 2 ^ 32) +
    (100000 * c.toNat / totUsecs.toNat + 5) / 10 % 100 % 2 ^ 32 =
      (100000 * c.toNat / totUsecs.toNat + 5) / 10
  generalize 100000 * c.toNat / totUsecs.toNat = tenths at hle
  omega

/-- So does not the time of a call. -/
theorem usecsPerCall_eq {c : BitVec 64} (hc : c.toNat < 2 ^ 31) {count : Int} (hone : 1 ≤ count)
    (hlt : count < 2 ^ 31) :
    (((c / (BitVec.ofInt 32 count).signExtend 64).setWidth 32).toNat : Int) = c.toNat / count := by
  have hcount : (BitVec.ofInt 32 count).toNat = count.toNat := by
    rw [BitVec.toNat_ofInt]
    change (count % 2 ^ 32).toNat = _
    omega
  have hext : ((BitVec.ofInt 32 count).signExtend 64).toNat = count.toNat := by
    rw [BitVec.toNat_signExtend, BitVec.toNat_setWidth, BitVec.msb_eq_decide, hcount,
      if_neg (by rw [decide_eq_true_eq]; omega)]
    omega
  have hle : c.toNat / count.toNat ≤ c.toNat := Nat.div_le_self _ _
  rw [BitVec.toNat_setWidth, BitVec.toNat_udiv, hext, Nat.mod_eq_of_lt (by omega), Int.natCast_ediv,
    Int.toNat_of_nonneg (by omega)]

/-- The row of an entry with calls and a time that fits. -/
theorem summaryRow_shows {totUsecs : BitVec 32} (htot : totUsecs ≠ 0) {entry : EntrySt}
    (hone : 1 ≤ entry.count) (hlt : entry.count < 2 ^ 31) (hnonneg : 0 ≤ entry.tv.micros)
    (hle : entry.tv.micros ≤ totUsecs.toNat) (hmicros : entry.tv.micros < 2 ^ 31) :
    ∃ row, summaryRow totUsecs entry = some row ∧ row.Shows totUsecs.toNat entry := by
  have hcount : BitVec.ofInt 32 entry.count ≠ 0 := by
    rw [ne_eq, ofInt_eq_zero_iff (by omega) (by omega)]
    omega
  have hrow : summaryRow totUsecs entry = some _ := if_neg (not_or_intro htot hcount)
  refine ⟨_, hrow, ?_⟩
  have hentry := entry_summaryRow hrow
  have hc := (toNat_c_eq_iff hrow hnonneg (by omega)).mpr (by rw [hentry]; exact hmicros)
  rw [hentry] at hc
  dsimp only at hc
  refine ⟨hentry, hc, rfl, rfl, ?_, ?_⟩
  · exact digits_eq_roundedShare (by omega)
  · rw [← hc]
    exact usecsPerCall_eq (by omega) hone hlt

/-- The rows of some entries, in their order. -/
theorem summaryRows_shows {totUsecs : BitVec 32} (htot : totUsecs ≠ 0) {entries : List EntrySt}
    (hfits : totUsecs.toNat < 2 ^ 31) (h : ∀ e ∈ entries, (1 ≤ e.count ∧ e.count < 2 ^ 31) ∧
      0 ≤ e.tv.micros ∧ e.tv.micros ≤ totUsecs.toNat) :
    ∃ rows, summaryRows totUsecs entries = some rows ∧
      List.Forall₂ (fun row e => SummaryRow.Shows row totUsecs.toNat e) rows entries := by
  induction entries with
  | nil => exact ⟨[], rfl, .nil⟩
  | cons entry entries ih =>
    rw [List.forall_mem_cons] at h
    obtain ⟨⟨⟨hone, hlt⟩, hnonneg, hle⟩, hrest⟩ := h
    obtain ⟨row, hrow, hshows⟩ := summaryRow_shows htot hone hlt hnonneg hle (by omega)
    obtain ⟨rows, hrows, hall⟩ := ih hrest
    exact ⟨row :: rows, by rw [summaryRows, hrow, hrows]; rfl, .cons hshows hall⟩

/-- Each row shows its own entry. -/
theorem shows_rows {totUsecs : Nat} {rows : List SummaryRow} {entries : List EntrySt}
    (h : List.Forall₂ (fun row e => SummaryRow.Shows row totUsecs e) rows entries) :
    rows.map (·.entry) = entries ∧ ∀ row ∈ rows, row.Shows totUsecs row.entry := by
  induction h with
  | nil => exact ⟨rfl, List.forall_mem_nil _⟩
  | cons hshows _ ih =>
    obtain ⟨hentries, hrows⟩ := ih
    refine ⟨?_, List.forall_mem_cons.mpr ⟨?_, hrows⟩⟩
    · rw [List.map_cons, hshows.of, hentries]
    · rw [hshows.of]
      exact hshows

/-! ## The report -/

/-- The calls of a chain of entries are added up. -/
theorem totCount_applyChain (es : List (DictEntry CString OptCStruct)) (totals : Totals) :
    (applyChain fillStruct es totals).2.totCount =
      totals.totCount + BitVec.ofInt 32 ((es.map fun e => e.value.count).sum) := by
  induction es generalizing totals with
  | nil => simp [applyChain]
  | cons e es ih =>
    rw [applyChain, ih, List.map_cons, List.sum_cons, BitVec.ofInt_add, ← add_assoc]
    rfl

/-- So are the calls of the whole table. -/
theorem totCount_totalsOf (dictOptC : Option OptCDict) :
    (totalsOf dictOptC).totCount =
      BitVec.ofInt 32 ((countedEntries dictOptC).map (·.count)).sum := by
  cases dictOptC with
  | none => rfl
  | some d =>
    have hvisit := congrArg Prod.snd (applyBuckets_flatten fillStruct d.dict.buckets {})
    have hsnd : (dictApplyToAll d.dict fillStruct {}).2 =
        (applyChain fillStruct d.dict.entries {}).2 := hvisit
    rw [totalsOf, hsnd, totCount_applyChain, countedEntries, List.map_map]
    exact BitVec.zero_add _

/-- What the report on some calls should be. -/
structure Summary.Reports (calls : List CompletedCall) (summary : Summary) : Prop where
  /-- One row for each function called. -/
  nodup : (summary.rows.map (·.entry.name)).Nodup
  names : ∀ name, name ∈ summary.rows.map (·.entry.name) ↔ name ∈ calls.map Prod.fst
  /-- Its calls, their time, and the time of one. -/
  count : ∀ row ∈ summary.rows, row.entry.count = (valuesOf calls row.entry.name).length
  time : ∀ row ∈ summary.rows,
    (row.c.toNat : Int) = ((valuesOf calls row.entry.name).map Timeval.micros).sum
  perCall : ∀ row ∈ summary.rows, (row.usecsPerCall : Int) = row.c.toNat / row.entry.count
  /-- The two numbers of the seconds make up that time. -/
  seconds : ∀ row ∈ summary.rows, 1000000 * row.sec + row.usec = row.c.toNat ∧ 0 ≤ row.sec ∧
    0 ≤ row.usec ∧ row.usec ≤ 1000000
  /-- A full second of microseconds is printed exactly where they add up to whole seconds. -/
  carried : ∀ row ∈ summary.rows, row.usec = 1000000 ↔ WholeSeconds calls row.entry.name
  /-- The longest time comes first. -/
  sorted : summary.rows.Pairwise fun row row' => row'.c.toNat ≤ row.c.toNat
  /-- The percentages add up to 100.00 but for half a hundredth each. -/
  shares : 2 * (summary.rows.map fun row => 100 * row.percent + row.hundredths).sum ≤
      20000 + summary.rows.length ∧
    20000 ≤ 2 * (summary.rows.map fun row => 100 * row.percent + row.hundredths).sum +
      summary.rows.length
  /-- The last line. -/
  total : (1000000 * summary.totSec + summary.totUsec : Int) =
    (calls.map fun call => call.2.micros).sum
  totUsec : summary.totUsec < 1000000
  totCount : summary.totCount = calls.length

section Calls

variable {calls : List CompletedCall}

/-- The times are not negative. -/
theorem spent_micros_nonneg (hspent : ∀ call ∈ calls, call.2.Normalised ∧ 0 ≤ call.2.tvSec) :
    ∀ call ∈ calls, 0 ≤ call.2.micros := by
  intro call hcall
  obtain ⟨hnormal, hsec⟩ := hspent call hcall
  have husec := hnormal.nonneg
  unfold Timeval.micros
  omega

/-- The time of an entry is not negative. -/
theorem EntrySt.Counts.micros_nonneg {entry : EntrySt} (h : entry.Counts calls)
    (hspent : ∀ call ∈ calls, 0 ≤ call.2.micros) : 0 ≤ entry.tv.micros := by
  rw [h.micros]
  apply List.sum_nonneg
  intro micros hmicros
  obtain ⟨spent, hmem, rfl⟩ := List.mem_map.mp hmicros
  exact hspent _ (mem_of_mem_valuesOf hmem)

/-- An entry has no more calls and no more time than there are. -/
theorem fits_of_mem_countedEntries
    (hspent : ∀ call ∈ calls, call.2.Normalised ∧ 0 ≤ call.2.tvSec)
    (hlength : calls.length < 2 ^ 31) {entry : EntrySt}
    (he : entry ∈ countedEntries (countAll calls)) :
    (1 ≤ entry.count ∧ entry.count < 2 ^ 31) ∧ 0 ≤ entry.tv.micros ∧
      entry.tv.micros ≤ (calls.map fun call => call.2.micros).sum := by
  have hnormal : ∀ call ∈ calls, call.2.Normalised := fun call hcall => (hspent call hcall).1
  have hnonneg := spent_micros_nonneg hspent
  obtain ⟨_, hnames, hcounts⟩ := entries_countAll calls hnormal
  have hname := (hnames entry.name).mp (List.mem_map_of_mem he)
  have hne := List.length_pos_iff.mpr (valuesOf_ne_nil_iff.mpr hname)
  have hle : (valuesOf calls entry.name).length ≤ calls.length := by
    rw [valuesOf, List.length_map]
    exact List.length_filter_le _ _
  have hcount := (hcounts entry he).count
  have hmicros : entry.tv.micros ≤ totalMicros (countedEntries (countAll calls)) := by
    apply List.single_le_sum _ _ (List.mem_map_of_mem he)
    intro micros hmicros
    obtain ⟨e, hmem, rfl⟩ := List.mem_map.mp hmicros
    exact (hcounts e hmem).micros_nonneg hnonneg
  rw [totalMicros_countAll hnormal] at hmicros
  exact ⟨⟨by omega, by omega⟩, (hcounts entry he).micros_nonneg hnonneg, hmicros⟩

/-- The sum of all times does not overflow. -/
theorem toNat_totUsecs (hnormal : ∀ call ∈ calls, call.2.Normalised)
    (hpos : 0 < (calls.map fun call => call.2.micros).sum)
    (hlt : (calls.map fun call => call.2.micros).sum < 2 ^ 31) :
    ((totalsOf (countAll calls)).totUsecs.toNat : Int) =
      (calls.map fun call => call.2.micros).sum := by
  obtain ⟨-, husecs⟩ := totalsOf_eq (countAll calls)
  rw [husecs, totalMicros_countAll hnormal, BitVec.toNat_ofInt]
  change (((_ : Int) % 2 ^ 32).toNat : Int) = _
  omega

/-- The entries in the order of the report. -/
def sortedEntries (dictOptC : Option OptCDict) : List EntrySt :=
  (totalsOf dictOptC).entries.mergeSort fun en1 en2 => compar en1 en2 ≤ 0

/-- Sorting keeps the entries. -/
theorem sortedEntries_perm (dictOptC : Option OptCDict) :
    (sortedEntries dictOptC).Perm (countedEntries dictOptC) := by
  rw [sortedEntries, (totalsOf_eq dictOptC).1]
  exact List.mergeSort_perm _ _

/-- The rows of the report: one for each entry, in their order. -/
structure ReportRows (calls : List CompletedCall) (rows : List SummaryRow) : Prop where
  entries : rows.map (·.entry) = sortedEntries (countAll calls)
  shows : ∀ row ∈ rows, row.Shows (totalsOf (countAll calls)).totUsecs.toNat row.entry
  counts : ∀ row ∈ rows, row.entry.Counts calls

/-- The rows are there. -/
theorem exists_reportRows (hspent : ∀ call ∈ calls, call.2.Normalised ∧ 0 ≤ call.2.tvSec)
    (hpos : 0 < (calls.map fun call => call.2.micros).sum)
    (hlt : (calls.map fun call => call.2.micros).sum < 2 ^ 31) (hlength : calls.length < 2 ^ 31) :
    ∃ rows, summaryRows (totalsOf (countAll calls)).totUsecs (sortedEntries (countAll calls)) =
      some rows ∧ ReportRows calls rows := by
  have hnormal : ∀ call ∈ calls, call.2.Normalised := fun call hcall => (hspent call hcall).1
  have htoNat := toNat_totUsecs hnormal hpos hlt
  have htot : (totalsOf (countAll calls)).totUsecs ≠ 0 := by
    intro hzero
    rw [hzero] at htoNat
    have hnull : ((0 : BitVec 32).toNat : Int) = 0 := rfl
    omega
  have hperm := sortedEntries_perm (countAll calls)
  obtain ⟨_, _, hcounts⟩ := entries_countAll calls hnormal
  obtain ⟨rows, hrows, hall⟩ := summaryRows_shows htot (by omega) fun e he => by
    rw [htoNat]
    exact fits_of_mem_countedEntries hspent hlength (hperm.mem_iff.mp he)
  obtain ⟨hof, hshows⟩ := shows_rows hall
  refine ⟨rows, hrows, hof, hshows, fun row hrow => hcounts _ (hperm.mem_iff.mp ?_)⟩
  rw [← hof]
  exact List.mem_map_of_mem hrow

namespace ReportRows

variable {rows : List SummaryRow} (h : ReportRows calls rows)
include h

/-- The rows have the names of the entries. -/
theorem names :
    (rows.map (·.entry.name)).Perm ((countedEntries (countAll calls)).map (·.name)) := by
  have hnames : rows.map (·.entry.name) = (sortedEntries (countAll calls)).map (·.name) := by
    rw [← h.entries, List.map_map]
    rfl
  rw [hnames]
  exact (sortedEntries_perm _).map _

/-- The times of the rows are all time there is. -/
theorem sum_c (hnormal : ∀ call ∈ calls, call.2.Normalised)
    (hpos : 0 < (calls.map fun call => call.2.micros).sum)
    (hlt : (calls.map fun call => call.2.micros).sum < 2 ^ 31) :
    (rows.map fun row => row.c.toNat).sum = (totalsOf (countAll calls)).totUsecs.toNat := by
  rw [← Nat.cast_inj (R := Int), toNat_totUsecs hnormal hpos hlt, ← totalMicros_countAll hnormal,
    totalMicros, ← ((sortedEntries_perm (countAll calls)).map _).sum_eq, ← h.entries,
    List.map_map, Nat.cast_list_sum, List.map_map]
  congr 1
  apply List.map_congr_left
  exact fun row hrow => (h.shows row hrow).c

/-- The rows are in descending order of the times. -/
theorem sorted : rows.Pairwise fun row row' => row'.c.toNat ≤ row.c.toNat := by
  have hpairwise := pairwise_sorted (totalsOf (countAll calls)).entries
  change (sortedEntries (countAll calls)).Pairwise _ at hpairwise
  rw [← h.entries, List.pairwise_map] at hpairwise
  apply hpairwise.imp_of_mem
  intro row row' hrow hrow' hle
  have hmicros := micros_le_of_compar (h.counts row hrow) (h.counts row' hrow') hle
  rw [← (h.shows row hrow).c, ← (h.shows row' hrow').c] at hmicros
  exact_mod_cast hmicros

/-- What is printed of the time. -/
theorem seconds (hspent : ∀ call ∈ calls, call.2.Normalised ∧ 0 ≤ call.2.tvSec)
    {row : SummaryRow} (hrow : row ∈ rows) :
    1000000 * row.sec + row.usec = row.c.toNat ∧ 0 ≤ row.sec ∧ 0 ≤ row.usec ∧
      row.usec ≤ 1000000 := by
  have hshows := h.shows row hrow
  have hcounts := h.counts row hrow
  have hsecs : 0 ≤ ((valuesOf calls row.entry.name).map Timeval.tvSec).sum := by
    apply List.sum_nonneg
    intro sec hsec
    obtain ⟨spent, hmem, rfl⟩ := List.mem_map.mp hsec
    exact (hspent _ (mem_of_mem_valuesOf hmem)).2
  rw [hshows.sec, hshows.usec, hshows.c]
  exact ⟨rfl, hsecs.trans hcounts.sec, hcounts.nonneg, hcounts.le⟩

/-- Each share is off by less than half a hundredth. -/
theorem shares (hsum : (rows.map fun row => row.c.toNat).sum =
    (totalsOf (countAll calls)).totUsecs.toNat)
    (hne : (totalsOf (countAll calls)).totUsecs.toNat ≠ 0) :
    2 * (rows.map fun row => 100 * row.percent + row.hundredths).sum ≤ 20000 + rows.length ∧
      20000 ≤ 2 * (rows.map fun row => 100 * row.percent + row.hundredths).sum + rows.length := by
  have hshares := sum_roundedShare_bounds 10000 (rows.map fun row => row.c.toNat)
    (by rw [hsum]; omega)
  rw [hsum, List.map_map, List.length_map] at hshares
  have hrow : rows.map (fun row => 100 * row.percent + row.hundredths) =
      rows.map (roundedShare 10000 (totalsOf (countAll calls)).totUsecs.toNat ∘
        fun row => row.c.toNat) :=
    List.map_congr_left fun row hrow => (h.shows row hrow).share
  rw [hrow]
  exact hshares

end ReportRows

/-- For all calls with normalised times that make up some time below 2^31 microseconds, in any
order: the report is printed, with the right rows in the right order and the right totals. -/
theorem report_of_calls {calls : List CompletedCall}
    (hspent : ∀ call ∈ calls, call.2.Normalised ∧ 0 ≤ call.2.tvSec)
    (hpos : 0 < (calls.map fun call => call.2.micros).sum)
    (hlt : (calls.map fun call => call.2.micros).sum < 2 ^ 31) (hlength : calls.length < 2 ^ 31) :
    ∃ summary, showSummary (countAll calls) = some summary ∧ summary.Reports calls := by
  have hnormal : ∀ call ∈ calls, call.2.Normalised := fun call hcall => (hspent call hcall).1
  obtain ⟨hnodup, hnames, _⟩ := entries_countAll calls hnormal
  have htoNat := toNat_totUsecs hnormal hpos hlt
  have hcalls := totCount_totalsOf (countAll calls)
  rw [sum_count_countAll hnormal] at hcalls
  obtain ⟨rows, hrows, hreport⟩ := exists_reportRows hspent hpos hlt hlength
  refine ⟨_, Option.map_eq_some_iff.mpr ⟨rows, hrows, rfl⟩, ?_⟩
  constructor
  · exact hreport.names.nodup_iff.mpr hnodup
  · exact fun name => hreport.names.mem_iff.trans (hnames name)
  · exact fun row hrow => (hreport.counts row hrow).count
  · exact fun row hrow => (hreport.shows row hrow).c.trans (hreport.counts row hrow).micros
  · intro row hrow
    rw [(hreport.shows row hrow).c]
    exact (hreport.shows row hrow).usecsPerCall
  · exact fun row hrow => hreport.seconds hspent hrow
  · intro row hrow
    rw [(hreport.shows row hrow).usec]
    exact (hreport.counts row hrow).whole
  · exact hreport.sorted
  · exact hreport.shares (hreport.sum_c hnormal hpos hlt) (by omega)
  · dsimp only
    rw [BitVec.toNat_udiv, BitVec.toNat_umod, ← htoNat]
    change 1000000 * (((totalsOf (countAll calls)).totUsecs.toNat / 1000000 : Nat) : Int) +
      (((totalsOf (countAll calls)).totUsecs.toNat % 1000000 : Nat) : Int) = _
    omega
  · dsimp only
    rw [BitVec.toNat_umod]
    exact Nat.mod_lt _ (by decide)
  · dsimp only
    rw [hcalls, BitVec.toInt_ofInt]
    rw [Int.bmod_eq_of_le] <;> omega

end Calls

/-- Two calls of `f` that took 1.1 s together. -/
theorem report_of_calls_two :
    ∃ summary, showSummary (countAll [(nameF, ⟨0, 600000⟩), (nameF, ⟨0, 500000⟩)]) = some summary ∧
      summary.Reports [(nameF, ⟨0, 600000⟩), (nameF, ⟨0, 500000⟩)] := by
  apply report_of_calls
  · simp only [List.forall_mem_cons, List.not_mem_nil, false_imp_iff, implies_true, and_true]
    exact ⟨⟨⟨by decide, by decide⟩, le_rfl⟩, ⟨by decide, by decide⟩, le_rfl⟩
  · simp [Timeval.micros]
  · simp [Timeval.micros]
  · simp

end Utrace
