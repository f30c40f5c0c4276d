import Utrace.Core.Tally
import Utrace.Correctness.Elapsed
import Utrace.Native.Counts

/-!
# What `-c` counts

Whatever the order of the calls and the chains of the table, the entry of a name counts
its calls and keeps their exact total. The microseconds are carried only once they are
more than a second, so a total may end in one full second of them.
-/

namespace Utrace

/-! ## The table is a tally -/

/-- A call that returned: its name and the time it took. -/
abbrev CompletedCall := CString × Timeval

/-- The entry of a name. -/
def countOf (dictOptC : Option OptCDict) (name : CString) : Option OptCStruct :=
  dictOptC.bind fun d => d.find name

/-- `dict_opt_c` after these calls returned. -/
def countAll (calls : List CompletedCall) : Option OptCDict :=
  calls.foldl (fun dictOptC call => outputRightOptC dictOptC call.1 call.2) none

/-- An absent table counts nothing. -/
theorem countOf_getD (dictOptC : Option OptCDict) (name : CString) :
    (dictOptC.getD .init).find name = countOf dictOptC name := by
  cases dictOptC with
  | none => exact OptCDict.find_init name
  | some d => rfl

/-- `output_right` adds the call to the entry of its name, and changes no other. -/
theorem outputRightOptC_tallies : Tallies countOf OptCStruct.fresh OptCStruct.add
    fun dictOptC (call : CompletedCall) => outputRightOptC dictOptC call.1 call.2 := by
  intro dictOptC call name
  rw [← countOf_getD dictOptC name]
  unfold outputRightOptC countOf
  rw [Option.bind_some, OptCDict.find_update]
  by_cases hname : name = call.1
  · rw [if_pos hname, if_pos hname, hname]
    cases hfind : (dictOptC.getD .init).find call.1 with
    | some st => simp only [hfind, Option.map_some, Option.getD_some]
    | none =>
      simp only [OptCDict.find_enter, hfind, if_true, Option.none_or, Option.map_some,
        Option.getD_none]
  · rw [if_neg hname, if_neg hname]
    cases hfind : (dictOptC.getD .init).find call.1 with
    | some st => rfl
    | none =>
      dsimp only
      rw [OptCDict.find_enter, if_neg hname, Option.or_none]

/-- The entry of a name holds its own calls, added one after another. -/
theorem countOf_countAll (calls : List CompletedCall) (name : CString) :
    countOf (countAll calls) name = if valuesOf calls name = [] then none
      else some ((valuesOf calls name).foldl OptCStruct.add .fresh) :=
  outputRightOptC_tallies.lookup_foldl (fun _ => rfl) calls name

/-! ## One entry -/

/-- Every addition counts one call and adds its whole time. -/
theorem micros_add (st : OptCStruct) (spent : Timeval) :
    (st.add spent).tv.micros = st.tv.micros + spent.micros := by
  unfold OptCStruct.add Timeval.micros
  split
  · dsimp only
    omega
  · dsimp only
    omega

/-- Each time added raises the count by one. -/
theorem count_foldl_add (spents : List Timeval) :
    (spents.foldl OptCStruct.add .fresh).count = spents.length := by
  induction spents using List.reverseRecOn with
  | nil => rfl
  | append_singleton spents spent ih =>
    rw [List.foldl_append, List.length_append, List.length_singleton, Nat.cast_add, ← ih]
    rfl

/-- The summed time is the sum of the times added, in microseconds. -/
theorem micros_foldl_add (spents : List Timeval) :
    (spents.foldl OptCStruct.add .fresh).tv.micros = (spents.map Timeval.micros).sum := by
  induction spents using List.reverseRecOn with
  | nil => rfl
  | append_singleton spents spent ih =>
    rw [List.foldl_append, List.foldl_cons, List.foldl_nil, micros_add, ih, List.map_append,
      List.sum_append, List.map_singleton, List.sum_singleton]

/-- The microseconds of an entry are a digit that carries late. -/
theorem tvUsec_foldl_add (spents : List Timeval) :
    (spents.foldl OptCStruct.add .fresh).tv.tvUsec =
      lateDigit 1000000 (spents.map Timeval.tvUsec) := by
  induction spents using List.reverseRecOn with
  | nil => rfl
  | append_singleton spents spent ih =>
    rw [List.map_append, List.map_singleton, lateDigit_snoc, ← ih, List.foldl_append,
      List.foldl_cons, List.foldl_nil]
    unfold OptCStruct.add
    split <;> rfl

/-- The seconds of an entry are those of its calls and the ones carried. -/
theorem sum_tvSec_le_foldl_add (spents : List Timeval) :
    (spents.map Timeval.tvSec).sum ≤ (spents.foldl OptCStruct.add .fresh).tv.tvSec := by
  induction spents using List.reverseRecOn with
  | nil => exact le_rfl
  | append_singleton spents spent ih =>
    rw [List.foldl_append, List.foldl_cons, List.foldl_nil, List.map_append, List.sum_append,
      List.map_singleton, List.sum_singleton]
    generalize spents.foldl OptCStruct.add .fresh = st at ih
    unfold OptCStruct.add
    split
    · dsimp only
      omega
    · dsimp only
      omega

/-! ## Every sequence of calls -/

/-- What is promised of the entry of a name. -/
structure CountedRight (calls : List CompletedCall) (name : CString) (st : OptCStruct) : Prop where
  count : st.count = (valuesOf calls name).length
  total : st.tv.micros = ((valuesOf calls name).map Timeval.micros).sum
  normalised : st.tv.Normalised

/-- The microseconds of the times of a name add up to whole seconds, at least one. -/
def WholeSeconds (calls : List CompletedCall) (name : CString) : Prop :=
  0 < ((valuesOf calls name).map Timeval.tvUsec).sum ∧
    1000000 ∣ ((valuesOf calls name).map Timeval.tvUsec).sum

/-- The entry of a name that occurred is right exactly where its microseconds are no whole
seconds. -/
theorem countedRight_iff {calls : List CompletedCall} (hspent : ∀ call ∈ calls, call.2.Normalised)
    {name : CString} (hname : name ∈ calls.map Prod.fst) :
    (∃ st, countOf (countAll calls) name = some st ∧ CountedRight calls name st) ↔
      ¬WholeSeconds calls name := by
  have hfind := countOf_countAll calls name
  rw [if_neg (valuesOf_ne_nil_iff.mpr hname)] at hfind
  have husec := tvUsec_foldl_add (valuesOf calls name)
  have hdigits : ∀ usec ∈ (valuesOf calls name).map Timeval.tvUsec,
      0 ≤ usec ∧ usec < 1000000 := by
    intro usec husec
    obtain ⟨spent, hmem, rfl⟩ := List.mem_map.mp husec
    have hnormal := hspent _ (mem_of_mem_valuesOf hmem)
    exact ⟨hnormal.nonneg, hnormal.lt⟩
  have hlate := lateDigit_lt_iff (by decide) hdigits
  constructor
  · rintro ⟨st, hst, hright⟩
    obtain rfl := Option.some.inj (hfind.symm.trans hst)
    exact hlate.mp (husec ▸ hright.normalised.lt)
  · intro hwhole
    refine ⟨_, hfind, count_foldl_add _, micros_foldl_add _, ?_, ?_⟩
    · rw [husec]
      exact (lateDigit_spec (by decide) hdigits).1
    · rw [husec]
      exact hlate.mpr hwhole

/-- For every sequence of calls with normalised times, the entry of every name that occurred
has the number of its calls and their exact total, and stays normalised, throughout exactly
when at no point the microseconds of a name add up to whole seconds. -/
theorem summary_counts_iff {calls : List CompletedCall}
    (hspent : ∀ call ∈ calls, call.2.Normalised) :
    (∀ n, ∀ name ∈ (calls.take n).map Prod.fst,
      ∃ st, countOf (countAll (calls.take n)) name = some st ∧
        CountedRight (calls.take n) name st) ↔
    ∀ n, ∀ name ∈ (calls.take n).map Prod.fst, ¬WholeSeconds (calls.take n) name := by
  have hiff : ∀ n, ∀ name ∈ (calls.take n).map Prod.fst, _ ↔ _ := fun n name hname =>
    countedRight_iff (fun call hcall => hspent call (List.mem_of_mem_take hcall)) hname
  constructor
  · intro hright n name hname
    exact (hiff n name hname).mp (hright n name hname)
  · intro hwhole n name hname
    exact (hiff n name hname).mpr (hwhole n name hname)

/-- A call as `calc_time_spent` measures it, with the times it began and returned. -/
def measured (call : CString × Timeval × Timeval) : CompletedCall :=
  (call.1, calcTimeSpent call.2.1 call.2.2)

/-- Measured times are normalised, but the total of a name is two seconds too long for every
call of it whose microseconds wrap. -/
theorem measured_total {calls : List (CString × Timeval × Timeval)}
    (htimes : ∀ call ∈ calls, call.2.1.Normalised ∧ call.2.2.Normalised) :
    (∀ call ∈ calls.map measured, call.2.Normalised) ∧
      ∀ name st, countOf (countAll (calls.map measured)) name = some st →
        st.tv.micros = ((valuesOf calls name).map fun times =>
          times.2.micros - times.1.micros +
            if times.1.tvUsec ≤ times.2.tvUsec then 0 else 2000000).sum := by
  constructor
  · intro call hcall
    obtain ⟨times, hmem, rfl⟩ := List.mem_map.mp hcall
    obtain ⟨hstart, hnow⟩ := htimes times hmem
    exact normalised_calcTimeSpent hstart hnow
  · intro name st hst
    rw [countOf_countAll] at hst
    split at hst
    · cases hst
    · obtain rfl := Option.some.inj hst
      have hvalues := valuesOf_map (fun times : Timeval × Timeval =>
        calcTimeSpent times.1 times.2) calls name
      change valuesOf (calls.map measured) name = _ at hvalues
      rw [micros_foldl_add, hvalues, List.map_map]
      congr 1
      apply List.map_congr_left
      intro times _
      exact micros_calcTimeSpent times.1 times.2

/-! ## Calls of one function -/

/-- The name `f`. -/
def nameF : CString := ⟨[0x66], by decide⟩

/-- A call of 0.6 s, then one of 0.5 s. -/
theorem summary_counts_iff_two :
    ∃ st, countOf (countAll [(nameF, ⟨0, 600000⟩), (nameF, ⟨0, 500000⟩)]) nameF = some st ∧
      CountedRight [(nameF, ⟨0, 600000⟩), (nameF, ⟨0, 500000⟩)] nameF st := by
  have hspent : ∀ call ∈ [(nameF, (⟨0, 600000⟩ : Timeval)), (nameF, ⟨0, 500000⟩)],
      call.2.Normalised := by
    rw [List.forall_mem_cons, List.forall_mem_singleton]
    exact ⟨⟨by decide, by decide⟩, ⟨by decide, by decide⟩⟩
  refine (summary_counts_iff hspent).mpr (fun n name hname => ?_) 2 nameF (by simp)
  rcases n with _ | _ | n
  · cases hname
  · obtain rfl := List.mem_singleton.mp hname
    simp [WholeSeconds, valuesOf]
  · have hboth : name = nameF := by simpa using hname
    subst hboth
    simp [WholeSeconds, valuesOf]

/-- Two calls of half a second: one full second of microseconds is left. -/
theorem summary_full_second :
    ¬∀ calls : List CompletedCall, (∀ call ∈ calls, call.2.Normalised) →
      ∀ n, ∀ name ∈ (calls.take n).map Prod.fst,
        ∃ st, countOf (countAll (calls.take n)) name = some st ∧
          CountedRight (calls.take n) name st := by
  intro hclaim
  have hspent : ∀ call ∈ [(nameF, (⟨0, 500000⟩ : Timeval)), (nameF, ⟨0, 500000⟩)],
      call.2.Normalised := by
    rw [List.forall_mem_cons, List.forall_mem_singleton]
    exact ⟨⟨by decide, by decide⟩, ⟨by decide, by decide⟩⟩
  have hright := hclaim _ hspent 2 nameF (by simp)
  have hwhole := (countedRight_iff hspent (by simp)).mp hright
  exact hwhole (by simp [WholeSeconds, valuesOf])

end Utrace
