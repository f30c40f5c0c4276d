import Mathlib.Tactic.Common

/-!
# Measured time: `calc_time_spent` and the `-r` part of `begin_of_line`

Both subtract one `struct timeval` from another by hand, borrowing a second where the
microseconds wrap. The fields stay far inside `long` for the times of `gettimeofday`.
-/

namespace Utrace

/-- `struct timeval`. -/
structure Timeval where
  tvSec : Int
  tvUsec : Int
  deriving DecidableEq, Repr

namespace Timeval

/-- The whole time in microseconds. -/
def micros (tv : Timeval) : Int := 1000000 * tv.tvSec + tv.tvUsec

/-- Less than a second of microseconds. -/
structure Normalised (tv : Timeval) : Prop where
  nonneg : 0 ≤ tv.tvUsec
  lt : tv.tvUsec < 1000000

/-- Times with equal parts are equal. -/
@[ext] theorem ext {tv tv' : Timeval} (hsec : tv.tvSec = tv'.tvSec)
    (husec : tv.tvUsec = tv'.tvUsec) : tv = tv' := by
  cases tv
  cases tv'
  cases hsec
  cases husec
  rfl

/-- A normalised time is known by its microseconds. -/
theorem Normalised.eq_of_micros {tv tv' : Timeval} (h : tv.Normalised) (h' : tv'.Normalised)
    (hmicros : tv.micros = tv'.micros) : tv = tv' := by
  obtain ⟨hnonneg, hlt⟩ := h
  obtain ⟨hnonneg', hlt'⟩ := h'
  unfold micros at hmicros
  apply Timeval.ext <;> omega

end Timeval

/-- `calc_time_spent` at the time `tv`, for the `time_spent` of the innermost element. -/
def calcTimeSpent (timeSpent tv : Timeval) : Timeval :=
  if timeSpent.tvUsec ≤ tv.tvUsec then
    { tvSec := tv.tvSec - timeSpent.tvSec
      tvUsec := tv.tvUsec - timeSpent.tvUsec }
  else
    { tvSec := tv.tvSec - timeSpent.tvSec + 1
      tvUsec := 1000000 + tv.tvUsec - timeSpent.tvUsec }

/-- The `-r` part of `begin_of_line` at the time `tv`: the difference it prints, and the new
`old_tv`. A null `old_tv` is taken for that of the first line. -/
def relativeTime (oldTv tv : Timeval) : Timeval × Timeval :=
  let oldTv := if oldTv.tvSec = 0 ∧ oldTv.tvUsec = 0 then tv else oldTv
  let diff : Timeval :=
    if oldTv.tvUsec ≤ tv.tvUsec then
      { tvSec := tv.tvSec - oldTv.tvSec
        tvUsec := tv.tvUsec - oldTv.tvUsec }
    else
      { tvSec := tv.tvSec - oldTv.tvSec - 1
        tvUsec := 1000000 + tv.tvUsec - oldTv.tvUsec }
  (diff, tv)

end Utrace
