import Utrace.Native.Time

/-!
# The time a call took

The two subtractions of the source differ where the microseconds wrap: one takes the
borrowed second off, the other adds one.
-/

namespace Utrace

variable {start now : Timeval}

/-- What `-r` prints is exact, but for the first line. -/
theorem relativeTime_exact (hstart : start.Normalised) (hnow : now.Normalised)
    (hfirst : start ≠ ⟨0, 0⟩) :
    (relativeTime start now).1.micros = now.micros - start.micros ∧
      (relativeTime start now).1.Normalised := by
  have hmark : ¬(start.tvSec = 0 ∧ start.tvUsec = 0) := fun h =>
    hfirst (Timeval.ext h.1 h.2)
  obtain ⟨hnonneg, hlt⟩ := hstart
  obtain ⟨hnonneg', hlt'⟩ := hnow
  unfold relativeTime
  rw [if_neg hmark]
  dsimp only
  split
  · refine ⟨?_, ⟨?_, ?_⟩⟩ <;> simp only [Timeval.micros] <;> omega
  · refine ⟨?_, ⟨?_, ?_⟩⟩ <;> simp only [Timeval.micros] <;> omega

/-- The first line is at the time it measures from. -/
theorem relativeTime_first (now : Timeval) : (relativeTime ⟨0, 0⟩ now).1 = ⟨0, 0⟩ := by
  simp [relativeTime]

/-- The microseconds of `calc_time_spent` are right. -/
theorem normalised_calcTimeSpent (hstart : start.Normalised) (hnow : now.Normalised) :
    (calcTimeSpent start now).Normalised := by
  obtain ⟨hnonneg, hlt⟩ := hstart
  obtain ⟨hnonneg', hlt'⟩ := hnow
  unfold calcTimeSpent
  split
  · constructor <;> dsimp only <;> omega
  · constructor <;> dsimp only <;> omega

/-- Where they wrap, its seconds are two too many. -/
theorem micros_calcTimeSpent (start now : Timeval) :
    (calcTimeSpent start now).micros =
      now.micros - start.micros + if start.tvUsec ≤ now.tvUsec then 0 else 2000000 := by
  unfold calcTimeSpent Timeval.micros
  split
  · dsimp only
    omega
  · dsimp only
    omega

/-- For every two normalised times: the time spent is exact, normalised and what `-r` prints
for the two exactly when the microseconds do not wrap, and the first of the two is not the
mark of the first line unless both are. -/
theorem time_spent_exact_iff (hstart : start.Normalised) (hnow : now.Normalised) :
    ((calcTimeSpent start now).micros = now.micros - start.micros ∧
        (calcTimeSpent start now).Normalised ∧
        calcTimeSpent start now = (relativeTime start now).1) ↔
      start.tvUsec ≤ now.tvUsec ∧ (start = ⟨0, 0⟩ → now = ⟨0, 0⟩) := by
  have hmicros := micros_calcTimeSpent start now
  have hnormal := normalised_calcTimeSpent hstart hnow
  constructor
  · rintro ⟨hexact, _, hsame⟩
    have hwrap : start.tvUsec ≤ now.tvUsec := by
      by_contra hwrap
      rw [if_neg hwrap] at hmicros
      omega
    refine ⟨hwrap, ?_⟩
    rintro rfl
    have hzero := relativeTime_first now
    rw [hsame, hzero] at hexact
    apply hnow.eq_of_micros ⟨Int.le_refl 0, by decide⟩
    simp only [Timeval.micros] at hexact ⊢
    omega
  · rintro ⟨hwrap, hmark⟩
    rw [if_pos hwrap, Int.add_zero] at hmicros
    refine ⟨hmicros, hnormal, ?_⟩
    by_cases hfirst : start = ⟨0, 0⟩
    · obtain rfl := hmark hfirst
      rw [hfirst]
      decide
    · obtain ⟨hrelative, hnormal'⟩ := relativeTime_exact hstart hnow hfirst
      exact hnormal.eq_of_micros hnormal' (hmicros.trans hrelative.symm)

/-- A call from 5.25 s to 7.5 s. -/
theorem time_spent_exact_iff_sample :
    (calcTimeSpent ⟨5, 250000⟩ ⟨7, 500000⟩).micros =
        Timeval.micros ⟨7, 500000⟩ - Timeval.micros ⟨5, 250000⟩ ∧
      (calcTimeSpent ⟨5, 250000⟩ ⟨7, 500000⟩).Normalised ∧
      calcTimeSpent ⟨5, 250000⟩ ⟨7, 500000⟩ = (relativeTime ⟨5, 250000⟩ ⟨7, 500000⟩).1 :=
  (time_spent_exact_iff ⟨by decide, by decide⟩ ⟨by decide, by decide⟩).mpr
    ⟨by decide, by decide⟩

/-- A call from 5.9 s to 6.1 s takes 2.2 s. -/
theorem time_spent_wraps :
    ¬∀ start now : Timeval, start.Normalised → now.Normalised → start.micros ≤ now.micros →
      (calcTimeSpent start now).micros = now.micros - start.micros ∧
        (calcTimeSpent start now).Normalised ∧
        calcTimeSpent start now = (relativeTime start now).1 := by
  intro hclaim
  have hexact := (hclaim ⟨5, 900000⟩ ⟨6, 100000⟩ ⟨by decide, by decide⟩ ⟨by decide, by decide⟩
    (by decide)).1
  exact absurd hexact (by decide)

end Utrace
