import Mathlib.Tactic.Common
import Mathlib.Logic.Function.Iterate

/-!
# Simulations that stutter

A partial step follows a function when each of its steps either does one turn of the function or
none, and none for a bounded number of steps at a stretch. Then it never stops, and after any
number of steps it stands where some number of turns leads.
-/

namespace Utrace

variable {σ τ : Type*}

/-- Steps from `s` on, with the number of those that advance. -/
def ticks (step : σ → Option σ) (advances : σ → Bool) (s : σ) : Nat → Option (σ × Nat)
  | 0 => some (s, 0)
  | k + 1 => (ticks step advances s k).bind fun c =>
    (step c.1).map fun s' => (s', if advances c.1 then c.2 + 1 else c.2)

/-- Each step from a related state is defined; it keeps up with the function, or the rank
goes down. -/
structure Follows (step : σ → Option σ) (advances : σ → Bool) (next : τ → τ) (rank : σ → Nat)
    (R : σ → τ → Prop) : Prop where
  advance : ∀ {s t}, R s t → advances s = true → ∃ s', step s = some s' ∧ R s' (next t)
  stutter : ∀ {s t}, R s t → advances s = false →
    ∃ s', step s = some s' ∧ R s' t ∧ rank s' < rank s

namespace Follows

variable {step : σ → Option σ} {advances : σ → Bool} {next : τ → τ} {rank : σ → Nat}
  {R : σ → τ → Prop} {s s' s'' : σ} {t : τ} {j k : Nat}

/-- A step from a state that advances is one tick. -/
theorem ticks_advance (hk : ticks step advances s k = some (s', j)) (hadv : advances s' = true)
    (hstep : step s' = some s'') : ticks step advances s (k + 1) = some (s'', j + 1) := by
  rw [ticks, hk, Option.bind_some, hstep, Option.map_some, if_pos hadv]

/-- A step from a state that stutters is no tick. -/
theorem ticks_stutter (hk : ticks step advances s k = some (s', j)) (hadv : advances s' = false)
    (hstep : step s' = some s'') : ticks step advances s (k + 1) = some (s'', j) := by
  rw [ticks, hk, Option.bind_some, hstep, Option.map_some, if_neg (by rw [hadv]; decide)]

/-- After every number of steps: how many turns that is, within the bounds the rank gives. -/
theorem after (h : Follows step advances next rank R) {bound : Nat}
    (hbound : ∀ {s t}, R s t → rank s ≤ bound) (hs : R s t) (k : Nat) :
    ∃ s' j, ticks step advances s k = some (s', j) ∧ R s' (next^[j] t) ∧ j ≤ k ∧
      k + rank s' ≤ (bound + 1) * j + bound := by
  induction k with
  | zero => exact ⟨s, 0, rfl, hs, Nat.le_refl 0, by have := hbound hs; omega⟩
  | succ k ih =>
    obtain ⟨s', j, hk, hR, hj, hrank⟩ := ih
    cases hadv : advances s' with
    | true =>
      obtain ⟨s'', hstep, hR'⟩ := h.advance hR hadv
      rw [← Function.iterate_succ_apply' next] at hR'
      refine ⟨s'', j + 1, ticks_advance hk hadv hstep, hR', by omega, ?_⟩
      have hbounded := hbound hR'
      rw [Nat.mul_succ]
      omega
    | false =>
      obtain ⟨s'', hstep, hR', hless⟩ := h.stutter hR hadv
      exact ⟨s'', j, ticks_stutter hk hadv hstep, hR', by omega, by omega⟩

/-- The next turn comes. -/
theorem exists_advance (h : Follows step advances next rank R)
    (hk : ticks step advances s k = some (s', j)) (hR : R s' t) :
    ∃ k' s₁ s₂, R s₁ t ∧ advances s₁ = true ∧ step s₁ = some s₂ ∧ R s₂ (next t) ∧
      ticks step advances s k' = some (s₂, j + 1) := by
  induction hn : rank s' using Nat.strongRecOn generalizing k s' with
  | _ n ih =>
  cases hadv : advances s' with
  | true =>
    obtain ⟨s₂, hstep, hR'⟩ := h.advance hR hadv
    exact ⟨k + 1, s', s₂, hR, hadv, hstep, hR', ticks_advance hk hadv hstep⟩
  | false =>
    obtain ⟨s'', hstep, hR', hless⟩ := h.stutter hR hadv
    exact ih _ (hn ▸ hless) (ticks_stutter hk hadv hstep) hR' rfl

/-- Every number of turns is reached, in a state that was just advanced to. -/
theorem reaches (h : Follows step advances next rank R) {A : σ → τ → Prop}
    (hk : ticks step advances s k = some (s', 0)) (hs : R s' t) (h0 : A s' t)
    (hA : ∀ {s t s'}, R s t → advances s = true → step s = some s' → A s' (next t)) (j : Nat) :
    ∃ k s', ticks step advances s k = some (s', j) ∧ R s' (next^[j] t) ∧ A s' (next^[j] t) := by
  induction j with
  | zero => exact ⟨k, s', hk, hs, h0⟩
  | succ j ih =>
    obtain ⟨k, s', hk, hR, -⟩ := ih
    obtain ⟨k', s₁, s₂, hR₁, hadv, hstep, hR₂, hk'⟩ := h.exists_advance hk hR
    rw [Function.iterate_succ_apply']
    exact ⟨k', s₂, hk', hR₂, hA hR₁ hadv hstep⟩

end Follows

end Utrace
