import Mathlib.Tactic.Common

/-!
# Guarded runs of a partial transition

A partial step consumes one input and may be undefined on it. A guarded run
records that every input was allowed in the state it met. Invariants of whole
runs are obtained from one step at a time, and a guard that decides each step's
postcondition decides the postcondition of the whole run.
-/

namespace Utrace

variable {σ ι : Type*}

/-- From `s` the step is defined on every input in turn, every input meets the guard in
the state it finds, and the last state is the final index. -/
inductive Run (step : σ → ι → Option σ) (guard : σ → ι → Prop) (s : σ) : List ι → σ → Prop
  | nil : Run step guard s [] s
  | snoc {inputs t i u} : Run step guard s inputs t → guard t i → step t i = some u →
      Run step guard s (inputs ++ [i]) u

namespace Run

variable {step : σ → ι → Option σ} {guard guard' : σ → ι → Prop} {s t u : σ}
  {inputs inputs' : List ι}

/-- A property of the first state that every allowed step keeps holds in the last state. -/
theorem invariant {P : σ → Prop} (hr : Run step guard s inputs t) (h0 : P s)
    (hstep : ∀ t i u, P t → guard t i → step t i = some u → P u) : P t := by
  induction hr with
  | nil => exact h0
  | snoc _ hg hs ih => exact hstep _ _ _ ih hg hs

/-- A weaker guard allows every run of a stronger one. -/
theorem mono (hr : Run step guard s inputs t) (h : ∀ t i, guard t i → guard' t i) :
    Run step guard' s inputs t := by
  induction hr with
  | nil => exact .nil
  | snoc _ hg hs ih => exact .snoc ih (h _ _ hg) hs

/-- The guard of a run may be strengthened by whatever an invariant implies. -/
theorem strengthen {P : σ → Prop} (hr : Run step guard s inputs t) (h0 : P s)
    (hstep : ∀ t i u, P t → guard t i → step t i = some u → P u)
    (h : ∀ t i u, P t → guard t i → step t i = some u → guard' t i) :
    Run step guard' s inputs t := by
  have hboth : Run step guard' s inputs t ∧ P t := by
    induction hr with
    | nil => exact ⟨.nil, h0⟩
    | snoc _ hg hs ih => exact ⟨.snoc ih.1 (h _ _ _ ih.2 hg hs) hs, hstep _ _ _ ih.2 hg hs⟩
  exact hboth.1

/-- Runs compose. -/
theorem append (hr : Run step guard s inputs t) (hr' : Run step guard t inputs' u) :
    Run step guard s (inputs ++ inputs') u := by
  induction hr' with
  | nil => simpa using hr
  | snoc _ hg hs ih => simpa only [List.append_assoc] using ih.snoc hg hs

/-- A run of one input. -/
theorem single {i : ι} (hg : guard s i) (hs : step s i = some t) : Run step guard s [i] t :=
  Run.snoc .nil hg hs

/-- Where an invariant makes the guard `cond` equivalent to the postcondition `good` of
the very next state, a run keeps `good` after every step exactly when it meets `cond` at
every step. -/
theorem guard_iff {P : σ → Prop} {valid cond : σ → ι → Prop} {good : σ → Prop} (h0 : P s)
    (hstep : ∀ t i u, P t → valid t i → cond t i → step t i = some u → P u)
    (hiff : ∀ t i u, P t → valid t i → step t i = some u → (good u ↔ cond t i)) :
    Run step (fun t i => valid t i ∧ ∀ u, step t i = some u → good u) s inputs t ↔
      Run step (fun t i => valid t i ∧ cond t i) s inputs t := by
  constructor
  · intro hr
    refine hr.strengthen (P := P) h0 ?_ ?_
    · intro t i u ht hg hs
      exact hstep t i u ht hg.1 ((hiff t i u ht hg.1 hs).mp (hg.2 u hs)) hs
    · intro t i u ht hg hs
      exact ⟨hg.1, (hiff t i u ht hg.1 hs).mp (hg.2 u hs)⟩
  · intro hr
    refine hr.strengthen (P := P) h0 ?_ ?_
    · intro t i u ht hg hs
      exact hstep t i u ht hg.1 hg.2 hs
    · intro t i u ht hg hs
      refine ⟨hg.1, fun v hv => ?_⟩
      rw [hs] at hv
      cases hv
      exact (hiff t i u ht hg.1 hs).mpr hg.2

/-- The same where every input is valid. -/
theorem good_iff {P : σ → Prop} {cond : σ → ι → Prop} {good : σ → Prop} (h0 : P s)
    (hstep : ∀ t i u, P t → cond t i → step t i = some u → P u)
    (hiff : ∀ t i u, P t → step t i = some u → (good u ↔ cond t i)) :
    Run step (fun t i => ∀ u, step t i = some u → good u) s inputs t ↔
      Run step cond s inputs t := by
  have hvalid : Run step (fun t i => True ∧ ∀ u, step t i = some u → good u) s inputs t ↔
      Run step (fun t i => True ∧ cond t i) s inputs t :=
    guard_iff h0 (fun t i u ht _ hc hs => hstep t i u ht hc hs)
      fun t i u ht _ hs => hiff t i u ht hs
  constructor
  · intro hr
    exact (hvalid.mp (hr.mono fun _ _ h => ⟨trivial, h⟩)).mono fun _ _ h => h.2
  · intro hr
    exact (hvalid.mpr (hr.mono fun _ _ h => ⟨trivial, h⟩)).mono fun _ _ h => h.2

end Run

/-- Execute a list of inputs, refusing those a decidable guard forbids. -/
def runInputs (step : σ → ι → Option σ) (guard : σ → ι → Bool) (s : σ) : List ι → Option σ
  | [] => some s
  | i :: inputs =>
    if guard s i then (step s i).bind fun t => runInputs step guard t inputs else none

/-- Executing the inputs yields a guarded run. -/
theorem run_of_runInputs {step : σ → ι → Option σ} {guard : σ → ι → Bool} {s t : σ}
    {inputs : List ι} (h : runInputs step guard s inputs = some t) :
    Run step (fun t i => guard t i = true) s inputs t := by
  induction inputs generalizing s with
  | nil =>
    simp only [runInputs, Option.some.injEq] at h
    exact h ▸ .nil
  | cons i inputs ih =>
    by_cases hg : guard s i = true
    · simp only [runInputs, hg, if_true] at h
      obtain ⟨u, hu, ht⟩ := Option.bind_eq_some_iff.mp h
      have hfirst : Run step (fun t i => guard t i = true) s [i] u := Run.single hg hu
      exact hfirst.append (ih ht)
    · simp [runInputs, hg] at h

/-- A decidable observation of the executed inputs is an observation of a run, under any
guard that the decidable one is enough for. -/
theorem exists_run_of_observe {step : σ → ι → Option σ} {guard : σ → ι → Bool}
    {allowed : σ → ι → Prop} {s : σ} {inputs : List ι} {observe : σ → Bool}
    (hallowed : ∀ t i, guard t i = true → allowed t i)
    (h : (runInputs step guard s inputs).any observe = true) :
    ∃ t, Run step allowed s inputs t ∧ observe t = true := by
  cases hr : runInputs step guard s inputs with
  | none => simp [hr] at h
  | some t => exact ⟨t, (run_of_runInputs hr).mono hallowed, by simpa [hr] using h⟩

end Utrace
