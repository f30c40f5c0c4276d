import Mathlib.Tactic.Common

/-!
# Programs that see part of the state

A program that may fail sees no more than `view` shows when equal views before it give equal views
after it, and the same failure. It leaves a part of the state when that part is the same after it
wherever it goes through. Both kinds of programs compose.
-/

namespace Utrace

variable {σ τ ε α : Type*}

/-- Equal views before give equal views after, and the same failure. -/
def Sees (view : σ → τ) (h : σ → Except ε σ) : Prop :=
  ∀ ⦃s s'⦄, view s = view s' → (h s).map view = (h s').map view

namespace Sees

variable {view : σ → τ} {h h' : σ → Except ε σ} {s s' t : σ}

/-- A total update that respects the view sees no more than it. -/
theorem of_ok {g : σ → σ} (hg : ∀ ⦃s s'⦄, view s = view s' → view (g s) = view (g s')) :
    Sees view fun s => (.ok (g s) : Except ε σ) :=
  fun _ _ heq => congrArg Except.ok (hg heq)

/-- One program after the other. -/
theorem bind (hh : Sees view h) (hh' : Sees view h') : Sees view fun s => (h s).bind h' := by
  intro s s' heq
  have hfirst := hh heq
  dsimp only
  cases hs : h s with
  | error e =>
    cases hs' : h s' with
    | error e' =>
      rw [hs, hs'] at hfirst
      cases hfirst
      rfl
    | ok t' =>
      rw [hs, hs'] at hfirst
      cases hfirst
  | ok t =>
    cases hs' : h s' with
    | error e' =>
      rw [hs, hs'] at hfirst
      cases hfirst
    | ok t' =>
      rw [hs, hs'] at hfirst
      exact hh' (Except.ok.inj hfirst)

/-- The program to run next depends on what is seen. -/
theorem of_eq {h : α → σ → Except ε σ} (hh : ∀ a, Sees view (h a)) {read : σ → α}
    (hread : ∀ ⦃s s'⦄, view s = view s' → read s = read s') : Sees view fun s => h (read s) s := by
  intro s s' heq
  dsimp only
  rw [hread heq]
  exact hh _ heq

/-- Where one run goes through, so does the other, and they end alike. -/
theorem exists_ok (hh : Sees view h) (heq : view s = view s') (hs : h s = .ok t) :
    ∃ t', h s' = .ok t' ∧ view t = view t' := by
  have hboth := hh heq
  rw [hs] at hboth
  cases hs' : h s' with
  | error e =>
    rw [hs'] at hboth
    cases hboth
  | ok t' =>
    rw [hs'] at hboth
    exact ⟨t', rfl, Except.ok.inj hboth⟩

end Sees

/-- The part `read` of the state is after the program as it was before. -/
def LeavesAlone (read : σ → α) (h : σ → Except ε σ) : Prop :=
  ∀ ⦃s t⦄, h s = .ok t → read t = read s

namespace LeavesAlone

variable {read : σ → α} {h h' : σ → Except ε σ}

/-- A total update that keeps the reading leaves it alone. -/
theorem of_ok {g : σ → σ} (hg : ∀ s, read (g s) = read s) :
    LeavesAlone read fun s => (.ok (g s) : Except ε σ) := by
  intro s t hs
  cases hs
  exact hg s

/-- One program after the other. -/
theorem bind (hh : LeavesAlone read h) (hh' : LeavesAlone read h') :
    LeavesAlone read fun s => (h s).bind h' := by
  intro s t hs
  dsimp only at hs
  cases hfirst : h s with
  | error e =>
    rw [hfirst] at hs
    cases hs
  | ok s' =>
    rw [hfirst] at hs
    exact (hh' hs).trans (hh hfirst)

end LeavesAlone

end Utrace
