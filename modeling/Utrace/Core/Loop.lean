import Mathlib.Tactic.Common

/-!
# Loops and how they end

One turn of a loop goes on from another state or leaves with a result. It may hold a loop
itself, so it may also be without an outcome as yet. A loop that is allowed a number of turns
has an outcome if it leaves within them.
-/

namespace Utrace

variable {σ ρ : Type*}

/-- The result of a loop that leaves within a number of turns. -/
def loop (turn : σ → Option (σ ⊕ ρ)) : Nat → σ → Option ρ
  | 0, _ => none
  | turns + 1, s => (turn s).bind fun next => next.elim (loop turn turns) some

/-- A turn that goes on uses one unit of fuel. -/
theorem loop_inl {turn : σ → Option (σ ⊕ ρ)} {s s' : σ} (h : turn s = some (.inl s'))
    (turns : Nat) : loop turn (turns + 1) s = loop turn turns s' := by
  rw [loop, h]
  rfl

/-- A turn that ends gives the result. -/
theorem loop_inr {turn : σ → Option (σ ⊕ ρ)} {s : σ} {r : ρ} (h : turn s = some (.inr r))
    (turns : Nat) : loop turn (turns + 1) s = some r := by
  rw [loop, h]
  rfl

/-- A loop leaves, with a result that is as it should be, if every turn from a state of the
invariant has an outcome: a state of the invariant from which fewer turns are left, or such a
result. -/
theorem exists_loop_eq {turn : σ → Option (σ ⊕ ρ)} (Inv : σ → Prop) (Post : ρ → Prop)
    (left : σ → Nat) (hturn : ∀ s, Inv s → ∃ next, turn s = some next ∧
      next.elim (fun s' => Inv s' ∧ left s' < left s) Post)
    {turns : Nat} {s : σ} (hs : Inv s) (hturns : left s < turns) :
    ∃ r, loop turn turns s = some r ∧ Post r := by
  induction turns generalizing s with
  | zero => exact absurd hturns (Nat.not_lt_zero _)
  | succ turns ih =>
    obtain ⟨next, hnext, hkept⟩ := hturn s hs
    cases next with
    | inl s' =>
      obtain ⟨r, hr, hpost⟩ := ih hkept.1 (by have hless := hkept.2; omega)
      exact ⟨r, (loop_inl hnext turns).trans hr, hpost⟩
    | inr r => exact ⟨r, loop_inr hnext turns, hkept⟩

end Utrace
