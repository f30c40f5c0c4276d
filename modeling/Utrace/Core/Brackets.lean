import Mathlib.Algebra.Order.Ring.Int
import Mathlib.Data.List.Infix
import Mathlib.Tactic.Common

/-!
# Balanced brackets, counted from the right

An alphabet has an opening and a closing bracket. Read from its right end, a balanced text never
opens more brackets than it has closed, and in the end as many of them. A scan that has some
closed brackets to match counts in the same way, a symbol at a time.
-/

namespace Utrace

variable {γ : Type*}

/-- An opening and a closing bracket. -/
structure Brackets (γ : Type*) where
  opening : γ
  closing : γ
  ne : opening ≠ closing

namespace Brackets

variable [DecidableEq γ] (b : Brackets γ) {k : Int} {c : γ} {t : List γ}

/-- How many more brackets are closed than opened in a text. -/
def excess (t : List γ) : Int := t.count b.closing - t.count b.opening

/-- A text is balanced if its brackets are as many as each other, and no part at its right end
opens more of them than it closes. -/
structure Balanced (t : List γ) : Prop where
  even : b.excess t = 0
  right : ∀ s, s <:+ t → 0 ≤ b.excess s

instance (t : List γ) : Decidable (b.Balanced t) :=
  decidable_of_iff (b.excess t = 0 ∧ ∀ s ∈ t.tails, 0 ≤ b.excess s)
    ⟨fun h => ⟨h.1, fun s hs => h.2 s ((List.mem_tails s t).mpr hs)⟩,
      fun h => ⟨h.even, fun s hs => h.right s ((List.mem_tails s t).mp hs)⟩⟩

/-- What one symbol adds to the brackets to match. -/
def weight (c : γ) : Int := if c = b.closing then 1 else if c = b.opening then -1 else 0

/-- Nothing has no excess. -/
theorem excess_nil : b.excess [] = 0 := rfl

/-- The excess of a longer text. -/
theorem excess_cons (c : γ) (t : List γ) : b.excess (c :: t) = b.weight c + b.excess t := by
  rw [excess, excess, weight, List.count_cons, List.count_cons]
  simp only [beq_iff_eq]
  by_cases hclose : c = b.closing
  · have hopen : c ≠ b.opening := fun h => b.ne (h.symm.trans hclose)
    rw [if_pos hclose, if_neg hopen, if_pos hclose]
    omega
  · rw [if_neg hclose, if_neg hclose]
    split <;> omega

/-- The excess does not depend on the direction. -/
theorem excess_reverse (t : List γ) : b.excess t.reverse = b.excess t := by
  rw [excess, excess, List.count_reverse, List.count_reverse]

/-- Read from its first symbol on, with `k` brackets to match, a text leaves one to match, and
at least one at every symbol. -/
structure Leaves (k : Int) (t : List γ) : Prop where
  one : k + b.excess t = 1
  pos : ∀ r, r <+: t → 1 ≤ k + b.excess r

variable {b}

/-- An empty text leaves one bracket only. -/
theorem leaves_nil : b.Leaves k [] ↔ k = 1 := by
  constructor
  · intro h
    have hone := h.one
    rwa [excess_nil, add_zero] at hone
  · rintro rfl
    refine ⟨rfl, fun r hr => ?_⟩
    rw [List.prefix_nil.mp hr]
    exact le_rfl

/-- A character that leaves brackets, and the rest. -/
theorem leaves_cons : b.Leaves k (c :: t) ↔ 1 ≤ k ∧ b.Leaves (k + b.weight c) t := by
  constructor
  · intro h
    have hone := h.one
    have hfirst := h.pos [] List.nil_prefix
    rw [excess_cons, ← add_assoc] at hone
    rw [excess_nil, add_zero] at hfirst
    refine ⟨hfirst, hone, fun r hr => ?_⟩
    have hpos := h.pos (c :: r) (List.cons_prefix_cons.mpr ⟨rfl, hr⟩)
    rwa [excess_cons, ← add_assoc] at hpos
  · rintro ⟨hk, h⟩
    refine ⟨?_, fun r hr => ?_⟩
    · rw [excess_cons, ← add_assoc]
      exact h.one
    · cases r with
      | nil => rwa [excess_nil, add_zero]
      | cons d r =>
        obtain ⟨rfl, hrest⟩ := List.cons_prefix_cons.mp hr
        rw [excess_cons, ← add_assoc]
        exact h.pos r hrest

/-- A text is balanced if a scan from its right end leaves the one bracket it began with. -/
theorem balanced_iff_leaves : b.Balanced t ↔ b.Leaves 1 t.reverse := by
  constructor
  · intro h
    refine ⟨by rw [excess_reverse, h.even]; rfl, fun r hr => ?_⟩
    have hright := h.right r.reverse (by simpa using List.reverse_suffix.mpr hr)
    rw [excess_reverse] at hright
    omega
  · intro h
    have hone := h.one
    rw [excess_reverse] at hone
    refine ⟨by omega, fun s hs => ?_⟩
    have hpos := h.pos s.reverse (List.reverse_prefix.mpr hs)
    rw [excess_reverse] at hpos
    omega

end Brackets

end Utrace
