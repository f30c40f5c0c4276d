import Mathlib.Algebra.BigOperators.Group.List.Basic
import Mathlib.Tactic.Linarith
import Mathlib.Tactic.Ring

/-!
# Rounded shares

The share that each of several parts has in their total is rounded to the nearest unit. The
rounded shares add up to the whole but for half a unit each.
-/

namespace Utrace

/-- The share of a part, in units of which the total has `scale`, rounded from its tenths. -/
def roundedShare (scale total part : Nat) : Nat := (10 * scale * part / total + 5) / 10

/-- A rounded share is at most half a unit off. -/
theorem roundedShare_bounds (scale part : Nat) {total : Nat} (htotal : 0 < total) :
    2 * (total * roundedShare scale total part) ≤ 2 * (scale * part) + total ∧
      2 * (scale * part) ≤ 2 * (total * roundedShare scale total part) + total := by
  set tenths := 10 * scale * part / total with htenths
  have hlow : total * tenths ≤ 10 * scale * part := Nat.mul_div_le _ _
  have hhigh : 10 * scale * part < total * (tenths + 1) := Nat.lt_mul_div_succ _ htotal
  have hshare : roundedShare scale total part = (tenths + 5) / 10 := rfl
  have hup : 10 * roundedShare scale total part ≤ tenths + 5 := by omega
  have hdown : tenths ≤ 10 * roundedShare scale total part + 4 := by omega
  constructor
  · have hmul := Nat.mul_le_mul_left total hup
    nlinarith
  · have hmul := Nat.mul_le_mul_left total hdown
    nlinarith

/-- The shares of all parts. -/
theorem sum_roundedShare_bounds (scale : Nat) (parts : List Nat) (htotal : 0 < parts.sum) :
    2 * (parts.map (roundedShare scale parts.sum)).sum ≤ 2 * scale + parts.length ∧
      2 * scale ≤ 2 * (parts.map (roundedShare scale parts.sum)).sum + parts.length := by
  have hsums : ∀ {total : Nat}, 0 < total → ∀ ps : List Nat,
      2 * (total * (ps.map (roundedShare scale total)).sum) ≤
          2 * (scale * ps.sum) + ps.length * total ∧
        2 * (scale * ps.sum) ≤
          2 * (total * (ps.map (roundedShare scale total)).sum) + ps.length * total := by
    intro total hpos ps
    induction ps with
    | nil => simp
    | cons p ps ih =>
      obtain ⟨hup, hdown⟩ := roundedShare_bounds scale p hpos
      obtain ⟨hups, hdowns⟩ := ih
      rw [List.map_cons, List.sum_cons, List.sum_cons, List.length_cons]
      constructor
      · linarith [Nat.mul_add total (roundedShare scale total p)
          (ps.map (roundedShare scale total)).sum, Nat.mul_add scale p ps.sum,
          Nat.add_mul ps.length 1 total]
      · linarith [Nat.mul_add total (roundedShare scale total p)
          (ps.map (roundedShare scale total)).sum, Nat.mul_add scale p ps.sum,
          Nat.add_mul ps.length 1 total]
  obtain ⟨hup, hdown⟩ := hsums htotal parts
  constructor
  · apply Nat.le_of_mul_le_mul_left _ htotal
    linarith
  · apply Nat.le_of_mul_le_mul_left _ htotal
    linarith

end Utrace
