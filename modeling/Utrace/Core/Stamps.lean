import Mathlib.Order.Lattice

/-!
# Frames stamped with the log

Each frame of a stack, innermost first, may carry the length the log had right after the
frame was announced. The log itself only remembers the depth of the announcement it ends
with, if it ends with one. Where the stamps are kept, that depth alone tells which frame
was announced last.
-/

namespace Utrace

/-- Every stamp lies in the past, and a frame is stamped with the present exactly when the
log ends with an announcement at the depth of the frame. -/
def Stamped (now : Nat) (opened : Option Nat) : List (Option Nat) → Prop
  | [] => True
  | stamp :: stamps =>
    (stamp = some now ↔ opened = some stamps.length) ∧ (∀ time, stamp = some time → time ≤ now) ∧
      Stamped now opened stamps

namespace Stamped

variable {now now' : Nat} {opened opened' : Option Nat} {stamps : List (Option Nat)}

/-- The log grew, and ends with no announcement of a frame of the stack. -/
theorem later (h : Stamped now opened stamps) (hnow : now < now')
    (habove : ∀ d, opened' = some d → stamps.length ≤ d) : Stamped now' opened' stamps := by
  induction stamps with
  | nil => trivial
  | cons stamp stamps ih =>
    obtain ⟨_, hpast, hrest⟩ := h
    refine ⟨⟨?_, ?_⟩, ?_, ?_⟩
    · intro hstamp
      have hle := hpast now' hstamp
      omega
    · intro hopened
      have hle := habove stamps.length hopened
      rw [List.length_cons] at hle
      omega
    · intro time htime
      exact (hpast time htime).trans hnow.le
    · refine ih hrest fun d hd => ?_
      have hle := habove d hd
      rw [List.length_cons] at hle
      omega

/-- A frame whose announcement the log ends with. -/
theorem push (h : Stamped now (some stamps.length) stamps) :
    Stamped now (some stamps.length) (some now :: stamps) := by
  refine ⟨by simp, ?_, h⟩
  rintro time ⟨⟩
  exact le_rfl

/-- A frame that is not announced. -/
theorem silent (h : Stamped now opened stamps) (hopened : opened ≠ some stamps.length) :
    Stamped now opened (none :: stamps) := by
  refine ⟨by simp [hopened], ?_, h⟩
  rintro time ⟨⟩

/-- Dropping the innermost entries keeps the stamps. -/
theorem drop (h : Stamped now opened stamps) (n : Nat) : Stamped now opened (stamps.drop n) := by
  induction n generalizing stamps with
  | zero => exact h
  | succ n ih =>
    cases stamps with
    | nil => exact h
    | cons stamp stamps => exact ih h.2.2

/-- The stamp of a frame found among those of the stack. -/
theorem getElem?_iff (h : Stamped now opened stamps) {n : Nat} (hn : n < stamps.length) :
    stamps[n]? = some (some now) ↔ opened = some (stamps.length - (n + 1)) := by
  have hrest := h.drop n
  rw [List.drop_eq_getElem_cons hn] at hrest
  rw [List.getElem?_eq_getElem hn, Option.some.injEq, hrest.1, List.length_drop]

end Stamped

end Utrace
