import Mathlib.Data.List.Infix
import Mathlib.Tactic.Common

/-!
# Logs of entered and left frames

A log of marks, newest first, records frames entered and left, each at its depth. Frames
may be entered silently, dropped without a mark, or marked and never pushed. Where every
frame of the stack that is not silent has its own enter as the newest mark at its depth,
every frame that is left with a mark closes the enter it belongs to.
-/

namespace Utrace

/-- A frame was entered or left at a depth. -/
inductive Mark (ν : Type*) where
  | enter (depth : Nat) (name : ν)
  | leave (depth : Nat) (name : ν)
  deriving DecidableEq, Repr

variable {ν : Type*}

/-- The depth of a mark. -/
def Mark.depth : Mark ν → Nat
  | enter depth _ | leave depth _ => depth

/-- The newest mark at a depth. -/
def lastAt (d : Nat) (log : List (Mark ν)) : Option (Mark ν) :=
  log.find? fun m => m.depth = d

/-- The last mark at a depth may be the newest. -/
theorem lastAt_cons_self (m : Mark ν) (log : List (Mark ν)) :
    lastAt m.depth (m :: log) = some m := by
  unfold lastAt
  rw [List.find?_cons_of_pos (by simp)]

/-- Else it is among the older ones. -/
theorem lastAt_cons_of_ne {m : Mark ν} {d : Nat} (h : m.depth ≠ d) (log : List (Mark ν)) :
    lastAt d (m :: log) = lastAt d log := by
  unfold lastAt
  rw [List.find?_cons_of_neg (by simpa using h)]

/-- Every frame left closes the newest enter at its depth: it has the same name, and no
frame was left at that depth since. -/
def Matched (log : List (Mark ν)) : Prop :=
  ∀ older d name, .leave d name :: older <:+ log → lastAt d older = some (.enter d name)

/-- No marks are matched. -/
theorem matched_nil : Matched ([] : List (Mark ν)) := by
  intro older d name h
  cases List.suffix_nil.mp h

/-- An enter needs nothing. -/
theorem Matched.enter {log : List (Mark ν)} (h : Matched log) (d : Nat) (name : ν) :
    Matched (.enter d name :: log) := by
  intro older d' name' hsuffix
  rcases List.suffix_cons_iff.mp hsuffix with heq | hsuffix
  · cases heq
  · exact h older d' name' hsuffix

/-- A leave needs its enter. -/
theorem Matched.leave {log : List (Mark ν)} (h : Matched log) {d : Nat} {name : ν}
    (hlast : lastAt d log = some (.enter d name)) : Matched (.leave d name :: log) := by
  intro older d' name' hsuffix
  rcases List.suffix_cons_iff.mp hsuffix with heq | hsuffix
  · cases heq
    exact hlast
  · exact h older d' name' hsuffix

/-- The enter of every frame with a name is the newest mark at the depth of the frame; the
stack is innermost first. -/
def Covers (log : List (Mark ν)) : List (Option ν) → Prop
  | [] => True
  | frame :: frames =>
    (∀ name, frame = some name → lastAt frames.length log = some (.enter frames.length name)) ∧
      Covers log frames

/-- A mark above every frame changes nothing for them. -/
theorem Covers.cons {log : List (Mark ν)} {frames : List (Option ν)} (h : Covers log frames)
    {m : Mark ν} (hm : frames.length ≤ m.depth) : Covers (m :: log) frames := by
  induction frames with
  | nil => trivial
  | cons frame frames ih =>
    rw [List.length_cons] at hm
    refine ⟨fun name hname => ?_, ih h.2 (by omega)⟩
    rw [lastAt_cons_of_ne (by omega)]
    exact h.1 name hname

/-- A frame entered with its mark. -/
theorem Covers.enter {log : List (Mark ν)} {frames : List (Option ν)} (h : Covers log frames)
    (name : ν) : Covers (.enter frames.length name :: log) (some name :: frames) := by
  refine ⟨fun name' hname => ?_, h.cons le_rfl⟩
  cases hname
  exact lastAt_cons_self (.enter frames.length name) log

/-- A frame entered silently. -/
theorem Covers.silent {log : List (Mark ν)} {frames : List (Option ν)} (h : Covers log frames) :
    Covers log (none :: frames) := ⟨nofun, h⟩

/-- Marks that cover all frames cover the outer ones. -/
theorem Covers.drop {log : List (Mark ν)} {frames : List (Option ν)} (h : Covers log frames)
    (n : Nat) : Covers log (frames.drop n) := by
  induction n generalizing frames with
  | zero => exact h
  | succ n ih =>
    cases frames with
    | nil => exact h
    | cons frame frames => exact ih h.2

/-- A frame with a name, left together with those above it. -/
theorem Covers.leave {log : List (Mark ν)} {frames : List (Option ν)} (h : Covers log frames)
    (hmatched : Matched log) {n : Nat} {name : ν} (hframe : frames[n]? = some (some name)) :
    Covers (.leave (frames.drop (n + 1)).length name :: log) (frames.drop (n + 1)) ∧
      Matched (.leave (frames.drop (n + 1)).length name :: log) := by
  obtain ⟨hlen, hget⟩ := List.getElem?_eq_some_iff.mp hframe
  have hcovered := h.drop n
  rw [List.drop_eq_getElem_cons hlen, hget] at hcovered
  exact ⟨hcovered.2.cons le_rfl, hmatched.leave (hcovered.1 name rfl)⟩

end Utrace
