import Mathlib.Data.List.Infix
import Mathlib.Tactic.Common

/-!
# The segments of a text between separators

A loop that takes the text up to the next separator, and goes on behind it for as long as there
is text left, sees the segments of the text in order, but for an empty one at the very end.
-/

namespace Utrace

variable {α : Type*} [DecidableEq α]

/-- What such a loop takes, segment by segment. -/
def segments (sep : α) (text : List α) : List (List α) :=
  if (text.splitOn sep).getLast? = some [] then (text.splitOn sep).dropLast
  else text.splitOn sep

variable {sep : α} {segment text : List α}

/-- An empty list has no segment. -/
@[simp] theorem segments_nil (sep : α) : segments sep [] = [] := by simp [segments]

/-- A text without a separator is one segment. -/
theorem segments_single (hsep : sep ∉ segment) (hne : segment ≠ []) :
    segments sep segment = [segment] := by
  rw [segments, List.splitOn_eq_singleton hsep]
  simp [hne]

/-- The first separator ends the first segment. -/
theorem segments_cons (hsep : sep ∉ segment) (text : List α) :
    segments sep (segment ++ sep :: text) = segment :: segments sep text := by
  have hne : text.splitOn sep ≠ [] := List.splitOn_ne_nil sep text
  obtain ⟨first, others, hsplit⟩ := List.exists_cons_of_ne_nil hne
  rw [segments, segments, List.splitOn_append_cons_self_of_not_mem hsep, hsplit]
  rw [List.getLast?_cons_cons, List.dropLast_cons_cons]
  split <;> rfl

/-- Only an empty segment can be missing. -/
theorem mem_segments_iff (hne : segment ≠ []) :
    segment ∈ segments sep text ↔ segment ∈ text.splitOn sep := by
  unfold segments
  split
  · rename_i hlast
    have hsplit := List.dropLast_append_getLast? [] hlast
    conv_rhs => rw [← hsplit, List.mem_append, List.mem_singleton]
    exact (or_iff_left hne).symm
  · exact Iff.rfl

/-- The segments, and perhaps an empty one. -/
theorem splitOn_eq_segments (sep : α) (text : List α) :
    text.splitOn sep = segments sep text ∨ text.splitOn sep = segments sep text ++ [[]] := by
  unfold segments
  split
  · rename_i hlast
    exact Or.inr (List.dropLast_append_getLast? [] hlast).symm
  · exact Or.inl rfl

/-- A text has no separator, or it is a first segment, a separator and the text behind it. -/
theorem exists_segment (sep : α) (text : List α) :
    sep ∉ text ∨ ∃ segment rest, sep ∉ segment ∧ text = segment ++ sep :: rest := by
  by_cases hmem : sep ∈ text
  · obtain ⟨segment, rest, htext, hsegment⟩ := List.eq_append_cons_of_mem hmem
    exact Or.inr ⟨segment, rest, hsegment, htext⟩
  · exact Or.inl hmem

/-- Induction over the segments. -/
theorem segments_induction {motive : List α → Prop} (sep : α) (nil : motive [])
    (last : ∀ segment, sep ∉ segment → segment ≠ [] → motive segment)
    (cons : ∀ segment text, sep ∉ segment → motive text → motive (segment ++ sep :: text))
    (text : List α) : motive text := by
  induction hlength : text.length using Nat.strongRecOn generalizing text with
  | _ length ih =>
    rcases exists_segment sep text with hnone | ⟨segment, rest, hsegment, rfl⟩
    · by_cases hempty : text = []
      · exact hempty ▸ nil
      · exact last text hnone hempty
    · refine cons segment rest hsegment (ih rest.length ?_ rest rfl)
      rw [← hlength, List.length_append, List.length_cons]
      omega

end Utrace
