import Utrace.Interpretation.Trailing

/-!
# Comments behind a declaration

`ltrace.conf` puts comments behind declarations, and nothing in `process_line` takes them off:
the search for the left parenthesis begins at the end of the comment. A comment is harmless
exactly when it holds no parenthesis.
-/

namespace Utrace

variable {filename : String} {lineNo : Nat} {line gap comment : List Char}

/-- Spaces and tabs. -/
def Blank (gap : List Char) : Prop := ∀ c ∈ gap, c = ' ' ∨ c = '\t'

/-- The comment decides alone whether a parenthesis stands behind the line. -/
theorem noParens_comment (hgap : Blank gap) :
    NoParens (gap ++ ';' :: comment) ↔ NoParens comment := by
  constructor
  · intro h c hc
    apply h
    exact List.mem_append_right _ (List.mem_cons_of_mem _ hc)
  · intro h c hc
    rcases List.mem_append.mp hc with hblank | hcomment
    · rcases hgap c hblank with rfl | rfl <;> decide
    · rcases List.mem_cons.mp hcomment with rfl | hc
      · decide
      · exact h c hc

/-- There is no zero in a line with a comment when there is none in the line and the comment. -/
theorem zero_notMem_commented (hgap : Blank gap) (hline : '\x00' ∉ line)
    (hcomment : '\x00' ∉ comment) : '\x00' ∉ line ++ (gap ++ ';' :: comment) := by
  intro hmem
  rcases List.mem_append.mp hmem with hmem | hmem
  · exact hline hmem
  · rcases List.mem_append.mp hmem with hmem | hmem
    · exact absurd (hgap _ hmem) (by decide)
    · rcases List.mem_cons.mp hmem with hzero | hmem
      · exact absurd hzero (by decide)
      · exact hcomment hmem

/-- For every line a function is returned for, and every comment behind it: the same function is
returned for both together exactly when no parenthesis is in the comment. -/
theorem comment_keeps_iff {func : Function} (hline : '\x00' ∉ line) (hcomment : '\x00' ∉ comment)
    (hgap : Blank gap) (hfunc : processLine filename lineNo line = .function func) :
    processLine filename lineNo (line ++ (gap ++ ';' :: comment)) = .function func ↔
      NoParens comment := by
  have hzero := zero_notMem_commented hgap hline hcomment
  rw [← noParens_comment hgap]
  constructor
  · intro hboth
    obtain ⟨text, _, _, hlocated, _⟩ := processLine_eq_function_iff.mp hfunc
    obtain ⟨text', _, _, hlocated', _⟩ := processLine_eq_function_iff.mp hboth
    exact hlocated.noParens_of_append hzero hlocated'
  · intro hparens
    rw [processLine_append hzero hparens]
    exact hfunc

/-- A comment without parentheses, and one with them. -/
theorem comment_keeps_iff_sample :
    processLine "ltrace.conf" 1 ("int f(int);".toList ++ ("  ".toList ++ ';' :: " see g".toList)) =
        .function oneInt ∧
      processLine "ltrace.conf" 1
        ("int f(int);".toList ++ ("  ".toList ++ ';' :: " (see g)".toList)) ≠ .function oneInt := by
  have hgap : Blank "  ".toList := by simp [Blank]
  have hline : '\x00' ∉ "int f(int);".toList := by simp
  have hplain : '\x00' ∉ " see g".toList := by simp
  have hparens : '\x00' ∉ " (see g)".toList := by simp
  have hfunc := processLine_oneInt "ltrace.conf" 1
  constructor
  · exact (comment_keeps_iff hline hplain hgap hfunc).mpr (by simp [NoParens])
  · intro hboth
    have hnone := (comment_keeps_iff hline hparens hgap hfunc).mp hboth
    simp [NoParens] at hnone

/-- `int f(int); ; (see g)` declares something else. -/
theorem comment_changes_declaration :
    ¬∀ (filename : String) (lineNo : Nat) (before gap comment : List Char) (func : Function),
      '\x00' ∉ before → '\n' ∉ before → '\x00' ∉ comment → '\n' ∉ comment → Blank gap →
        processLine filename lineNo (before ++ ");".toList) = .function func →
          processLine filename lineNo (before ++ ");".toList ++ (gap ++ ';' :: comment)) =
            .function func := by
  intro hclaim
  have hboth := hclaim "ltrace.conf" 1 "int f(int".toList " ".toList " (see g)".toList oneInt
    (by simp) (by simp) (by simp) (by simp) (by simp [Blank]) (processLine_oneInt _ _)
  have hlocated : Located ("int f(int".toList ++ ");".toList ++
      (" ".toList ++ ';' :: " (see g)".toList)) .int "f(int); ; ".toList "see g)".toList :=
    ⟨by decide, by decide, by decide, by decide⟩
  obtain ⟨text, _, _, hfound, _⟩ := processLine_eq_function_iff.mp hboth
  have hname : oneInt.name.length = "f(int); ; ".toList.length := by
    have hsame := hlocated.split.symm.trans hfound.split
    have hlength := hlocated.found
    rw [hsame] at hlength
    exact Option.some.inj (hfound.found.symm.trans hlength)
  exact absurd hname (by decide)

end Utrace
