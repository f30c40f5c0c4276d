import Utrace.Core.Run
import Utrace.Interpretation.Columns

/-!
# The column of the equals sign

Whenever a line is open its counter is right, and whenever none is open the last character
written was a newline. Each of the three functions keeps this, whatever thread it is called for,
so the results are aligned in every run.
-/

namespace Utrace.Console

/-! ## Runs -/

/-- A call of one of the three functions. -/
inductive Call where
  | line (w : Moment) (thr : Option Thread) (fmt : Option (List Char))
  | left (w : Moment) (type : Tof) (thr : Thread) (functionName : List Char)
  | right (w : Moment) (type : Tof) (thr : Thread) (functionName : List Char)

/-- The call. -/
def step (o : Layout) (c : Console) : Call → Option Console
  | .line w thr fmt => some (outputLine o w thr fmt c)
  | .left w type thr functionName => outputLeft o w type thr functionName c
  | .right w type thr functionName => outputRight o w type thr functionName c

/-- The thread has an id, and its name, demangled or not, holds no newline. -/
def Call.Named (o : Layout) : Call → Prop
  | .line _ _ _ => True
  | .left _ _ thr functionName | .right _ _ thr functionName =>
    thr.tid ≠ 0 ∧ '\n' ∉ o.demangle functionName

/-- What holds between two calls. -/
structure Kept (c : Console) : Prop where
  aligned : c.currentPid ≠ 0 → c.Aligned
  closed : c.currentPid = 0 → column c.text = 0

variable {o : Layout} {w : Moment} {type : Tof} {thr : Thread} {functionName : List Char}
  {c c' : Console}

/-! ## One call -/

/-- An unfinished line ends at the first column. -/
theorem column_unfinished (c : Console) :
    column (c.print " <unfinished ...>\n".toList).text = 0 := by
  have hsplit : " <unfinished ...>\n".toList = " <unfinished ...>".toList ++ ['\n'] := by decide
  rw [hsplit]
  change column (c.text ++ (_ ++ ['\n'])) = 0
  rw [← List.append_assoc]
  exact column_newline _

/-- A message keeps the column. -/
theorem Kept.outputLine (h : c.Kept) (thr : Option Thread) (fmt : Option (List Char)) :
    (outputLine o w thr fmt c).Kept := by
  unfold Console.outputLine
  split
  · exact h
  cases fmt with
  | none =>
    refine ⟨fun hopen => absurd rfl hopen, fun _ => ?_⟩
    dsimp only
    split
    · exact column_unfinished c
    next hclosed => exact h.closed (not_not.mp hclosed)
  | some text =>
    refine ⟨fun hopen => absurd (currentPid_beginOfLine ..) hopen, fun _ => ?_⟩
    · change column (_ ++ (text ++ ['\n'])) = 0
      rw [← List.append_assoc]
      exact column_newline _

/-- The begin of an enter line. -/
theorem Kept.aligned_openLeft (h : c.Kept) (hname : '\n' ∉ o.demangle functionName) :
    (openLeft o w type thr functionName c).Aligned := by
  unfold openLeft
  dsimp only
  refine Aligned.count (Aligned.count (aligned_beginOfLine _ _ ?_) (counts_addPrefixSpace ..)) ?_
  · dsimp only
    split
    · exact column_unfinished c
    next hclosed => exact h.closed (not_not.mp hclosed)
  · refine counts_fprintf ?_
    simp [hname]

/-- The begin of a return line, or the line that is open. -/
theorem Kept.aligned_openRight (h : c.Kept) (htid : thr.tid ≠ 0)
    (hname : '\n' ∉ o.demangle functionName) :
    (openRight o w type thr functionName c).Aligned := by
  have hhead : ∀ {c : Console}, column c.text = 0 → Aligned
      (((beginOfLine o w type (some thr) c).count (addPrefixSpace
        (beginOfLine o w type (some thr) c).currentPid thr.callstack.depth false)).count
        (fprintf (o.demangle functionName ++ " resumed> ".toList))) := by
    intro c hc
    refine ((aligned_beginOfLine _ _ hc).count (counts_addPrefixSpace ..)).count
      (counts_fprintf ?_)
    simp [hname]
  by_cases hother : c.currentPid ≠ 0 ∧
      (c.currentPid ≠ thr.tid ∨ c.currentDepth ≠ thr.callstack.depth)
  · -- The line of another call is broken off.
    have hbroken : c.brokenFor thr =
        { c.print " <unfinished ...>\n".toList with currentPid := 0 } := if_pos hother
    rw [openRight_of_ne o w type functionName (by rw [hbroken]; exact htid.symm), hbroken]
    exact hhead (column_unfinished c)
  · have hbroken : c.brokenFor thr = c := if_neg hother
    by_cases hopen : c.currentPid = thr.tid
    · rw [openRight_of_eq o w type functionName (by rw [hbroken]; exact hopen), hbroken]
      exact h.aligned (by rw [hopen]; exact htid)
    · have hclosed : c.currentPid = 0 := by
        by_contra hne
        exact hother ⟨hne, Or.inl hopen⟩
      rw [openRight_of_ne o w type functionName (by rw [hbroken]; exact hopen), hbroken]
      exact hhead (h.closed hclosed)

/-- So does an entered call. -/
theorem Kept.outputLeft (h : c.Kept) (htrace : o.optc = false) (htid : thr.tid ≠ 0)
    (hname : '\n' ∉ o.demangle functionName)
    (hleft : outputLeft o w type thr functionName c = some c') : c'.Kept := by
  obtain ⟨r, hr, rfl⟩ := outputLeft_eq_some htrace hleft
  refine ⟨fun _ => (h.aligned_openLeft hname).count (counts_enterArgs _ _ _ _ hr),
    fun hclosed => ?_⟩
  exact absurd ((currentPid_openLeft o w type thr functionName c).symm.trans hclosed) htid

/-- A return line: its equals sign stands at the column asked for, or behind the text if that
is longer, and a newline ends the line. -/
theorem Kept.outputRight (h : c.Kept) (htrace : o.optc = false) (htid : thr.tid ≠ 0)
    (hname : '\n' ∉ o.demangle functionName)
    (hright : outputRight o w type thr functionName c = some c') :
    c'.Kept ∧ ∃ (args after : List Char) (n : Nat),
      let before := (openRight o w type thr functionName c).text ++ args ++ ") ".toList
      c'.text = before ++ List.replicate n ' ' ++ '=' :: after ∧
        (column (before ++ List.replicate n ' ') : Int) = max (o.opta - 1) (column before) := by
  obtain ⟨r, v, n, hr, hv, htext, hcolumn, _, hpid, _⟩ := outputRight_eq_some htrace hright
  have hopened : (openRight o w type thr functionName c).Aligned :=
    h.aligned_openRight htid hname
  have hparen : (fprintf ") ".toList : Printed Shown).Counts := counts_fprintf (by decide)
  have haligned := (hopened.count (counts_resultArgs _ _ _ _ hr)).count hparen
  refine ⟨⟨fun hopen => absurd hpid hopen, fun _ => ?_⟩, r.1.text, _, n, htext, ?_⟩
  · have hline : c'.text = (openRight o w type thr functionName c).text ++ r.1.text ++
        ") ".toList ++ List.replicate n ' ' ++ '=' :: (' ' :: v.1.text ++ timeSpent o w) ++
        ['\n'] := by
      rw [htext]
      simp
    rw [hline]
    exact column_newline _
  · have hblanks : '\n' ∉ List.replicate n ' ' := fun hmem =>
      absurd (List.eq_of_mem_replicate hmem) (by decide)
    rw [haligned] at hcolumn
    rw [column_append hblanks, List.length_replicate, Nat.cast_add]
    exact hcolumn

/-! ## Every run -/

/-- So does every call. -/
theorem Kept.step {call : Call} (h : c.Kept) (htrace : o.optc = false) (hcall : call.Named o)
    (hstep : step o c call = some c') : c'.Kept := by
  cases call with
  | line w thr fmt =>
    cases hstep
    exact h.outputLine thr fmt
  | left w type thr functionName => exact h.outputLeft htrace hcall.1 hcall.2 hstep
  | right w type thr functionName => exact (h.outputRight htrace hcall.1 hcall.2 hstep).1

/-- In every run of the three functions, for any threads and options but `-c`: the counter of
an open line is the number of characters on it; every display returns the number of characters
it printed; and in every return line the equals sign stands at the column asked for, or right
behind the text if that is longer. -/
theorem columns_counted (htrace : o.optc = false) {calls : List Call}
    (hr : Run (step o) (fun _ call => call.Named o) {} calls c) :
    (c.currentPid ≠ 0 → c.currentColumn = column c.text) ∧
      (∀ (d : Display) (stringMaxlength argNum : Int) (type : ArgType)
        (r : Printed Access × Int), d.displayArg stringMaxlength argNum type = some r →
          r.1.ret = r.1.text.length) ∧
      ∀ (w : Moment) (type : Tof) (thr : Thread) (functionName : List Char) (c' : Console),
        (Call.right w type thr functionName).Named o →
        Console.outputRight o w type thr functionName c = some c' →
        ∃ (args after : List Char) (n : Nat),
          let before := (openRight o w type thr functionName c).text ++ args ++ ") ".toList
          c'.text = before ++ List.replicate n ' ' ++ '=' :: after ∧
            (column (before ++ List.replicate n ' ') : Int) =
              max (o.opta - 1) (column before) := by
  have hkept : c.Kept := hr.invariant ⟨fun hopen => absurd rfl hopen, fun _ => rfl⟩
    fun c call c' h hcall hstep => h.step htrace hcall hstep
  refine ⟨hkept.aligned, fun d stringMaxlength argNum type r hr => ?_,
    fun w type thr functionName c' hcall hright => ?_⟩
  · exact (counts_displayArg d hr).ret_eq
  · exact (hkept.outputRight htrace hcall.1 hcall.2 hright).2

/-- An enter line of thread 7. -/
theorem columns_counted_enter :
    ∃ c, outputLeft (plainLayout [onePlus]) numbered .function { tid := 7 } "f".toList {} =
      some c ∧ c.currentPid = 7 ∧ c.currentColumn = column c.text := by
  obtain ⟨c, hleft⟩ := Option.isSome_iff_exists.mp (show
    (Console.outputLeft (plainLayout [onePlus]) numbered .function { tid := 7 } "f".toList
      {}).isSome from rfl)
  have hpid : (Console.outputLeft (plainLayout [onePlus]) numbered .function { tid := 7 }
      "f".toList {}).map currentPid = some 7 := rfl
  rw [hleft, Option.map_some, Option.some.injEq] at hpid
  have hrun : Run (Console.step (plainLayout [onePlus]))
      (fun _ call => call.Named (plainLayout [onePlus])) {}
      [.left numbered .function { tid := 7 } "f".toList] c :=
    .single ⟨by decide, by decide⟩ hleft
  exact ⟨c, hleft, hpid, (columns_counted rfl hrun).1 (by rw [hpid]; decide)⟩

end Utrace.Console
