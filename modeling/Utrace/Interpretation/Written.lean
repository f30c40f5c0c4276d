import Utrace.Native.Console

/-!
# What a line is made of

Which pieces the three functions put on a line, in order, and which of the static variables
they leave behind.
-/

namespace Utrace.Console

variable (o : Layout) (w : Moment)

/-! ## The begin of a line -/

/-- Printing shows no argument. -/
@[simp] theorem shown_print (c : Console) (text : List Char) : (c.print text).shown = c.shown := rfl

/-- A counted call shows what it shows. -/
@[simp] theorem shown_count (c : Console) (p : Printed Shown) :
    (c.count p).shown = c.shown ++ p.events := rfl

/-- A counted call appends its text. -/
@[simp] theorem text_count (c : Console) (p : Printed Shown) :
    (c.count p).text = c.text ++ p.text := rfl

/-- The thread id shows no argument. -/
@[simp] theorem events_tidPrefix (thr : Thread) : (tidPrefix o w thr).events = [] := by
  unfold tidPrefix
  split_ifs <;> rfl

/-- Nor does the relative time. -/
@[simp] theorem events_relativeStamp (diff : Timeval) : (relativeStamp diff).events = [] := rfl

/-- Nor does the absolute time. -/
@[simp] theorem events_absoluteStamp : (absoluteStamp o w).events = [] := by
  unfold absoluteStamp
  split_ifs <;> rfl

/-- Nor does the address. -/
@[simp] theorem events_addressPrefix (type : Tof) (thr : Thread) :
    (addressPrefix o type thr).events = [] := by
  unfold addressPrefix
  split_ifs <;> rfl

/-- Nor does the depth. -/
@[simp] theorem events_addPrefixSpace (currentPid : Pid) (depth : Nat) (isLeft : Bool) :
    (addPrefixSpace currentPid depth isLeft).events = [] := rfl

/-- Text was appended, and besides it only the column and `old_tv` may have changed. -/
structure Appended (c c' : Console) : Prop where
  text : ∃ piece, c'.text = c.text ++ piece
  pid : c'.currentPid = c.currentPid
  depth : c'.currentDepth = c.currentDepth
  shown : c'.shown = c.shown
  maxlength : c'.stringMaxlength = c.stringMaxlength

/-- A counted call without arguments is appended. -/
theorem Appended.count {c c' : Console} (h : c.Appended c') {p : Printed Shown}
    (hp : p.events = []) : c.Appended (c'.count p) where
  text := by
    obtain ⟨piece, hpiece⟩ := h.text
    exact ⟨piece ++ p.text, by rw [text_count, hpiece, List.append_assoc]⟩
  pid := h.pid
  depth := h.depth
  shown := by rw [shown_count, hp, List.append_nil, h.shown]
  maxlength := h.maxlength

/-- Whatever the options, the begin of a line is appended. -/
theorem appended_beginOfLine (type : Tof) (thr : Option Thread) (c : Console) :
    c.Appended (beginOfLine o w type thr c) := by
  have hstart : c.Appended { c with currentColumn := 0 } :=
    ⟨⟨[], (List.append_nil _).symm⟩, rfl, rfl, rfl, rfl⟩
  unfold beginOfLine outputIndent
  cases thr with
  | none => exact hstart
  | some thr =>
    have hrelative : ∀ {c' : Console}, c.Appended c' → c.Appended (if o.optr = true then
        { c'.count (relativeStamp (relativeTime c'.oldTv w.relative).1) with
          oldTv := (relativeTime c'.oldTv w.relative).2 } else c') := by
      intro c' hc'
      split
      · obtain ⟨htext, hpid, hdepth, hshown, hmax⟩ := hc'.count (events_relativeStamp _)
        exact ⟨htext, hpid, hdepth, hshown, hmax⟩
      · exact hc'
    have hprefix := ((hrelative (hstart.count (events_tidPrefix o w thr))).count
      (events_absoluteStamp o w)).count (events_addressPrefix o type thr)
    dsimp only
    split
    · exact hprefix.count rfl
    · exact hprefix

/-- The begin of a line shows no argument. -/
@[simp] theorem shown_beginOfLine (type : Tof) (thr : Option Thread) (c : Console) :
    (beginOfLine o w type thr c).shown = c.shown := (appended_beginOfLine o w type thr c).shown

/-- It leaves `current_pid` as it is. -/
@[simp] theorem currentPid_beginOfLine (type : Tof) (thr : Option Thread) (c : Console) :
    (beginOfLine o w type thr c).currentPid = c.currentPid :=
  (appended_beginOfLine o w type thr c).pid

/-- It leaves `current_depth` as it is. -/
@[simp] theorem currentDepth_beginOfLine (type : Tof) (thr : Option Thread) (c : Console) :
    (beginOfLine o w type thr c).currentDepth = c.currentDepth :=
  (appended_beginOfLine o w type thr c).depth

/-- An enter line is that of its thread. -/
theorem currentPid_openLeft (type : Tof) (thr : Thread) (functionName : List Char)
    (c : Console) : (openLeft o w type thr functionName c).currentPid = thr.tid := by
  unfold openLeft
  exact currentPid_beginOfLine o w type (some thr) _

/-- An enter line is at the depth of its thread. -/
theorem currentDepth_openLeft (type : Tof) (thr : Thread) (functionName : List Char)
    (c : Console) :
    (openLeft o w type thr functionName c).currentDepth = thr.callstack.depth := by
  unfold openLeft
  exact currentDepth_beginOfLine o w type (some thr) _

/-- The line that was open, broken off. -/
def brokenOff (c : Console) : List Char :=
  if c.currentPid ≠ 0 then c.text ++ " <unfinished ...>\n".toList else c.text

/-- An enter line breaks the open one off, and begins with the depth and the name. -/
theorem text_openLeft (type : Tof) (thr : Thread) (functionName : List Char) (c : Console) :
    ∃ start, (openLeft o w type thr functionName c).text = c.brokenOff ++
      (start ++ (addPrefixSpace thr.tid thr.callstack.depth true).text ++
        o.demangle functionName ++ ['(']) := by
  unfold openLeft
  dsimp only
  generalize hclosed : ({ (if c.currentPid ≠ 0 then
    { c.print " <unfinished ...>\n".toList with currentPid := 0, currentColumn := 0 }
    else c) with currentPid := thr.tid, currentDepth := thr.callstack.depth } : Console) = closed
  have htext : closed.text = c.brokenOff := by
    subst hclosed
    unfold brokenOff
    dsimp only
    split <;> rfl
  have hpid : (beginOfLine o w type (some thr) closed).currentPid = thr.tid := by
    rw [currentPid_beginOfLine, ← hclosed]
  have hdepth : (beginOfLine o w type (some thr) closed).currentDepth = thr.callstack.depth := by
    rw [currentDepth_beginOfLine, ← hclosed]
  obtain ⟨start, hstart⟩ := (appended_beginOfLine o w type (some thr) closed).text
  refine ⟨start, ?_⟩
  rw [text_count, text_count, hpid, hdepth, hstart, htext]
  simp only [text_fprintf, List.append_assoc]

/-- The state in which a return line finds the trace, another call's line broken off. -/
def brokenFor (thr : Thread) (c : Console) : Console :=
  if c.currentPid ≠ 0 ∧ (c.currentPid ≠ thr.tid ∨ c.currentDepth ≠ thr.callstack.depth) then
    { c.print " <unfinished ...>\n".toList with currentPid := 0 }
  else c

/-- A return line goes on where its call is open. -/
theorem openRight_of_eq (type : Tof) {thr : Thread} (functionName : List Char) {c : Console}
    (h : (c.brokenFor thr).currentPid = thr.tid) :
    openRight o w type thr functionName c = c.brokenFor thr := if_neg (not_not.mpr h)

/-- Elsewhere it begins anew, with the depth and the name. -/
theorem openRight_of_ne (type : Tof) {thr : Thread} (functionName : List Char) {c : Console}
    (h : (c.brokenFor thr).currentPid ≠ thr.tid) :
    openRight o w type thr functionName c =
      let begun := beginOfLine o w type (some thr) (c.brokenFor thr)
      (begun.count (addPrefixSpace begun.currentPid thr.callstack.depth false)).count
        (fprintf (o.demangle functionName ++ " resumed> ".toList)) := if_pos h

/-- Breaking a line off keeps `current_depth`. -/
theorem currentDepth_brokenFor (thr : Thread) (c : Console) :
    (c.brokenFor thr).currentDepth = c.currentDepth := by
  unfold brokenFor
  split <;> rfl

/-- So does the begin of a return line. -/
theorem currentDepth_openRight (type : Tof) (thr : Thread) (functionName : List Char)
    (c : Console) : (openRight o w type thr functionName c).currentDepth = c.currentDepth := by
  by_cases h : (c.brokenFor thr).currentPid = thr.tid
  · rw [openRight_of_eq o w type functionName h, currentDepth_brokenFor]
  · rw [openRight_of_ne o w type functionName h]
    exact (currentDepth_beginOfLine ..).trans (currentDepth_brokenFor thr c)

/-- The begin of an enter line shows no argument. -/
@[simp] theorem shown_openLeft (type : Tof) (thr : Thread) (functionName : List Char)
    (c : Console) : (openLeft o w type thr functionName c).shown = c.shown := by
  unfold openLeft
  dsimp only
  split <;> simp

/-- Nor does that of a return line. -/
@[simp] theorem shown_openRight (type : Tof) (thr : Thread) (functionName : List Char)
    (c : Console) : (openRight o w type thr functionName c).shown = c.shown := by
  unfold openRight
  dsimp only
  split_ifs <;> simp

/-- Before the arguments of a return line, `string_maxlength` is what it was. -/
theorem stringMaxlength_openRight (type : Tof) (thr : Thread) (functionName : List Char)
    (c : Console) :
    (openRight o w type thr functionName c).stringMaxlength = c.stringMaxlength := by
  have hbroken : (c.brokenFor thr).stringMaxlength = c.stringMaxlength := by
    unfold brokenFor
    split <;> rfl
  by_cases h : (c.brokenFor thr).currentPid = thr.tid
  · rw [openRight_of_eq o w type functionName h, hbroken]
  · rw [openRight_of_ne o w type functionName h]
    exact (appended_beginOfLine o w type (some thr) _).maxlength.trans hbroken

/-! ## Calls with arguments -/

variable {o w}

/-- What `tabto` prints. -/
theorem tabto_eq (col : Int) (c : Console) :
    ∃ n : Nat, tabto col c = c.print (List.replicate n ' ') ∧
      c.currentColumn + n = max col c.currentColumn := by
  unfold tabto
  split
  · refine ⟨(col - c.currentColumn).natAbs, rfl, ?_⟩
    omega
  · refine ⟨0, ?_, ?_⟩
    · rw [List.replicate_zero, print, List.append_nil]
    · omega

/-- An enter line. -/
theorem outputLeft_eq_some {type : Tof} {thr : Thread} {functionName : List Char}
    {c c' : Console} (htrace : o.optc = false)
    (h : outputLeft o w type thr functionName c = some c') :
    ∃ r, enterArgs (w.display o) (name2func o.demangle o.listOfFunctions functionName)
        (openLeft o w type thr functionName c).stringMaxlength = some r ∧
      c' = { (openLeft o w type thr functionName c).count r.1 with stringMaxlength := r.2 } := by
  unfold outputLeft at h
  rw [if_neg (ne_true_of_eq_false htrace)] at h
  obtain ⟨r, hr, rfl⟩ := Option.map_eq_some_iff.mp h
  exact ⟨r, hr, rfl⟩

/-- A return line: arguments, blanks up to the column asked for, and the value. -/
theorem outputRight_eq_some {type : Tof} {thr : Thread} {functionName : List Char}
    {c c' : Console} (htrace : o.optc = false)
    (h : outputRight o w type thr functionName c = some c') :
    ∃ (r v : Printed Shown × Int) (n : Nat),
      let func := name2func o.demangle o.listOfFunctions functionName
      let opened := openRight o w type thr functionName c
      resultArgs (w.display o) func opened.stringMaxlength = some r ∧
      returnValue (w.display o) func r.2 = some v ∧
      c'.text = opened.text ++ r.1.text ++ ") ".toList ++ List.replicate n ' ' ++
        '=' :: (' ' :: v.1.text ++ timeSpent o w ++ ['\n']) ∧
      ((opened.count r.1).count (fprintf ") ".toList)).currentColumn + n =
        max (o.opta - 1) ((opened.count r.1).count (fprintf ") ".toList)).currentColumn ∧
      c'.shown = c.shown ++ r.1.events ++ v.1.events ∧ c'.currentPid = 0 ∧
      c'.currentDepth = c.currentDepth := by
  unfold outputRight closeRight at h
  rw [if_neg (ne_true_of_eq_false htrace)] at h
  obtain ⟨mid, hmid, hclose⟩ := Option.bind_eq_some_iff.mp h
  obtain ⟨r, hr, rfl⟩ := Option.map_eq_some_iff.mp hmid
  obtain ⟨last, hlast, rfl⟩ := Option.map_eq_some_iff.mp hclose
  obtain ⟨v, hv, rfl⟩ := Option.map_eq_some_iff.mp hlast
  obtain ⟨n, htab, hcolumn⟩ := tabto_eq (o.opta - 1)
    (count { (openRight o w type thr functionName c).count r.1 with stringMaxlength := r.2 }
      (fprintf ") ".toList))
  rw [htab] at hv
  refine ⟨r, v, n, hr, hv, ?_, hcolumn, ?_, rfl, ?_⟩
  · rw [htab]
    simp [print]
  · rw [htab]
    simp
  · have hdepth := currentDepth_openRight o w type thr functionName c
    generalize openRight o w type thr functionName c = opened at hdepth htab ⊢
    rw [htab]
    exact hdepth

/-! ## A sample -/

/-- The options a session starts with, for some declarations. -/
def plainLayout (listOfFunctions : List Function) : Layout where
  opta := 50
  optc := false
  demangle := id
  optf := false
  opti := false
  optn := 0
  optp := false
  optr := false
  opts := 32
  optt := 0
  optT := false
  toStderr := true
  listOfFunctions := listOfFunctions

/-- A moment at which every argument is its number plus one. -/
def numbered : Moment where
  arg argNum := BitVec.ofInt 32 (argNum + 1)
  mem _ := 0
  heap _ := ⟨fun _ _ => 0, id, fun _ => Nat.le_refl _⟩
  several := false
  relative := ⟨0, 0⟩
  absolute := ⟨0, 0⟩
  localtime := (0, 0, 0)
  currentTimeSpent := ⟨0, 0⟩

/-- `int f(int,+int);`. -/
def onePlus : Function := ⟨"f".toList, .int, [.int, .int], 1, by decide, by decide⟩

end Utrace.Console
