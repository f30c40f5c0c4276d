import Mathlib.Data.List.Forall2
import Utrace.Correctness.Alignment

/-!
# The lines of the trace

What the three functions write, cut at its newlines, is a transcript: every call they are told of
stands on one line, an enter and a result share a line only when they are of one thread and depth,
and nothing that is displayed breaks a line. The transcript is kept here as a list of lines and
the enter whose line is still open.
-/

namespace Utrace.Console

/-! ## Transcripts -/

/-- What a line says about a call: its thread, its depth and its function. -/
structure Site where
  tid : Pid
  depth : Nat
  functionName : List Char
  deriving DecidableEq

/-- The place of a call. -/
def Site.of (thr : Thread) (functionName : List Char) : Site :=
  ⟨thr.tid, thr.callstack.depth, functionName⟩

/-- What a call has the trace tell. -/
inductive Event where
  | told (text : List Char)
  | enter (site : Site)
  | result (site : Site)
  deriving DecidableEq

/-- A call of `output_line` without a format tells nothing. -/
def Call.event? : Call → Option Event
  | .line _ _ fmt => fmt.map .told
  | .left _ _ thr functionName => some (.enter (.of thr functionName))
  | .right _ _ thr functionName => some (.result (.of thr functionName))

/-- A finished line. -/
inductive Line where
  /-- A line of `output_line`. -/
  | told (text : List Char)
  /-- A call and its result. -/
  | whole (enter result : Site)
  /-- A call whose line was broken off. -/
  | broken (enter : Site)
  /-- A result on a line of its own. -/
  | resumed (result : Site)
  deriving DecidableEq

/-- What the line tells. -/
def Line.events : Line → List Event
  | .told text => [.told text]
  | .whole enter result => [.enter enter, .result result]
  | .broken enter => [.enter enter]
  | .resumed result => [.result result]

/-- The lines so far, oldest first, and the call whose line is open. -/
structure Transcript where
  lines : List Line := []
  opened : Option Site := none

namespace Transcript

/-- The open line is broken off. -/
def close (t : Transcript) : Transcript :=
  match t.opened with
  | none => t
  | some enter => ⟨t.lines ++ [.broken enter], none⟩

/-- A line added behind a broken one. -/
def add (t : Transcript) (line : Line) : Transcript := ⟨t.close.lines ++ [line], none⟩

/-- A result joins the open line if that is of its own thread and depth. -/
def result (t : Transcript) (site : Site) : Transcript :=
  match t.opened with
  | none => t.add (.resumed site)
  | some enter =>
    if enter.tid = site.tid ∧ enter.depth = site.depth then
      ⟨t.lines ++ [.whole enter site], none⟩
    else t.add (.resumed site)

/-- One more call. -/
def step (t : Transcript) : Call → Transcript
  | .line _ _ none => t.close
  | .line _ _ (some text) => t.add (.told text)
  | .left _ _ thr functionName => ⟨t.close.lines, some (.of thr functionName)⟩
  | .right _ _ thr functionName => t.result (.of thr functionName)

/-- What the lines and the open one tell. -/
def events (t : Transcript) : List Event :=
  t.lines.flatMap Line.events ++ (t.opened.map Event.enter).toList

/-- Every result stands on a line of its own or behind an enter of its thread and depth. -/
def Joined (t : Transcript) : Prop :=
  ∀ enter result, Line.whole enter result ∈ t.lines →
    enter.tid = result.tid ∧ enter.depth = result.depth

end Transcript

/-- The transcript of some calls. -/
def transcript (calls : List Call) : Transcript := calls.foldl Transcript.step {}

/-! ## Nothing is lost, told twice or out of order -/

section

variable (t : Transcript)

/-- Breaking a line off keeps its events. -/
@[simp] theorem events_close : t.close.events = t.events := by
  obtain ⟨lines, opened⟩ := t
  cases opened <;> simp [Transcript.close, Transcript.events, Line.events]

/-- No line is open then. -/
@[simp] theorem opened_close : t.close.opened = none := by
  obtain ⟨lines, opened⟩ := t
  cases opened <;> rfl

/-- All events are in finished lines then. -/
theorem flatMap_lines_close : t.close.lines.flatMap Line.events = t.events := by
  have h := events_close t
  rw [Transcript.events, opened_close] at h
  simpa using h

/-- A finished line adds its events. -/
theorem events_add (line : Line) : (t.add line).events = t.events ++ line.events := by
  simp [Transcript.add, Transcript.events, flatMap_lines_close t]

/-- A call adds its event. -/
theorem events_step (call : Call) : (t.step call).events = t.events ++ call.event?.toList := by
  cases call with
  | line w thr fmt =>
    cases fmt with
    | none => simp [Transcript.step, Call.event?]
    | some text => exact events_add t _
  | left w type thr functionName =>
    simp [Transcript.step, Call.event?, Transcript.events, flatMap_lines_close t]
  | right w type thr functionName =>
    dsimp only [Transcript.step, Transcript.result]
    split
    · exact events_add t _
    next enter hopened =>
      split
      · simp [Transcript.events, hopened, Line.events, Call.event?]
      · exact events_add t _

/-- A transcript holds the events of the calls, in order. -/
theorem events_transcript (calls : List Call) :
    (transcript calls).events = calls.filterMap Call.event? := by
  induction calls using List.reverseRecOn with
  | nil => rfl
  | append_singleton calls call ih =>
    have hlast : [call].filterMap Call.event? = call.event?.toList := by
      cases h : call.event? <;> simp [h]
    rw [transcript, List.foldl_append, List.filterMap_append, ← ih, hlast]
    exact events_step (transcript calls) call

end

/-! ## The text of a line -/

/-- What is written of a call until its line ends or is broken off. -/
def Site.Begins (o : Layout) (enter : Site) (text : List Char) : Prop :=
  ∃ start args, text = start ++ (addPrefixSpace enter.tid enter.depth true).text ++
    o.demangle enter.functionName ++ '(' :: args

/-- What is written of a result. -/
def EndsCall (text : List Char) : Prop :=
  ∃ (args value : List Char) (n : Nat),
    text = args ++ ") ".toList ++ List.replicate n ' ' ++ "= ".toList ++ value

/-- A text of the line, without its newline. -/
def Line.Reads (o : Layout) (line : Line) (text : List Char) : Prop :=
  match line with
  | .told fmt => ∃ start, text = start ++ fmt
  | .whole enter _ => ∃ first rest, text = first ++ rest ∧ enter.Begins o first ∧ EndsCall rest
  | .broken enter => ∃ first, text = first ++ " <unfinished ...>".toList ∧ enter.Begins o first
  | .resumed result => ∃ start rest,
    text = start ++ (addPrefixSpace 0 result.depth false).text ++
      o.demangle result.functionName ++ " resumed> ".toList ++ rest ∧ EndsCall rest

/-- The text is that of the lines, and the last of it is not ended. -/
structure Written (o : Layout) (lines : List Line) (last text : List Char) : Prop where
  noNewline : '\n' ∉ last
  texts : ∃ texts : List (List Char), text = texts.flatMap (· ++ ['\n']) ++ last ∧
    (∀ line ∈ texts, '\n' ∉ line) ∧ List.Forall₂ (Line.Reads o) lines texts

variable {o : Layout} {lines : List Line} {last text : List Char}

/-- A piece without a newline goes to the last line. -/
theorem Written.append (h : Written o lines last text) {piece : List Char} (hp : '\n' ∉ piece) :
    Written o lines (last ++ piece) (text ++ piece) := by
  obtain ⟨texts, htext, hlines, hreads⟩ := h.texts
  refine ⟨?_, texts, ?_, hlines, hreads⟩
  · rw [List.mem_append]
    exact not_or_intro h.noNewline hp
  · rw [htext, List.append_assoc]

/-- A newline finishes the last line. -/
theorem Written.finish (h : Written o lines last text) {line : Line} (hline : line.Reads o last) :
    Written o (lines ++ [line]) [] (text ++ ['\n']) := by
  obtain ⟨texts, htext, hlines, hreads⟩ := h.texts
  refine ⟨List.not_mem_nil, texts ++ [last], ?_, ?_, List.rel_append hreads (.cons hline .nil)⟩
  · rw [htext]
    simp
  · intro line' hline'
    rcases List.mem_append.mp hline' with hmem | hmem
    · exact hlines line' hmem
    · rw [List.mem_singleton.mp hmem]
      exact h.noNewline

/-- Cut at its newlines, the text gives back its lines. -/
theorem Written.splitOn (h : Written o lines last text) :
    ∃ texts, text.splitOn '\n' = texts ++ [last] ∧ List.Forall₂ (Line.Reads o) lines texts := by
  obtain ⟨texts, rfl, hlines, hreads⟩ := h.texts
  refine ⟨texts, ?_, hreads⟩
  have hjoin : texts.flatMap (· ++ ['\n']) ++ last =
      ['\n'].intercalate (texts ++ [last]) := by
    clear h hlines hreads
    induction texts with
    | nil => simp
    | cons line texts ih =>
      rw [List.flatMap_cons, List.append_assoc, ih, List.cons_append,
        List.intercalate_cons_of_ne_nil (by simp)]
  rw [hjoin]
  apply List.splitOn_intercalate
  · intro line hline
    rcases List.mem_append.mp hline with hmem | hmem
    · exact hlines line hmem
    · rw [List.mem_singleton.mp hmem]
      exact h.noNewline
  · simp

/-! ## Pieces without a newline -/

/-- The begin of a line is printed without a newline. -/
theorem text_beginOfLine (o : Layout) (w : Moment) (type : Tof) (thr : Option Thread)
    (c : Console) :
    ∃ piece, '\n' ∉ piece ∧ (beginOfLine o w type thr c).text = c.text ++ piece := by
  have hcount : ∀ {c' : Console} {p : Printed Shown}, p.Counts →
      (∃ piece, '\n' ∉ piece ∧ c'.text = c.text ++ piece) →
        ∃ piece, '\n' ∉ piece ∧ (c'.count p).text = c.text ++ piece := by
    rintro c' p hp ⟨piece, hpiece, htext⟩
    refine ⟨piece ++ p.text, ?_, by rw [text_count, htext, List.append_assoc]⟩
    rw [List.mem_append]
    exact not_or_intro hpiece hp.noNewline
  have hstart : ∃ piece, '\n' ∉ piece ∧
      ({ c with currentColumn := 0 } : Console).text = c.text ++ piece :=
    ⟨[], List.not_mem_nil, (List.append_nil _).symm⟩
  unfold beginOfLine outputIndent
  cases thr with
  | none => exact hstart
  | some thr =>
    dsimp only
    have hrelative : ∀ {c' : Console}, (∃ piece, '\n' ∉ piece ∧ c'.text = c.text ++ piece) →
        ∃ piece, '\n' ∉ piece ∧ (if o.optr = true then
          { c'.count (relativeStamp (relativeTime c'.oldTv w.relative).1) with
            oldTv := (relativeTime c'.oldTv w.relative).2 } else c').text = c.text ++ piece := by
      intro c' hc'
      split
      · exact hcount (counts_relativeStamp _) hc'
      · exact hc'
    have hprefix := hcount (counts_addressPrefix o type thr) (hcount (counts_absoluteStamp o w)
      (hrelative (hcount (counts_tidPrefix o w thr) hstart)))
    split
    · exact hcount (counts_fprintf (notMem_blanks _)) hprefix
    · exact hprefix

/-- The value a call returned counts right. -/
theorem counts_returnValue (d : Display) (func : Option Function) :
    (returnValue d func).Always Printed.Counts := by
  unfold returnValue
  cases func with
  | none => exact counts_showArg d _ _
  | some func =>
    dsimp only
    split
    · exact Printing.always_print (counts_fprintf (by decide))
    · exact counts_showArg d _ _

/-- The time a call took holds no newline. -/
theorem notMem_timeSpent (o : Layout) (w : Moment) : '\n' ∉ timeSpent o w := by
  have hsec := notMem_unsignedInt w.currentTimeSpent.tvSec
  have husec := notMem_zeroPadded 6 w.currentTimeSpent.tvUsec
  unfold timeSpent
  split
  · simp [hsec, husec]
  · exact List.not_mem_nil

/-! ## What was written is the transcript -/

/-- The text tells the transcript, and the static variables know the open line. -/
structure Tells (o : Layout) (c : Console) (t : Transcript) : Prop where
  text : ∃ last, Written o t.lines last c.text ∧
    t.opened.elim (last = []) fun enter => enter.Begins o last
  pid : c.currentPid = t.opened.elim 0 Site.tid
  depth : ∀ enter ∈ t.opened, c.currentDepth = enter.depth ∧ enter.tid ≠ 0
  joined : t.Joined

variable {w : Moment} {type : Tof} {thr : Thread} {functionName : List Char} {c c' : Console}
  {t : Transcript}

/-- An open line is broken off, in the text as in the transcript. -/
theorem Tells.close (h : c.Tells o t) (htext : c'.text = c.brokenOff) (hpid : c'.currentPid = 0) :
    c'.Tells o t.close := by
  obtain ⟨last, hwritten, hlast⟩ := h.text
  have hpid₀ := h.pid
  rw [brokenOff] at htext
  cases hopened : t.opened with
  | none =>
    have hzero : c.currentPid = 0 := by rw [hpid₀, hopened, Option.elim_none]
    rw [hopened] at hlast
    rw [if_neg (not_not.mpr hzero)] at htext
    have hclose : t.close = t := by rw [Transcript.close, hopened]
    rw [hclose]
    exact ⟨⟨last, htext ▸ hwritten, by rw [hopened]; exact hlast⟩, by rw [hopened]; exact hpid,
      by simp [hopened], h.joined⟩
  | some enter =>
    have hne : c.currentPid ≠ 0 := by
      rw [hpid₀, hopened]
      exact (h.depth enter hopened).2
    rw [hopened] at hlast
    rw [if_pos hne] at htext
    have hclose : t.close = ⟨t.lines ++ [.broken enter], none⟩ := by
      rw [Transcript.close, hopened]
    have hbroken : (Line.broken enter).Reads o (last ++ " <unfinished ...>".toList) :=
      ⟨last, rfl, hlast⟩
    have hfinished := (hwritten.append (by decide)).finish hbroken
    rw [hclose]
    refine ⟨⟨[], ?_, rfl⟩, hpid, by simp, fun enter' result hmem => ?_⟩
    · rw [htext]
      rw [List.append_assoc] at hfinished
      exact hfinished
    · exact h.joined enter' result (by simpa using hmem)

/-- A line is added where none is open. -/
theorem Tells.add (h : c.Tells o t) (hopened : t.opened = none) {line : Line} {piece : List Char}
    (hpiece : '\n' ∉ piece) (hreads : line.Reads o piece)
    (hline : ∀ enter result, line ≠ .whole enter result)
    (htext : c'.text = c.text ++ (piece ++ ['\n'])) (hpid : c'.currentPid = 0) :
    c'.Tells o ⟨t.lines ++ [line], none⟩ := by
  obtain ⟨last, hwritten, hlast⟩ := h.text
  rw [hopened] at hlast
  obtain rfl : last = [] := hlast
  refine ⟨⟨[], ?_, rfl⟩, hpid, by simp, fun enter result hmem => ?_⟩
  · rw [htext, ← List.append_assoc]
    exact (hwritten.append hpiece).finish hreads
  · rcases List.mem_append.mp hmem with hmem | hmem
    · exact h.joined enter result hmem
    · exact absurd (List.mem_singleton.mp hmem).symm (hline enter result)

/-- A message is written as the transcript tells. -/
theorem Tells.outputLine (h : c.Tells o t) (htrace : o.optc = false) (w : Moment)
    (thr : Option Thread) {fmt : Option (List Char)} (hfmt : ∀ text ∈ fmt, '\n' ∉ text) :
    (outputLine o w thr fmt c).Tells o (t.step (.line w thr fmt)) := by
  unfold Console.outputLine
  rw [htrace, if_neg Bool.false_ne_true]
  dsimp only
  generalize hclosed : ({ (if c.currentPid ≠ 0 then c.print " <unfinished ...>\n".toList else c)
    with currentPid := 0 } : Console) = mid
  have hmid : mid.Tells o t.close := by
    apply h.close <;> subst hclosed
    · unfold brokenOff
      dsimp only
      split <;> rfl
    · rfl
  cases fmt with
  | none => exact hmid
  | some text =>
    obtain ⟨start, hstart, hbegin⟩ := text_beginOfLine o w .none thr mid
    have hpiece : '\n' ∉ start ++ text := by
      rw [List.mem_append]
      exact not_or_intro hstart (hfmt text rfl)
    have hreads : (Line.told text).Reads o (start ++ text) := ⟨start, rfl⟩
    apply hmid.add (opened_close t) hpiece hreads (by simp)
    · change (beginOfLine o w .none thr mid).text ++ (text ++ ['\n']) = _
      rw [hbegin]
      simp only [List.append_assoc]
    · refine (currentPid_beginOfLine ..).trans (hmid.pid.trans ?_)
      rw [opened_close, Option.elim_none]

/-- The begin of an enter line, on a line of its own. -/
theorem openLeft_closed (o : Layout) (w : Moment) (type : Tof) (thr : Thread)
    (functionName : List Char) (c : Console) :
    ∃ start, '\n' ∉ start ∧ (openLeft o w type thr functionName c).text = c.brokenOff ++
      (start ++ (addPrefixSpace thr.tid thr.callstack.depth true).text ++
        o.demangle functionName ++ ['(']) := by
  unfold openLeft
  dsimp only
  generalize hclosed : ({ (if c.currentPid ≠ 0 then
    { c.print " <unfinished ...>\n".toList with currentPid := 0, currentColumn := 0 }
    else c) with currentPid := thr.tid, currentDepth := thr.callstack.depth } : Console) = closed
  have htext : closed.text = c.brokenOff := by
    subst hclosed
    unfold brokenOff
    dsimp only
    split <;> rfl
  obtain ⟨start, hstart, hbegin⟩ := text_beginOfLine o w type (some thr) closed
  refine ⟨start, hstart, ?_⟩
  rw [text_count, text_count, currentPid_beginOfLine, currentDepth_beginOfLine, hbegin, htext,
    ← hclosed]
  simp only [text_fprintf, List.append_assoc]

/-- An entered call is written as the transcript tells. -/
theorem Tells.outputLeft (h : c.Tells o t) (htrace : o.optc = false) (htid : thr.tid ≠ 0)
    (hname : '\n' ∉ o.demangle functionName)
    (hleft : outputLeft o w type thr functionName c = some c') :
    c'.Tells o (t.step (.left w type thr functionName)) := by
  obtain ⟨r, hr, rfl⟩ := outputLeft_eq_some htrace hleft
  obtain ⟨start, hstart, htext⟩ := openLeft_closed o w type thr functionName c
  have hmid : Tells o { c with text := c.brokenOff, currentPid := 0 } t.close := h.close rfl rfl
  obtain ⟨last, hwritten, hlast⟩ := hmid.text
  rw [opened_close] at hlast
  obtain rfl : last = [] := hlast
  have hcounts := (counts_enterArgs _ _ _ _ hr).noNewline
  have hprefix := (counts_addPrefixSpace thr.tid thr.callstack.depth true).noNewline
  refine ⟨⟨start ++ (addPrefixSpace thr.tid thr.callstack.depth true).text ++
    o.demangle functionName ++ '(' :: r.1.text, ?_, start, r.1.text, rfl⟩, ?_, ?_, hmid.joined⟩
  · have hpiece : '\n' ∉ start ++ (addPrefixSpace thr.tid thr.callstack.depth true).text ++
        o.demangle functionName ++ '(' :: r.1.text := by
      simp [hstart, hprefix, hname, hcounts]
    have hadded := hwritten.append hpiece
    rw [List.nil_append] at hadded
    change Written o t.close.lines _
      ((openLeft o w type thr functionName c).text ++ r.1.text)
    rw [htext]
    simpa only [List.append_assoc, List.singleton_append, List.cons_append, List.nil_append]
      using hadded
  · exact currentPid_openLeft o w type thr functionName c
  · intro enter henter
    cases henter
    exact ⟨currentDepth_openLeft o w type thr functionName c, htid⟩

/-- The line of another call, or of none, is no longer open when a result is written. -/
theorem Tells.brokenFor (h : c.Tells o t)
    (hother : ∀ enter ∈ t.opened, ¬(enter.tid = thr.tid ∧ enter.depth = thr.callstack.depth)) :
    (c.brokenFor thr).Tells o t.close ∧ (c.brokenFor thr).currentPid = 0 := by
  have hpid := h.pid
  cases hopened : t.opened with
  | none =>
    rw [hopened, Option.elim_none] at hpid
    have hbroken : c.brokenFor thr = c := if_neg fun hboth => hboth.1 hpid
    rw [hbroken]
    refine ⟨h.close ?_ hpid, hpid⟩
    rw [brokenOff, if_neg (not_not.mpr hpid)]
  | some enter =>
    rw [hopened, Option.elim_some] at hpid
    obtain ⟨hdepth, htid⟩ := h.depth enter hopened
    have hne : c.currentPid ≠ 0 := by
      rw [hpid]
      exact htid
    have hboth : c.currentPid ≠ thr.tid ∨ c.currentDepth ≠ thr.callstack.depth := by
      by_contra hsame
      rw [not_or, not_not, not_not, hpid, hdepth] at hsame
      exact hother enter hopened hsame
    have hbroken : c.brokenFor thr =
        { c.print " <unfinished ...>\n".toList with currentPid := 0 } := if_pos ⟨hne, hboth⟩
    rw [hbroken]
    refine ⟨h.close ?_ rfl, rfl⟩
    rw [brokenOff, if_pos hne]
    rfl

/-- The begin of a result's own line. -/
theorem openRight_closed (o : Layout) (w : Moment) (type : Tof) {thr : Thread}
    (functionName : List Char) {c : Console} (htid : thr.tid ≠ 0)
    (hpid : (c.brokenFor thr).currentPid = 0) :
    ∃ start, '\n' ∉ start ∧ (openRight o w type thr functionName c).text =
      (c.brokenFor thr).text ++ (start ++ (addPrefixSpace 0 thr.callstack.depth false).text ++
        o.demangle functionName ++ " resumed> ".toList) := by
  have hother : (c.brokenFor thr).currentPid ≠ thr.tid := by
    rw [hpid]
    exact htid.symm
  obtain ⟨start, hstart, hbegin⟩ := text_beginOfLine o w type (some thr) (c.brokenFor thr)
  refine ⟨start, hstart, ?_⟩
  rw [openRight_of_ne o w type functionName hother]
  dsimp only
  rw [text_count, text_count, currentPid_beginOfLine, hpid, hbegin]
  simp only [text_fprintf, List.append_assoc]

/-- What is written behind the begin of a result's line, whichever line it is. -/
theorem text_outputRight (htrace : o.optc = false)
    (hright : outputRight o w type thr functionName c = some c') :
    ∃ rest, EndsCall rest ∧ '\n' ∉ rest ∧ c'.currentPid = 0 ∧
      c'.text = (openRight o w type thr functionName c).text ++ (rest ++ ['\n']) := by
  obtain ⟨r, v, n, hr, hv, htext, -, -, hpid, -⟩ := outputRight_eq_some htrace hright
  refine ⟨r.1.text ++ ") ".toList ++ List.replicate n ' ' ++ "= ".toList ++
    (v.1.text ++ timeSpent o w), ⟨r.1.text, v.1.text ++ timeSpent o w, n, rfl⟩, ?_, hpid, ?_⟩
  · have hargs := (counts_resultArgs _ _ _ _ hr).noNewline
    have hvalue := (counts_returnValue _ _ _ _ hv).noNewline
    have htime := notMem_timeSpent o w
    simp [hargs, hvalue, htime]
  · rw [htext]
    simp

/-- A returned call is written as the transcript tells. -/
theorem Tells.outputRight (h : c.Tells o t) (htrace : o.optc = false) (htid : thr.tid ≠ 0)
    (hname : '\n' ∉ o.demangle functionName)
    (hright : outputRight o w type thr functionName c = some c') :
    c'.Tells o (t.step (.right w type thr functionName)) := by
  obtain ⟨rest, hends, hrest, hpid, htext'⟩ := text_outputRight htrace hright
  by_cases hsame : ∃ enter ∈ t.opened,
      enter.tid = thr.tid ∧ enter.depth = thr.callstack.depth
  · obtain ⟨enter, hopened, hsite⟩ := hsame
    have hcurrent : c.currentPid = enter.tid := by
      rw [h.pid, Option.mem_def.mp hopened, Option.elim_some]
    have hdepth := (h.depth enter hopened).1
    have hbroken : c.brokenFor thr = c := if_neg fun hboth => by
      rcases hboth.2 with hne | hne
      · exact hne (hcurrent.trans hsite.1)
      · exact hne (hdepth.trans hsite.2)
    have hjoins : t.step (.right w type thr functionName) =
        ⟨t.lines ++ [.whole enter (.of thr functionName)], none⟩ := by
      simp only [Transcript.step, Transcript.result, Option.mem_def.mp hopened]
      exact if_pos hsite
    rw [openRight_of_eq o w type functionName (by rw [hbroken, hcurrent, hsite.1]), hbroken]
      at htext'
    obtain ⟨last, hwritten, hlast⟩ := h.text
    rw [Option.mem_def.mp hopened] at hlast
    rw [hjoins]
    refine ⟨⟨[], ?_, rfl⟩, hpid, by simp, fun enter' result hmem => ?_⟩
    · rw [htext', ← List.append_assoc]
      exact (hwritten.append hrest).finish ⟨last, rest, rfl, hlast, hends⟩
    · rcases List.mem_append.mp hmem with hmem | hmem
      · exact h.joined enter' result hmem
      · cases List.mem_singleton.mp hmem
        exact hsite
  · have hother : ∀ enter ∈ t.opened,
        ¬(enter.tid = thr.tid ∧ enter.depth = thr.callstack.depth) :=
      fun enter hopened hsite => hsame ⟨enter, hopened, hsite⟩
    have halone : t.step (.right w type thr functionName) =
        t.add (.resumed (.of thr functionName)) := by
      dsimp only [Transcript.step, Transcript.result]
      split
      · rfl
      next enter hopened => exact if_neg (hother enter hopened)
    obtain ⟨hmid, hclosed⟩ := h.brokenFor hother
    obtain ⟨start, hstart, hbegin⟩ :=
      openRight_closed o w type functionName htid hclosed
    have hprefix := (counts_addPrefixSpace 0 thr.callstack.depth false).noNewline
    rw [halone]
    have hreads : (Line.resumed (.of thr functionName)).Reads o
        (start ++ (addPrefixSpace 0 thr.callstack.depth false).text ++
          o.demangle functionName ++ " resumed> ".toList ++ rest) := ⟨start, rest, rfl, hends⟩
    apply hmid.add (opened_close t) _ hreads (by simp) _ hpid
    · simp [hstart, hprefix, hname, hrest]
    · rw [htext', hbegin]
      simp only [List.append_assoc]

/-! ## Every run -/

/-- The thread has an id, and neither its name nor the text told holds a newline. -/
def Call.Plain (o : Layout) (call : Call) : Prop :=
  call.Named o ∧ ∀ text, call.event? = some (.told text) → '\n' ∉ text

/-- Every call is written as the transcript tells. -/
theorem Tells.step {call : Call} (h : c.Tells o t) (htrace : o.optc = false)
    (hcall : call.Plain o) (hstep : step o c call = some c') : c'.Tells o (t.step call) := by
  cases call with
  | line w thr fmt =>
    cases hstep
    exact h.outputLine htrace w thr fun text htext => hcall.2 text (by simp_all [Call.event?])
  | left w type thr functionName => exact h.outputLeft htrace hcall.1.1 hcall.1.2 hstep
  | right w type thr functionName => exact h.outputRight htrace hcall.1.1 hcall.1.2 hstep

/-- In every run of the three functions but under `-c`, for any threads and whatever they have in
memory: the text, cut at its newlines, is the transcript of the calls line by line. The lines tell
of every call once and in the order of the calls, and a result stands behind an enter only if
that is of its thread and depth. -/
theorem trace_lines (htrace : o.optc = false) {calls : List Call}
    (hr : Run (step o) (fun _ call => call.Plain o) {} calls c) :
    (∃ texts last, c.text.splitOn '\n' = texts ++ [last] ∧
      List.Forall₂ (Line.Reads o) (transcript calls).lines texts ∧
        (transcript calls).opened.elim (last = []) fun enter => enter.Begins o last) ∧
      (transcript calls).events = calls.filterMap Call.event? ∧ (transcript calls).Joined := by
  have htells : c.Tells o (transcript calls) := by
    induction hr with
    | nil =>
      refine ⟨⟨[], ⟨List.not_mem_nil, [], rfl, by simp, .nil⟩, rfl⟩, rfl, ?_, ?_⟩
      · simp [transcript]
      · simp [transcript, Transcript.Joined]
    | snoc _ hcall hstep ih =>
      rw [transcript, List.foldl_append]
      exact ih.step htrace hcall hstep
  obtain ⟨last, hwritten, hlast⟩ := htells.text
  obtain ⟨texts, hsplit, hreads⟩ := hwritten.splitOn
  exact ⟨⟨texts, last, hsplit, hreads, hlast⟩, events_transcript calls, htells.joined⟩

/-- A call of thread 7, broken off by a line of thread 8. -/
theorem trace_lines_broken :
    ∃ c, outputLeft (plainLayout [onePlus]) numbered .function { tid := 7 } "f".toList {} =
      some c ∧ ∃ first second,
        (outputLine (plainLayout [onePlus]) numbered (some { tid := 8 }) (some "+++".toList)
          c).text.splitOn '\n' = [first, second, []] ∧
        (Line.broken ⟨7, 0, "f".toList⟩).Reads (plainLayout [onePlus]) first ∧
        (Line.told "+++".toList).Reads (plainLayout [onePlus]) second := by
  obtain ⟨c, hleft⟩ := Option.isSome_iff_exists.mp (show
    (Console.outputLeft (plainLayout [onePlus]) numbered .function { tid := 7 } "f".toList
      {}).isSome from rfl)
  have hfirst : Run (Console.step (plainLayout [onePlus]))
      (fun _ call => call.Plain (plainLayout [onePlus])) {}
      [.left numbered .function { tid := 7 } "f".toList] c :=
    .single ⟨⟨by decide, by decide⟩, by simp [Call.event?]⟩ hleft
  have hsecond : Run (Console.step (plainLayout [onePlus]))
      (fun _ call => call.Plain (plainLayout [onePlus])) c
      [.line numbered (some { tid := 8 }) (some "+++".toList)]
      (outputLine (plainLayout [onePlus]) numbered (some { tid := 8 }) (some "+++".toList) c) :=
    .single ⟨trivial, fun text htext => by cases htext; decide⟩ rfl
  obtain ⟨⟨texts, last, hsplit, hreads, rfl⟩, -, -⟩ := trace_lines rfl (hfirst.append hsecond)
  obtain ⟨first, rest, hbroken, hrest, rfl⟩ := List.forall₂_cons_left_iff.mp hreads
  obtain ⟨second, rest, htold, hnil, rfl⟩ := List.forall₂_cons_left_iff.mp hrest
  obtain rfl := List.forall₂_nil_left_iff.mp hnil
  exact ⟨c, hleft, first, second, hsplit, hbroken, htold⟩

end Utrace.Console
