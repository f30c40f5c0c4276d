import Mathlib.Data.List.Forall2
import Utrace.Interpretation.Written
import Utrace.Native.Output

/-!
# The text of the records

The trace kept as records is what the characters spell: every call writes the text of the
records it adds and no other, and both models agree on the line that is open.
-/

namespace Utrace

/-- A text of a record. What the record leaves out is any text at all. -/
def Record.Spells (l : Layout) (piece : List Char) : Record → Prop
  | .unfinished => piece = " <unfinished ...>\n".toList
  | .line _ _ => ∃ start text, piece = start ++ text ++ ['\n']
  | .left _ shown depth name => ∃ start args,
      piece = start ++ (Console.addPrefixSpace shown depth true).text ++
        l.demangle name.toList ++ '(' :: args
  | .right _ none _ _ => ∃ args rest, piece = args ++ ") ".toList ++ rest ++ ['\n']
  | .right _ (some shown) depth name => ∃ start args rest,
      piece = start ++ (Console.addPrefixSpace shown depth false).text ++
        l.demangle name.toList ++ " resumed> ".toList ++ args ++ ") ".toList ++ rest ++ ['\n']

namespace Console

/-- The characters written spell the records, and the same line is open. -/
structure Traces (l : Layout) (c : Console) (o : Output) : Prop where
  pid : c.currentPid = o.currentPid
  depth : c.currentDepth = o.currentDepth
  spelled : ∃ pieces : List (List Char), c.text = pieces.flatten ∧
    List.Forall₂ (fun r piece => Record.Spells l piece r) o.records.reverse pieces

variable {l : Layout} {env : Env} {c c' : Console} {o o' : Output}

/-- One more record. -/
theorem Traces.write (h : c.Traces l o) {r : Record} {piece : List Char} (hr : r.Spells l piece)
    (htext : c'.text = c.text ++ piece) (hrecords : o'.records = r :: o.records)
    (hpid : c'.currentPid = o'.currentPid) (hdepth : c'.currentDepth = o'.currentDepth) :
    c'.Traces l o' := by
  obtain ⟨pieces, hpieces, hspelled⟩ := h.spelled
  refine ⟨hpid, hdepth, pieces ++ [piece], ?_, ?_⟩
  · rw [htext, hpieces, List.flatten_concat]
  · rw [hrecords, List.reverse_cons]
    exact List.rel_append hspelled (.cons hr .nil)

/-- An open line is broken off, in the text as in the records. -/
theorem Traces.close (h : c.Traces l o)
    (htext : c'.text = c.brokenOff) (hpid : c'.currentPid = 0)
    (hdepth : c'.currentDepth = c.currentDepth) : c'.Traces l o.close := by
  unfold Output.close
  unfold brokenOff at htext
  rw [h.pid] at htext
  split
  next hopen =>
    rw [if_pos hopen] at htext
    exact h.write (r := .unfinished) rfl htext rfl hpid (hdepth.trans h.depth)
  next hclosed =>
    rw [if_neg hclosed] at htext
    exact ⟨hpid.trans (not_not.mp hclosed).symm, hdepth.trans h.depth, by
      rw [htext]
      exact h.spelled⟩

/-! ## The three calls -/

/-- `output_line` writes the text of the record's line. -/
theorem Traces.outputLine (h : c.Traces l o) (hc : l.optc = env.optc) (w : Moment) (thr : Thread)
    (text : List Char) (diag : Diag) :
    (Console.outputLine l w (some thr) (some text) c).Traces l
      (Utrace.outputLine env o thr diag) := by
  unfold Console.outputLine Utrace.outputLine
  rw [hc]
  split
  · exact h
  dsimp only
  generalize hclosed : ({ (if c.currentPid ≠ 0 then c.print " <unfinished ...>\n".toList else c)
    with currentPid := 0 } : Console) = mid
  have hmid : mid.Traces l o.close := by
    refine h.close ?_ ?_ ?_ <;> subst hclosed
    · unfold brokenOff
      dsimp only
      split <;> rfl
    · rfl
    · dsimp only
      split <;> rfl
  obtain ⟨start, hstart⟩ := (appended_beginOfLine l w .none (some thr) mid).text
  have hspells : (Record.line thr.tid diag).Spells l (start ++ text ++ ['\n']) :=
    ⟨start, text, rfl⟩
  refine hmid.write hspells ?_ rfl ?_ ?_
  · change (beginOfLine l w .none (some thr) mid).text ++ (text ++ ['\n']) = _
    rw [hstart]
    simp only [List.append_assoc]
  · exact (currentPid_beginOfLine ..).trans hmid.pid
  · exact (currentDepth_beginOfLine ..).trans hmid.depth

/-- `output_left` writes the text of the record's open line. -/
theorem Traces.outputLeft (h : c.Traces l o) (hc : l.optc = env.optc) {w : Moment} {type : Tof}
    {thr : Thread} {functionName : String}
    (hleft : Console.outputLeft l w type thr functionName.toList c = some c') :
    c'.Traces l (Utrace.outputLeft env o thr functionName) := by
  unfold Utrace.outputLeft
  cases htrace : env.optc with
  | true =>
    rw [Console.outputLeft, if_pos (hc.trans htrace)] at hleft
    cases hleft
    exact h
  | false =>
    obtain ⟨r, _, rfl⟩ := outputLeft_eq_some (hc.trans htrace) hleft
    obtain ⟨start, hstart⟩ := text_openLeft l w type thr functionName.toList c
    have hmid : Traces l { c with text := c.brokenOff, currentPid := 0 } o.close :=
      h.close rfl rfl rfl
    refine hmid.write (r := .left thr.tid thr.tid thr.callstack.depth functionName)
      ⟨start, r.1.text, rfl⟩ ?_ rfl ?_ ?_
    · change (openLeft l w type thr functionName.toList c).text ++ r.1.text = _
      rw [hstart]
      simp only [List.append_assoc, List.singleton_append]
    · exact currentPid_openLeft l w type thr functionName.toList c
    · exact currentDepth_openLeft l w type thr functionName.toList c

/-- The line of another call is broken off in both models. -/
theorem Traces.brokenFor (h : c.Traces l o) (thr : Thread) : (c.brokenFor thr).Traces l
    (if o.currentPid ≠ thr.tid ∨ o.currentDepth ≠ thr.callstack.depth then o.close else o) := by
  unfold Console.brokenFor
  rw [h.pid, h.depth]
  by_cases hother : o.currentPid ≠ thr.tid ∨ o.currentDepth ≠ thr.callstack.depth
  · rw [if_pos hother]
    by_cases hopen : o.currentPid ≠ 0
    · rw [if_pos ⟨hopen, hother⟩]
      refine h.close ?_ rfl rfl
      unfold brokenOff
      rw [h.pid, if_pos hopen]
      rfl
    · rw [if_neg fun hboth => hopen hboth.1, Output.close, if_neg hopen]
      exact h
  · rw [if_neg hother, if_neg fun hboth => hother hboth.2]
    exact h

/-- `output_right` writes the text of the record's return. -/
theorem Traces.outputRight (h : c.Traces l o) (hc : l.optc = env.optc) {w : Moment} {type : Tof}
    {thr : Thread} {functionName : String}
    (hright : Console.outputRight l w type thr functionName.toList c = some c') :
    c'.Traces l (Utrace.outputRight env o thr functionName) := by
  unfold Utrace.outputRight
  cases htrace : env.optc with
  | true =>
    rw [Console.outputRight, if_pos (hc.trans htrace)] at hright
    cases hright
    exact h
  | false =>
    obtain ⟨r, v, n, _, _, htext, _, _, hpid, hdepth⟩ :=
      outputRight_eq_some (hc.trans htrace) hright
    have hbroken := h.brokenFor thr
    dsimp only
    rw [if_neg Bool.false_ne_true]
    generalize (if o.currentPid ≠ thr.tid ∨ o.currentDepth ≠ thr.callstack.depth then o.close
      else o) = mid at hbroken ⊢
    have hdepth' : c'.currentDepth = mid.currentDepth :=
      (hdepth.trans (currentDepth_brokenFor thr c).symm).trans hbroken.depth
    by_cases hopen : mid.currentPid = thr.tid
    · rw [openRight_of_eq l w type functionName.toList (hbroken.pid.trans hopen)] at htext
      rw [if_neg (not_not.mpr hopen)]
      refine hbroken.write (r := .right thr.tid none thr.callstack.depth functionName)
        ⟨r.1.text, List.replicate n ' ' ++ '=' :: (' ' :: v.1.text ++ timeSpent l w), rfl⟩
        ?_ rfl hpid hdepth'
      rw [htext]
      simp
    · have hother : (c.brokenFor thr).currentPid ≠ thr.tid := fun heq =>
        hopen (hbroken.pid.symm.trans heq)
      obtain ⟨start, hstart⟩ :=
        (appended_beginOfLine l w type (some thr) (c.brokenFor thr)).text
      rw [openRight_of_ne l w type functionName.toList hother] at htext
      dsimp only at htext
      rw [text_count, text_count, hstart, currentPid_beginOfLine, hbroken.pid] at htext
      rw [if_pos hopen]
      refine hbroken.write
        (r := .right thr.tid (some mid.currentPid) thr.callstack.depth functionName)
        ⟨start, r.1.text, List.replicate n ' ' ++ '=' :: (' ' :: v.1.text ++ timeSpent l w), rfl⟩
        ?_ rfl hpid hdepth'
      rw [htext]
      simp

/-! ## Runs -/

/-- A run of both models, call for call. -/
inductive Together (l : Layout) (env : Env) : Console → Output → Prop
  | start : Together l env {} {}
  | line {c : Console} {o : Output} (h : Together l env c o) (w : Moment) (thr : Thread)
      (text : List Char) (diag : Diag) :
      Together l env (Console.outputLine l w (some thr) (some text) c)
        (Utrace.outputLine env o thr diag)
  | left {c c' : Console} {o : Output} (h : Together l env c o) {w : Moment} {type : Tof}
      {thr : Thread} {functionName : String}
      (hleft : Console.outputLeft l w type thr functionName.toList c = some c') :
      Together l env c' (Utrace.outputLeft env o thr functionName)
  | right {c c' : Console} {o : Output} (h : Together l env c o) {w : Moment} {type : Tof}
      {thr : Thread} {functionName : String}
      (hright : Console.outputRight l w type thr functionName.toList c = some c') :
      Together l env c' (Utrace.outputRight env o thr functionName)

/-- In every run the characters spell the records. -/
theorem Together.traces (hc : l.optc = env.optc) (h : Together l env c o) : c.Traces l o := by
  induction h with
  | start => exact ⟨rfl, rfl, [], rfl, .nil⟩
  | line _ w thr text diag ih => exact ih.outputLine hc w thr text diag
  | left _ hleft ih => exact ih.outputLeft hc hleft
  | right _ hright ih => exact ih.outputRight hc hright

end Console

end Utrace
