import Utrace.Correctness.Strings
import Utrace.Interpretation.Written

/-!
# Counted columns

Every display counts the characters it prints and prints no newline; so does every piece of a
line. A line whose counter was right stays so when a counted piece is appended.
-/

namespace Utrace

open Printed

/-! ## The display of an argument -/

section Display

variable (d : Display)

/-- The characters of a format are counted. -/
theorem counts_showFormat (str1 : Nat → Byte) (size : Nat) (bound : Int) (turns : Nat)
    (len : Int) (i : Nat) : (Display.showFormat str1 size bound turns len i).1.Counts := by
  induction turns generalizing len i with
  | zero => exact .nothing
  | succ turns ih =>
    unfold Display.showFormat
    dsimp only
    split_ifs
    · exact ((Counts.event _).append (counts_displayChar _)).append (ih _ (i + 1))
    · exact .event _
    · exact .nothing

/-- A conversion of a format is counted. -/
theorem counts_displayAsked (stringMaxlength argNum : Int) (c : Byte) :
    (d.displayAsked stringMaxlength argNum c).Counts := by
  have hnumber : ∀ {text : List Char} (value : List Char), '\n' ∉ text → '\n' ∉ value →
      (event (.argument argNum) ++ fprintf (text ++ value) : Printed Access).Counts := by
    intro text value htext hvalue
    refine (Counts.event _).append (counts_fprintf ?_)
    rw [List.mem_append]
    exact not_or_intro htext hvalue
  unfold Display.displayAsked
  dsimp only
  split_ifs
  · exact hnumber _ (by decide) (notMem_signed _)
  · exact hnumber _ (by decide) (notMem_unsigned _)
  · exact hnumber _ (by decide) (notMem_octal _)
  · exact hnumber _ (by decide) (notMem_altHex _)
  · exact ((counts_fprintf (by decide)).append ((Counts.event _).append
      (counts_displayChar _))).append (counts_fprintf (by decide))
  · exact (counts_fprintf (by decide)).append (counts_displayString d _ _)
  · exact hnumber _ (by decide) (notMem_signed _)

/-- Over the bytes of the heap that are left. -/
theorem counts_scanFormat (stringMaxlength : Int) (size left : Nat) {inside : Bool} {i : Nat}
    {argNum : Int} {str1 : Nat → Byte} {p : Printed Access}
    (h : d.scanFormat stringMaxlength size left inside i argNum str1 = some p) : p.Counts := by
  induction left generalizing inside i argNum str1 p with
  | zero => cases h
  | succ left ih =>
    cases inside with
    | false =>
      rw [Display.scanFormat] at h
      split_ifs at h
      · cases h
        exact .event _
      · obtain ⟨rest, hrest, rfl⟩ := Option.map_eq_some_iff.mp h
        exact (Counts.event _).append (ih hrest)
    | true =>
      rw [Display.scanFormat] at h
      split_ifs at h
      all_goals obtain ⟨rest, hrest, rfl⟩ := Option.map_eq_some_iff.mp h
      · exact (Counts.event _).append (ih hrest)
      · exact ((Counts.event _).append (counts_displayAsked d _ _ _)).append (ih hrest)
      · exact (((Counts.event _).append (counts_fprintf (by decide))).append
          (Counts.event _)).append (ih hrest)
      · exact ((Counts.event _).append (counts_displayAsked d _ _ _)).append (ih hrest)
      · exact (Counts.event _).append (ih hrest)

/-- A format with its arguments is counted. -/
theorem counts_displayFormat {stringMaxlength argNum : Int} {p : Printed Access}
    (h : d.displayFormat stringMaxlength argNum = some p) : p.Counts := by
  unfold Display.displayFormat at h
  dsimp only at h
  split_ifs at h
  · cases h
    exact (Counts.event _).append (counts_fprintf (by decide))
  · obtain ⟨rest, hrest, rfl⟩ := Option.map_eq_some_iff.mp h
    exact ((((((Counts.event _).append (counts_stores _ _)).append
      (counts_fprintf (by decide))).append (counts_showFormat _ _ _ _ _ _)).append
      (counts_fprintf (by decide))).append (counts_showCut ..)).append
      (counts_scanFormat d _ _ _ hrest)
  · cases h
    exact (Counts.event _).append (counts_fprintf (by decide))

/-- An argument of unknown type is counted. -/
theorem counts_displayUnknown (argNum : Int) : (d.displayUnknown argNum).Counts := by
  unfold Display.displayUnknown
  exact (Counts.event _).append (.ite (counts_fprintf (notMem_signed _))
    (counts_fprintf (notMem_pointer _)))

/-- A string with its length in another argument is counted. -/
theorem counts_displayStringN (arg2 argNum : Int) : (d.displayStringN arg2 argNum).1.Counts :=
  (Counts.event _).append (counts_displayString d _ _)

/-- `display_arg` returns the number of characters it printed, for every type and value. -/
theorem counts_displayArg {stringMaxlength argNum : Int} {type : ArgType}
    {r : Printed Access × Int} (h : d.displayArg stringMaxlength argNum type = some r) :
    r.1.Counts := by
  have hfetched : ∀ {p : Printed Access}, p.Counts →
      (Display.displayArg.fetched stringMaxlength argNum p).1.Counts :=
    fun hp => (Counts.event _).append hp
  cases type with
  | void =>
    cases h
    exact .nothing
  | int =>
    cases h
    exact hfetched (counts_fprintf (notMem_signed _))
  | uint =>
    cases h
    exact hfetched (counts_fprintf (notMem_unsigned _))
  | octal =>
    cases h
    exact hfetched (counts_fprintf
      (List.not_mem_cons_of_ne_of_not_mem (by decide) (notMem_octal _)))
  | char =>
    cases h
    exact ((counts_fprintf (by decide)).append ((Counts.event _).append
      (counts_displayChar _))).append (counts_fprintf (by decide))
  | addr =>
    cases h
    exact hfetched (.ite (counts_fprintf (by decide)) (counts_fprintf (notMem_pointer _)))
  | format =>
    obtain ⟨p, hp, rfl⟩ := Option.map_eq_some_iff.mp h
    exact counts_displayFormat d hp
  | string =>
    cases h
    exact counts_displayString d _ _
  | string0 =>
    cases h
    exact counts_displayStringN d _ _
  | string1 =>
    cases h
    exact counts_displayStringN d _ _
  | string2 =>
    cases h
    exact counts_displayStringN d _ _
  | string3 =>
    cases h
    exact counts_displayStringN d _ _
  | unknown =>
    cases h
    exact counts_displayUnknown d _
  | file =>
    cases h
    exact counts_displayUnknown d _

end Display

namespace Console

/-! ## Lists of arguments -/

section Arguments

variable (d : Display)

/-- The display of an argument is counted. -/
theorem counts_showArg (argNum : Int) (type : ArgType) : (showArg d argNum type).Always Counts := by
  intro m r hr
  obtain ⟨shown, hshown, rfl⟩ := Option.map_eq_some_iff.mp hr
  have hcounts := counts_displayArg d hshown
  exact ⟨hcounts.ret_eq, hcounts.noNewline⟩

/-- So is that of a declared argument. -/
theorem counts_showDeclared (func : Function) (i : Nat) :
    (showDeclared d func i).Always Counts :=
  (Printing.always_print (.event _)).andThen (counts_showArg d i _) fun _ _ => .append

/-- A separator is counted. -/
theorem counts_separator : separator.Counts := counts_fprintf (by decide)

/-- A list of arguments is counted. -/
theorem counts_showList (func : Function) (turns i : Nat) :
    (showList d func turns i).Always Counts := by
  induction turns generalizing i with
  | zero => exact Printing.always_print .nothing
  | succ turns ih =>
    exact ((counts_showDeclared d func i).andThen (Printing.always_print counts_separator)
      fun _ _ => .append).andThen (ih (i + 1)) fun _ _ => .append

/-- The arguments of an entered call are counted. -/
theorem counts_leftArgs (func : Function) : (leftArgs d func).Always Counts := by
  refine (counts_showList d func _ 0).andThen ?_ fun _ _ => .append
  split
  · exact (counts_showDeclared d func _).andThen
      (Printing.always_print (.ite counts_separator .nothing)) fun _ _ => .append
  · exact Printing.always_print .nothing

/-- Those of a returned call are counted. -/
theorem counts_rightArgs (func : Function) : (rightArgs d func).Always Counts := by
  refine (counts_showList d func _ _).andThen ?_ fun _ _ => .append
  split
  · exact counts_showDeclared d func _
  · exact Printing.always_print .nothing

/-- A list of unknown arguments is counted. -/
theorem counts_showUnknown (turns : Nat) (i : Int) : (showUnknown d turns i).Always Counts := by
  induction turns generalizing i with
  | zero => exact Printing.always_print .nothing
  | succ turns ih =>
    exact ((counts_showArg d i .unknown).andThen (Printing.always_print counts_separator)
      fun _ _ => .append).andThen (ih (i + 1)) fun _ _ => .append

/-- What is displayed when a call is entered is counted. -/
theorem counts_enterArgs (func : Option Function) : (enterArgs d func).Always Counts := by
  cases func with
  | none =>
    exact (counts_showUnknown d 4 0).andThen (counts_showArg d 4 .unknown) fun _ _ => .append
  | some func => exact counts_leftArgs d func

/-- What is displayed of the arguments when it has returned is counted. -/
theorem counts_resultArgs (func : Option Function) : (resultArgs d func).Always Counts := by
  cases func with
  | none => exact Printing.always_print .nothing
  | some func => exact counts_rightArgs d func

end Arguments

/-! ## Pieces of a line -/

variable (o : Layout) (w : Moment)

/-- An unsigned number holds no newline. -/
theorem notMem_unsignedInt (n : Int) : '\n' ∉ unsignedInt n := notMem_unsigned _

/-- The thread id in front of a line is counted. -/
theorem counts_tidPrefix (thr : Thread) : (tidPrefix o w thr).Counts := by
  have htid := notMem_unsignedInt thr.tid
  unfold tidPrefix
  refine .ite (counts_fprintf ?_) (.ite (counts_fprintf ?_) .nothing)
  · simp [htid]
  · simp [htid]

/-- The relative time is counted. -/
theorem counts_relativeStamp (diff : Timeval) : (relativeStamp diff).Counts := by
  have hsec := @notMem_padded ' ' (by decide) 3 _ (notMem_unsignedInt diff.tvSec)
  have husec := notMem_zeroPadded 6 diff.tvUsec
  refine counts_fprintf ?_
  simp [hsec, husec]

/-- A clock holds no newline. -/
theorem notMem_clock (tm : Int × Int × Int) : '\n' ∉ clock tm := by
  simp [clock, notMem_zeroPadded]

/-- The absolute time is counted. -/
theorem counts_absoluteStamp : (absoluteStamp o w).Counts := by
  have hsec := notMem_unsignedInt w.absolute.tvSec
  have husec := notMem_zeroPadded 6 w.absolute.tvUsec
  have hclock := notMem_clock w.localtime
  unfold absoluteStamp
  refine .ite .nothing (.ite (counts_fprintf ?_)
    (.ite (counts_fprintf ?_) (counts_fprintf ?_)))
  · simp [hsec, husec]
  · simp [hclock, husec]
  · simp [hclock]

/-- The address in front of a call is counted. -/
theorem counts_addressPrefix (type : Tof) (thr : Thread) :
    (addressPrefix o type thr).Counts := by
  unfold addressPrefix
  refine .ite (.ite (counts_fprintf ?_) (counts_fprintf ?_)) .nothing
  · simp [notMem_pointer]
  · simp [notMem_pointer]

/-- The depth in front of a call is counted. -/
theorem counts_addPrefixSpace (currentPid : Pid) (depth : Nat) (isLeft : Bool) :
    (addPrefixSpace currentPid depth isLeft).Counts := by
  have hpid := @notMem_padded ' ' (by decide) 5 _ (notMem_signed currentPid)
  have hdepth := @notMem_padded ' ' (by decide) 2 _ (notMem_signed depth)
  refine counts_fprintf ?_
  cases isLeft <;> simp [hpid, hdepth, List.mem_replicate]

/-! ## Lines whose counter is right -/

/-- `current_column` is the number of characters on the line. -/
def Aligned (c : Console) : Prop := c.currentColumn = column c.text

variable {o w}

/-- A call that counts right, with its result added up, keeps the column right. -/
theorem Aligned.count {c : Console} (h : c.Aligned) {p : Printed Shown} (hp : p.Counts) :
    (c.count p).Aligned := by
  change c.currentColumn + p.ret = column (c.text ++ p.text)
  rw [h, hp.column_append]

/-- A line begins at column zero. -/
theorem aligned_beginOfLine (type : Tof) (thr : Option Thread) {c : Console}
    (h : column c.text = 0) : (beginOfLine o w type thr c).Aligned := by
  have hstart : Aligned { c with currentColumn := 0 } := by
    change (0 : Int) = column c.text
    rw [h]
    rfl
  unfold beginOfLine outputIndent
  cases thr with
  | none => exact hstart
  | some thr =>
    dsimp only
    have hrelative : ∀ {c : Console}, c.Aligned → Aligned (if o.optr = true then
        { c.count (relativeStamp (relativeTime c.oldTv w.relative).1) with
          oldTv := (relativeTime c.oldTv w.relative).2 } else c) := by
      intro c hc
      split
      · exact hc.count (counts_relativeStamp _)
      · exact hc
    have hprefix := ((hrelative (hstart.count (counts_tidPrefix o w thr))).count
      (counts_absoluteStamp o w)).count (counts_addressPrefix o type thr)
    split
    · exact hprefix.count (counts_fprintf (notMem_blanks _))
    · exact hprefix

end Console

end Utrace
