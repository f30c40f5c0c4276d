import Utrace.Correctness.Formats
import Utrace.Interpretation.Written

/-!
# The arguments asked for

The list of arguments that the display of a result asks for, counted from the block alone, is
what the displays of a return line fetch while it is printed.
-/

namespace Utrace

open Memory

variable {d : Display}

/-- Over the bytes of the heap that are left. -/
theorem fetched_scanFormat {stringMaxlength : Int} {size left i : Nat} {inside : Bool}
    {argNum : Int} {str1 : Nat → Byte} {p : Printed Access}
    (h : d.scanFormat stringMaxlength size left inside i argNum str1 = some p) :
    p.fetched = numbers argNum (formatArgs inside (peek left str1 i)) := by
  induction left generalizing inside i argNum str1 p with
  | zero => cases h
  | succ left ih =>
    rw [peek_succ]
    cases inside with
    | false =>
      rw [Display.scanFormat] at h
      rw [formatArgs, if_neg Bool.false_ne_true]
      by_cases hzero : str1 i = 0
      · rw [if_pos hzero] at h ⊢
        cases h
        rfl
      · rw [if_neg hzero] at h ⊢
        obtain ⟨rest, hrest, rfl⟩ := Option.map_eq_some_iff.mp h
        rw [Printed.fetched_append, ih hrest]
        rfl
    | true =>
      rw [Display.scanFormat] at h
      rw [formatArgs, if_pos rfl]
      by_cases hclosing : str1 i = byteOf '%' ∨ str1 i = 0
      · rw [if_pos hclosing] at h ⊢
        obtain ⟨rest, hrest, rfl⟩ := Option.map_eq_some_iff.mp h
        rw [Printed.fetched_append, ih hrest]
        rfl
      rw [if_neg hclosing] at h ⊢
      by_cases hletter : str1 i ∈ "diuoxXcs".toList.map byteOf
      · rw [if_pos (List.contains_iff_mem.mpr hletter)] at h
        rw [if_pos hletter]
        obtain ⟨rest, hrest, rfl⟩ := Option.map_eq_some_iff.mp h
        rw [Printed.fetched_append, Printed.fetched_append, ih hrest, numbers_succ,
          (displayAsked_accesses d stringMaxlength _ _).1]
        rfl
      rw [if_neg fun hmem => hletter (List.contains_iff_mem.mp hmem)] at h
      rw [if_neg hletter]
      by_cases hfloat : str1 i ∈ "eEfg".toList.map byteOf
      · rw [if_pos (List.contains_iff_mem.mpr hfloat)] at h
        rw [if_pos hfloat]
        obtain ⟨rest, hrest, rfl⟩ := Option.map_eq_some_iff.mp h
        cases left with
        | zero => cases hrest
        | succ left =>
          rw [scan_end (Function.update_self ..)] at hrest
          cases hrest
          rfl
      rw [if_neg fun hmem => hfloat (List.contains_iff_mem.mp hmem)] at h
      rw [if_neg hfloat]
      by_cases hstar : str1 i = byteOf '*'
      · rw [if_pos hstar] at h ⊢
        obtain ⟨rest, hrest, rfl⟩ := Option.map_eq_some_iff.mp h
        rw [Printed.fetched_append, Printed.fetched_append, ih hrest, numbers_succ,
          (displayAsked_accesses d stringMaxlength _ _).1]
        rfl
      · rw [if_neg hstar] at h ⊢
        obtain ⟨rest, hrest, rfl⟩ := Option.map_eq_some_iff.mp h
        rw [Printed.fetched_append, ih hrest]
        rfl

/-- A stopped thread holds what its display is given, and a block what was copied into it. -/
structure Agrees (d : Display) (answers : Answers) (type : Tof) (thr : Thread) : Prop where
  word : ∀ argNum, ∃ word, gimmeArg type thr argNum = .ok word ∧
    answers.word word = (d.arg argNum).toInt
  block : ∀ argNum, answers.block (d.arg argNum).toInt =
    peek ((d.heap argNum).mapped (blockSize d.opts intMax)) (d.formatBlock argNum) 0

variable {answers : Answers} {type : Tof} {thr : Thread}

/-- The display of a format fetches what its block asks for. -/
theorem Agrees.fetched_displayFormat (h : Agrees d answers type thr)
    (hmalloc : mallocs (blockSize d.opts intMax) = true) {argNum : Int} {p : Printed Access}
    (hp : d.displayFormat intMax argNum = some p) :
    p.fetched = displayFormat answers type thr argNum := by
  obtain ⟨word, hword, hvalue⟩ := h.word argNum
  have hblock := h.block argNum
  unfold displayFormat
  rw [hword]
  dsimp only
  rw [hvalue]
  unfold Display.displayFormat at hp
  dsimp only at hp
  by_cases hnull : d.arg argNum = 0
  · rw [if_pos hnull] at hp
    rw [if_pos (by rw [hnull]; rfl)]
    cases hp
    rfl
  · have hne : (d.arg argNum).toInt ≠ 0 := fun hzero =>
      hnull (BitVec.toInt_inj.mp (hzero.trans rfl))
    rw [if_neg hnull, if_pos hmalloc] at hp
    rw [if_neg hne, hblock]
    obtain ⟨rest, hrest, rfl⟩ := Option.map_eq_some_iff.mp hp
    change (d.formatShown argNum ++ rest).fetched = _
    rw [Printed.fetched_append, (formatShown_accesses d argNum).1, fetched_scanFormat hrest]
    change argNum :: numbers argNum (formatArgs false (peek _ (d.formatBlock argNum) 0)) = _
    congr 1
    simp only [numbers, bind_pure_comp, List.map_eq_map, List.map_map]
    rfl

/-- A string with its length in another argument fetches that one first. -/
theorem fetched_displayStringN (arg2 argNum : Int) :
    (d.displayStringN arg2 argNum).1.fetched = displayStringN arg2 argNum := by
  have hstring := (displayString_accesses d (d.arg (arg2 - 1)).toInt argNum).1
  unfold Display.displayStringN
  dsimp only
  rw [Printed.fetched_append, hstring]
  rfl

/-- The arguments fetched by a display are the ones it asks for. -/
theorem Agrees.fetched_displayArg (h : Agrees d answers type thr)
    (hmalloc : mallocs (blockSize d.opts intMax) = true) {argNum : Int} {argType : ArgType}
    {r : Printed Access × Int} (hr : d.displayArg intMax argNum argType = some r) :
    r.1.fetched = displayArg answers type thr argNum argType := by
  have hchar := apart_displayChar (d.arg argNum).toInt
  cases argType with
  | format =>
    obtain ⟨p, hp, rfl⟩ := Option.map_eq_some_iff.mp hr
    exact h.fetched_displayFormat hmalloc hp
  | string =>
    cases hr
    exact (displayString_accesses d intMax argNum).1
  | string0 =>
    cases hr
    exact fetched_displayStringN 0 argNum
  | string1 =>
    cases hr
    exact fetched_displayStringN 1 argNum
  | string2 =>
    cases hr
    exact fetched_displayStringN 2 argNum
  | string3 =>
    cases hr
    exact fetched_displayStringN 3 argNum
  | char =>
    cases hr
    simp [displayArg, hchar.fetched]
  | addr =>
    cases hr
    unfold Display.displayArg.fetched
    split <;> rfl
  | unknown | file =>
    cases hr
    unfold Display.displayUnknown
    dsimp only
    split <;> rfl
  | void | int | uint | octal =>
    cases hr
    rfl

/-! ## A return line -/

/-- Behind every display of an argument `string_maxlength` is at its default again. -/
theorem snd_displayArg {argNum : Int} {argType : ArgType} {r : Printed Access × Int}
    (hr : d.displayArg intMax argNum argType = some r) : r.2 = intMax := by
  cases argType with
  | format =>
    obtain ⟨p, -, rfl⟩ := Option.map_eq_some_iff.mp hr
    rfl
  | _ =>
    cases hr
    rfl

/-- The arguments that the displays of a line fetch. -/
def Display.fetches (d : Display) (shown : List Shown) : List Int :=
  shown.flatMap fun
    | .argType _ => []
    | .arg argNum type _ =>
      ((d.displayArg intMax argNum type).map fun r => r.1.fetched).getD []

/-- A call whose displays fetch some arguments and leave `string_maxlength` at its default. -/
def Display.Fetching (d : Display) (asked : List Int) (a : Printing Shown Int) : Prop :=
  ∀ r, a intMax = some r → d.fetches r.1.events = asked ∧ r.2 = intMax

namespace Display.Fetching

variable {asked asked' : List Int} {a b : Printing Shown Int}

/-- Printing fetches nothing. -/
theorem print {p : Printed Shown} (h : d.fetches p.events = []) : d.Fetching [] (.print p) := by
  rintro r ⟨⟩
  exact ⟨h, rfl⟩

/-- Calls in sequence fetch the arguments of both. -/
theorem andThen (ha : d.Fetching asked a) (hb : d.Fetching asked' b) :
    d.Fetching (asked ++ asked') (a.andThen b) := by
  intro r hr
  obtain ⟨first, hfirst, hmap⟩ := Option.bind_eq_some_iff.mp hr
  obtain ⟨second, hsecond, rfl⟩ := Option.map_eq_some_iff.mp hmap
  obtain ⟨hfetches, hmax⟩ := ha first hfirst
  rw [hmax] at hsecond
  obtain ⟨hfetches', hmax'⟩ := hb second hsecond
  refine ⟨?_, hmax'⟩
  rw [Printed.events_append, Display.fetches, List.flatMap_append]
  exact congrArg₂ _ hfetches hfetches'

end Display.Fetching

namespace Agrees

open Console

variable (h : Agrees d answers type thr) (hmalloc : mallocs (blockSize d.opts intMax) = true)
include h hmalloc

/-- The display of an argument fetches what it asks for. -/
theorem fetching_showArg (argNum : Int) (argType : ArgType) :
    d.Fetching (displayArg answers type thr argNum argType) (showArg d argNum argType) := by
  intro r hr
  obtain ⟨shown, hshown, rfl⟩ := Option.map_eq_some_iff.mp hr
  refine ⟨?_, snd_displayArg hshown⟩
  rw [← h.fetched_displayArg hmalloc hshown]
  simp [Display.fetches, hshown]

/-- So does that of a declared argument. -/
theorem fetching_showDeclared (func : Function) (i : Nat) :
    d.Fetching (displayArg answers type thr i (func.argType i)) (showDeclared d func i) :=
  (Display.Fetching.print rfl).andThen (h.fetching_showArg hmalloc i (func.argType i))

/-- So does a list of declared arguments. -/
theorem fetching_showList (func : Function) (turns i : Nat) :
    d.Fetching ((List.range' i turns).flatMap fun (k : Nat) =>
      displayArg answers type thr k (func.argType k)) (showList d func turns i) := by
  induction turns generalizing i with
  | zero => exact .print rfl
  | succ turns ih =>
    have hfirst := (h.fetching_showDeclared hmalloc func i).andThen
      (Display.Fetching.print (p := separator) rfl)
    rw [List.append_nil] at hfirst
    rw [List.range'_succ, List.flatMap_cons]
    exact hfirst.andThen (ih (i + 1))

/-- The arguments of a return line, and its result. -/
theorem fetching_outputRight (func : Option Function) :
    ∃ asked asked', outputRightArgs answers type thr func = asked ++ asked' ∧
      d.Fetching asked (resultArgs d func) ∧ d.Fetching asked' (returnValue d func) := by
  cases func with
  | none => exact ⟨[], _, rfl, .print rfl, h.fetching_showArg hmalloc (-1) .unknown⟩
  | some func =>
    refine ⟨_, _, rfl, ?_, ?_⟩
    · have hle : func.paramsRight ≤ func.numParams := func.right_le
      have hturns : ((func.numParams : Int) - 1 - (func.numParams - func.paramsRight : Nat)).toNat =
          func.paramsRight - 1 := by
        omega
      unfold resultArgs rightArgs
      dsimp only
      rw [hturns]
      refine (h.fetching_showList hmalloc func _ _).andThen ?_
      split
      · have hlast : func.numParams - func.paramsRight + (func.paramsRight - 1) =
            func.numParams - 1 := by
          omega
        rw [hlast]
        exact h.fetching_showDeclared hmalloc func _
      · exact .print rfl
    · unfold returnValue
      dsimp only
      split
      · exact .print rfl
      · exact h.fetching_showArg hmalloc (-1) func.returnType

end Agrees

/-- The arguments asked for when a function has returned are those that the displays of its line
fetch, wherever the words and the strings are taken from. -/
def LineFetches (answers : Answers) (thr : Thread) (demangle : List Char → List Char)
    (listOfFunctions : List Function) (functionName : List Char) : Prop :=
  ∀ (o : Layout) (w : Moment) (c c' : Console), o.demangle = demangle →
    o.listOfFunctions = listOfFunctions → o.optc = false →
    mallocs (blockSize o.opts intMax) = true → c.stringMaxlength = intMax →
    Agrees (w.display o) answers .functionr thr →
    Console.outputRight o w .functionr thr functionName c = some c' →
    ∃ shown, c'.shown = c.shown ++ shown ∧ (w.display o).fetches shown =
      outputRightArgs answers .functionr thr (name2func demangle listOfFunctions functionName)

/-- This holds of every line. -/
theorem lineFetches (answers : Answers) (thr : Thread) (demangle : List Char → List Char)
    (listOfFunctions : List Function) (functionName : List Char) :
    LineFetches answers thr demangle listOfFunctions functionName := by
  rintro o w c c' rfl rfl htrace hmalloc hmax h hright
  obtain ⟨r, v, n, hr, hv, _, _, hshown, _⟩ := Console.outputRight_eq_some htrace hright
  obtain ⟨asked, asked', hasked, hargs, hresult⟩ := h.fetching_outputRight hmalloc
    (name2func o.demangle o.listOfFunctions functionName)
  rw [Console.stringMaxlength_openRight, hmax] at hr
  obtain ⟨hfetches, hmax'⟩ := hargs r hr
  rw [hmax'] at hv
  refine ⟨r.1.events ++ v.1.events, by rw [hshown, List.append_assoc], ?_⟩
  rw [hasked, ← hfetches, ← (hresult v hv).1]
  exact List.flatMap_append

end Utrace
