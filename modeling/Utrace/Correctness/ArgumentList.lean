import Utrace.Interpretation.Written

/-!
# The parameter list, split in two

The arguments in front of the first `+` of a declaration are displayed when the call is entered
and the others when it has returned. Both loops treat their last argument apart; together they
display every argument once, with a separator between any two.
-/

namespace Utrace

/-- Texts with a separator between any two. -/
def joined (texts : List (List Char)) : List Char := (", ".toList).intercalate texts

/-- Texts with a separator behind each. -/
def separated (texts : List (List Char)) : List Char :=
  texts.flatMap fun text => text ++ ", ".toList

/-- Texts with a separator behind each, taken in two parts. -/
theorem separated_append (texts more : List (List Char)) :
    separated (texts ++ more) = separated texts ++ separated more := List.flatMap_append

/-- The last part ends without a separator. -/
theorem separated_append_joined (texts : List (List Char)) {more : List (List Char)}
    (h : more ≠ []) : separated texts ++ joined more = joined (texts ++ more) := by
  induction texts with
  | nil => rfl
  | cons text texts ih =>
    obtain ⟨next, rest, hrest⟩ :=
      List.exists_cons_of_ne_nil (List.append_ne_nil_of_right_ne_nil texts h)
    have hsplit : separated (text :: texts) = text ++ ", ".toList ++ separated texts :=
      List.flatMap_cons
    rw [hsplit, List.append_assoc, ih, List.cons_append, hrest, joined,
      joined, List.intercalate_cons_cons, List.append_assoc]

/-- One more separator behind joined texts. -/
theorem joined_append_separator {texts : List (List Char)} (h : texts ≠ []) :
    joined texts ++ ", ".toList = separated texts := by
  obtain ⟨front, last, rfl⟩ := (List.eq_nil_or_concat texts).resolve_left h
  rw [List.concat_eq_append, ← separated_append_joined front (List.cons_ne_nil last []),
    separated_append, List.append_assoc]
  congr 1
  simp [joined, separated]

namespace Console

/-! ## What the loops do -/

/-- What is done to display declared arguments with some texts, from number `i` on. -/
def declared (func : Function) : Nat → List (List Char) → List Shown
  | _, [] => []
  | i, text :: texts =>
    .argType i :: .arg i (func.argType i) text :: declared func (i + 1) texts

/-- Declared arguments, taken in two parts. -/
theorem declared_append (func : Function) (i : Nat) (texts more : List (List Char)) :
    declared func i (texts ++ more) =
      declared func i texts ++ declared func (i + texts.length) more := by
  induction texts generalizing i with
  | nil => rfl
  | cons text texts ih =>
    rw [List.cons_append, declared, declared, ih, List.length_cons, Nat.add_assoc, Nat.add_comm 1]
    rfl

/-- A call displays `n` declared arguments from number `i` on, and prints a text made from
theirs. -/
def Displays (func : Function) (i n : Nat) (made : List (List Char) → List Char)
    (p : Printed Shown) : Prop :=
  ∃ texts : List (List Char), texts.length = n ∧ p.events = declared func i texts ∧
    p.text = made texts

/-- A result is displayed with its type, as argument -1; without a type only `<void>` is printed. -/
structure ShowsResult (type : ArgType) (result : List Shown) (value : List Char) : Prop where
  void : type = .void → result = [] ∧ value = "<void>".toList
  typed : type ≠ .void → result = [.arg (-1) type value]

/-- Nothing else is displayed. -/
theorem ShowsResult.arg {type : ArgType} {result : List Shown} {value : List Char}
    (h : ShowsResult type result value) : ∀ r ∈ result, ∃ text, r = .arg (-1) type text := by
  by_cases hvoid : type = .void
  · rw [(h.void hvoid).1]
    exact List.forall_mem_nil _
  · rw [h.typed hvoid]
    exact List.forall_mem_singleton.mpr ⟨value, rfl⟩

variable (d : Display) (func : Function)

/-- The display of an argument is one. -/
theorem showArg_shows (argNum : Int) (type : ArgType) :
    (showArg d argNum type).Always fun p => p.events = [.arg argNum type p.text] := by
  intro m r hr
  obtain ⟨shown, _, rfl⟩ := Option.map_eq_some_iff.mp hr
  rfl

/-- The type of a declared argument is read first. -/
theorem showDeclared_displays (i : Nat) :
    (showDeclared d func i).Always (Displays func i 1 List.flatten) := by
  refine (Printing.always_print (P := fun p => p = .event (.argType i)) rfl).andThen
    (showArg_shows d i (func.argType i)) ?_
  rintro p q rfl hevents
  refine ⟨[q.text], rfl, ?_, ?_⟩
  · rw [Printed.events_append, hevents]
    rfl
  · rw [Printed.text_append]
    simp

/-- The arguments before the last one. -/
theorem showList_displays (turns i : Nat) :
    (showList d func turns i).Always
      (Displays func i turns separated) := by
  induction turns generalizing i with
  | zero => exact Printing.always_print ⟨[], rfl, rfl, rfl⟩
  | succ turns ih =>
    have hone : ((showDeclared d func i).andThen (.print separator)).Always
        (Displays func i 1 separated) := by
      refine (showDeclared_displays d func i).andThen
        (Printing.always_print (P := fun q => q = separator) rfl) ?_
      rintro p q ⟨texts, hlength, hevents, htext⟩ rfl
      obtain ⟨text, rfl⟩ := List.length_eq_one_iff.mp hlength
      refine ⟨[text], rfl, ?_, ?_⟩
      · rw [Printed.events_append, hevents]
        exact List.append_nil _
      · rw [Printed.text_append, htext]
        simp [separator, separated]
    refine hone.andThen (ih (i + 1)) ?_
    rintro p q ⟨texts, hlength, hevents, htext⟩ ⟨more, hlength', hevents', htext'⟩
    refine ⟨texts ++ more, ?_, ?_, ?_⟩
    · rw [List.length_append, hlength, hlength', Nat.add_comm]
    · rw [Printed.events_append, hevents, hevents', declared_append, hlength]
    · rw [Printed.text_append, htext, htext', separated_append]

/-- The loop, and the last argument behind it. -/
theorem showList_last_displays (turns i : Nat) :
    ((showList d func turns i).andThen (showDeclared d func (i + turns))).Always
      (Displays func i (turns + 1) joined) := by
  refine (showList_displays d func turns i).andThen (showDeclared_displays d func _) ?_
  rintro p q ⟨texts, hlength, hevents, htext⟩ ⟨last, hlast, hevents', htext'⟩
  obtain ⟨text, rfl⟩ := List.length_eq_one_iff.mp hlast
  refine ⟨texts ++ [text], ?_, ?_, ?_⟩
  · rw [List.length_append, hlength]
    rfl
  · rw [Printed.events_append, hevents, hevents', declared_append, hlength]
  · rw [Printed.text_append, htext, htext', ← separated_append_joined _ (List.cons_ne_nil text [])]
    simp [joined]

/-- No argument at all. -/
theorem showNone_displays (i : Nat) {made : List (List Char) → List Char} (h : made [] = []) :
    ((showList d func 0 i).andThen (.print .nothing)).Always (Displays func i 0 made) := by
  refine (showList_displays d func 0 i).andThen
    (Printing.always_print (P := fun q => q = .nothing) rfl) ?_
  rintro p q ⟨texts, hlength, hevents, htext⟩ rfl
  rw [List.length_eq_zero_iff] at hlength
  subst hlength
  refine ⟨[], rfl, ?_, ?_⟩
  · rw [Printed.events_append, hevents]
    rfl
  · rw [Printed.text_append, htext, h]
    rfl

/-- The arguments of `output_left`, with a separator at the end if others are to follow. -/
theorem leftArgs_displays :
    (leftArgs d func).Always (Displays func 0 (func.numParams - func.paramsRight)
      (if func.paramsRight ≠ 0 then separated else joined)) := by
  have hright : func.paramsRight ≤ func.numParams := func.right_le
  unfold leftArgs
  dsimp only
  by_cases hlast : func.numParams > func.paramsRight
  · have hcount : func.numParams - func.paramsRight =
        ((func.numParams : Int) - func.paramsRight - 1).toNat + 1 := by omega
    have hloop := showList_last_displays d func
      ((func.numParams : Int) - func.paramsRight - 1).toNat 0
    rw [Nat.zero_add] at hloop
    rw [if_pos hlast, ← Printing.andThen_assoc, hcount]
    refine hloop.andThen (Printing.always_print (P := fun q => q = _) rfl) ?_
    rintro p q ⟨texts, hlength, hevents, htext⟩ rfl
    have hne : texts ≠ [] := List.ne_nil_of_length_eq_add_one hlength
    refine ⟨texts, hlength, ?_, ?_⟩
    · rw [Printed.events_append, hevents]
      split <;> exact List.append_nil _
    · rw [Printed.text_append, htext]
      split
      · exact joined_append_separator hne
      · exact List.append_nil _
  · have hcount : ((func.numParams : Int) - func.paramsRight - 1).toNat = 0 := by omega
    have hnone : func.numParams - func.paramsRight = 0 := by omega
    rw [if_neg hlast, hcount, hnone]
    exact showNone_displays d func 0 (by split <;> rfl)

/-- The arguments of `output_right`. -/
theorem rightArgs_displays :
    (rightArgs d func).Always (Displays func (func.numParams - func.paramsRight)
      func.paramsRight joined) := by
  have hright : func.paramsRight ≤ func.numParams := func.right_le
  unfold rightArgs
  dsimp only
  by_cases hsome : func.paramsRight ≠ 0
  · have hcount : ((func.numParams : Int) - 1 -
        (func.numParams - func.paramsRight : Nat)).toNat + 1 = func.paramsRight := by omega
    have hloop := showList_last_displays d func ((func.numParams : Int) - 1 -
      (func.numParams - func.paramsRight : Nat)).toNat (func.numParams - func.paramsRight)
    rw [hcount] at hloop
    rw [if_pos hsome]
    exact hloop
  · have hnone : func.paramsRight = 0 := not_not.mp hsome
    have hcount : ((func.numParams : Int) - 1 - (func.numParams - 0 : Nat)).toNat = 0 := by omega
    rw [if_neg hsome, hnone, hcount]
    exact showNone_displays d func _ rfl

/-- The value that a call returned is displayed once, with its type; nothing is fetched for a
function without a result. -/
theorem returnValue_shows :
    (returnValue d (some func)).Always fun p => ShowsResult func.returnType p.events p.text := by
  unfold returnValue
  dsimp only
  split
  · rename_i hvoid
    exact Printing.always_print ⟨fun _ => ⟨rfl, rfl⟩, fun hne => (hne hvoid).elim⟩
  · rename_i hne
    exact fun m r hr => ⟨fun hvoid => (hne hvoid).elim, fun _ => showArg_shows d (-1) _ m r hr⟩

/-- The entries of `arg_types` that are read belong to the arguments displayed. -/
theorem lt_of_mem_declared {i k : Nat} {texts : List (List Char)}
    (h : .argType k ∈ declared func i texts) : k < i + texts.length := by
  induction texts generalizing i with
  | nil => cases h
  | cons text texts ih =>
    rw [List.length_cons]
    rw [declared, List.mem_cons, List.mem_cons] at h
    rcases h with heq | heq | hrest
    · cases heq
      omega
    · cases heq
    · have hlt := ih hrest
      omega

section Calls

variable {o : Layout} {w w' : Moment} {type type' : Tof} {thr thr' : Thread}
  {functionName : List Char} {func : Function} {c c' e e' : Console}

/-- An enter line displays the arguments in front of the first `+`. -/
theorem outputLeft_declared (htrace : o.optc = false)
    (hfunc : name2func o.demangle o.listOfFunctions functionName = some func)
    (h : outputLeft o w type thr functionName c = some c') :
    ∃ left : List (List Char), left.length = func.numParams - func.paramsRight ∧
      c'.shown = c.shown ++ declared func 0 left ∧
      c'.text = (openLeft o w type thr functionName c).text ++
        (if func.paramsRight ≠ 0 then separated else joined) left := by
  obtain ⟨r, hr, rfl⟩ := outputLeft_eq_some htrace h
  rw [hfunc] at hr
  obtain ⟨left, hlength, hevents, htext⟩ := leftArgs_displays (w.display o) func _ _ hr
  refine ⟨left, hlength, ?_, ?_⟩
  · rw [← hevents, ← shown_openLeft o w type thr functionName c]
    rfl
  · rw [← htext]
    rfl

/-- A return line displays the others, and the result. -/
theorem outputRight_declared (htrace : o.optc = false)
    (hfunc : name2func o.demangle o.listOfFunctions functionName = some func)
    (h : outputRight o w type thr functionName e = some e') :
    ∃ (right : List (List Char)) (result : List Shown) (rest : List Char),
      right.length = func.paramsRight ∧
      e'.shown = e.shown ++ declared func (func.numParams - func.paramsRight) right ++ result ∧
      (∀ r ∈ result, ∃ text, r = .arg (-1) func.returnType text) ∧
      e'.text = (openRight o w type thr functionName e).text ++ joined right ++
        ") ".toList ++ rest := by
  obtain ⟨r, v, n, hr, hv, hvtext, _, hshown, _⟩ := outputRight_eq_some htrace h
  rw [hfunc] at hr hv
  obtain ⟨right, hlength, hevents, htext⟩ := rightArgs_displays (w.display o) func _ _ hr
  rw [htext, List.append_assoc _ (List.replicate n ' ')] at hvtext
  rw [hevents] at hshown
  exact ⟨right, v.1.events, _, hlength, hshown, (returnValue_shows _ func _ _ hv).arg, hvtext⟩

/-- For every function record (it carries the bounds that `process_line` establishes) and any
two displayed halves of a call of it: `output_left` displays the arguments in front of the first
`+` and `output_right` the others, each once, in order and with its declared type; no other
entry of `arg_types` is read, and both texts together are the texts of the arguments with a
separator between any two. -/
theorem arguments_split (htrace : o.optc = false)
    (hfunc : name2func o.demangle o.listOfFunctions functionName = some func)
    (hleft : outputLeft o w type thr functionName c = some c')
    (hright : outputRight o w' type' thr' functionName e = some e') :
    (func.paramsRight ≤ func.numParams ∧ func.numParams ≤ maxArgs) ∧
      ∃ (left right : List (List Char)) (result : List Shown)
        (leftText rightText rest : List Char),
        left.length = func.numParams - func.paramsRight ∧ right.length = func.paramsRight ∧
        c'.shown = c.shown ++ declared func 0 left ∧
        e'.shown = e.shown ++ declared func (func.numParams - func.paramsRight) right ++ result ∧
        (∀ r ∈ result, ∃ text, r = .arg (-1) func.returnType text) ∧
        (∀ i, .argType i ∈ declared func 0 (left ++ right) → i < func.numParams) ∧
        c'.text = (openLeft o w type thr functionName c).text ++ leftText ∧
        e'.text = (openRight o w' type' thr' functionName e).text ++ rightText ++
          ") ".toList ++ rest ∧
        leftText ++ rightText = joined (left ++ right) := by
  have hbound : func.paramsRight ≤ func.numParams := func.right_le
  obtain ⟨left, hlength, hshown, htext⟩ := outputLeft_declared htrace hfunc hleft
  obtain ⟨right, result, rest, hlength', hshown', hresult, htext'⟩ :=
    outputRight_declared htrace hfunc hright
  refine ⟨⟨hbound, func.bounded⟩, left, right, result, _, _, rest, hlength, hlength', hshown,
    hshown', hresult, ?_, htext, htext', ?_⟩
  · intro i hi
    have hlt := lt_of_mem_declared func hi
    rw [List.length_append] at hlt
    omega
  · split
    next hsome =>
      exact separated_append_joined left (List.ne_nil_of_length_pos (by omega))
    next hnone =>
      have hnil : right = [] := List.eq_nil_of_length_eq_zero (by omega)
      rw [hnil, List.append_nil]
      exact List.append_nil _

end Calls

/-- A call of `f` by thread 7, entered and left. -/
theorem arguments_split_onePlus :
    ∃ c' e' left right leftText rightText,
      outputLeft (plainLayout [onePlus]) numbered .function { tid := 7 } "f".toList {} =
        some c' ∧
      outputRight (plainLayout [onePlus]) numbered .functionr { tid := 7 } "f".toList c' =
        some e' ∧
      left.length = 1 ∧ right.length = 1 ∧ c'.shown = declared onePlus 0 left ∧
      leftText ++ rightText = joined (left ++ right) := by
  obtain ⟨c', hleft⟩ := Option.isSome_iff_exists.mp (show
    (outputLeft (plainLayout [onePlus]) numbered .function { tid := 7 } "f".toList {}).isSome
      from rfl)
  have hright : ((outputLeft (plainLayout [onePlus]) numbered .function { tid := 7 } "f".toList
      {}).bind (outputRight (plainLayout [onePlus]) numbered .functionr { tid := 7 }
        "f".toList)).isSome := rfl
  rw [hleft, Option.bind_some] at hright
  obtain ⟨e', hright⟩ := Option.isSome_iff_exists.mp hright
  obtain ⟨_, left, right, _, leftText, rightText, _, hlength, hlength', hshown, _, _, _, _, _,
    htext⟩ := arguments_split rfl rfl hleft hright
  exact ⟨c', e', left, right, leftText, rightText, hleft, hright, hlength, hlength', hshown, htext⟩

end Console

end Utrace
