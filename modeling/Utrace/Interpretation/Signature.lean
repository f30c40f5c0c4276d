import Utrace.Interpretation.Fields

/-!
# The signature of a declaration

`start_of_arg_sig` goes back from the end of the line to the left parenthesis that matches
the last one. The text between the two is to be a list of parameters between commas.
-/

namespace Utrace

/-! ## Parentheses -/

/-- There is no parenthesis in a text. -/
def NoParens (str : List Char) : Prop := ∀ c ∈ str, c ≠ '(' ∧ c ≠ ')'

/-- No text, no parentheses. -/
theorem NoParens.nil : NoParens [] := by
  intro c hc
  cases hc

/-- Neither the first character nor the rest is a parenthesis. -/
theorem noParens_cons {c : Char} {str : List Char} :
    NoParens (c :: str) ↔ (c ≠ '(' ∧ c ≠ ')') ∧ NoParens str := List.forall_mem_cons

/-- The order does not matter. -/
theorem noParens_reverse {str : List Char} : NoParens str.reverse ↔ NoParens str := by
  unfold NoParens
  simp only [List.mem_reverse]

variable {stacked : Int} {str left : List Char} {tmp : Nat}

/-- Characters other than parentheses are passed over. -/
theorem argSigLoop_append (h : NoParens str) (stacked : Int) (left : List Char) :
    argSigLoop stacked (str ++ left) = argSigLoop stacked left := by
  induction str with
  | nil => rfl
  | cons c str ih =>
    obtain ⟨⟨hopen, hclose⟩, hstr⟩ := noParens_cons.mp h
    rw [List.cons_append, argSigLoop, if_neg hclose, if_neg hopen]
    exact ih hstr

/-- The position found is that of a left parenthesis. -/
theorem argSigLoop_eq_some (h : argSigLoop stacked str = some tmp) :
    ∃ right left, str = right ++ '(' :: left ∧ left.length = tmp := by
  induction str generalizing stacked with
  | nil => cases h
  | cons c str ih =>
    have hlater : ∀ stacked, argSigLoop stacked str = some tmp →
        ∃ right left, c :: str = right ++ '(' :: left ∧ left.length = tmp := by
      intro stacked h
      obtain ⟨right, left, hstr, hlength⟩ := ih h
      exact ⟨c :: right, left, by rw [hstr, List.cons_append], hlength⟩
    unfold argSigLoop at h
    split at h
    · exact hlater _ h
    · split at h
      · rename_i hc
        split at h
        · exact hlater _ h
        · split at h
          · exact ⟨[], str, by rw [hc, List.nil_append], Option.some.inj h⟩
          · cases h
      · exact hlater _ h

/-- Where the position found lies beyond some text, that text was read with a parenthesis left
to match if it has any. -/
theorem argSigLoop_past (hstacked : 0 ≤ stacked)
    (h : argSigLoop stacked (str ++ left) = some tmp) (htmp : tmp < left.length) :
    ∃ stacked', argSigLoop stacked' left = some tmp ∧
      (¬NoParens str ∨ 0 < stacked → 0 < stacked') := by
  induction str generalizing stacked with
  | nil => exact ⟨stacked, h, fun hwhy => hwhy.resolve_left (not_not_intro NoParens.nil)⟩
  | cons c str ih =>
    rw [List.cons_append, argSigLoop] at h
    split at h
    · obtain ⟨stacked', hleft, hpos⟩ := ih (by omega) h
      exact ⟨stacked', hleft, fun _ => hpos (Or.inr (by omega))⟩
    · rename_i hclose
      split at h
      · split at h
        · obtain ⟨stacked', hleft, hpos⟩ := ih (by omega) h
          exact ⟨stacked', hleft, fun _ => hpos (Or.inr (by omega))⟩
        · split at h
          · rw [Option.some.injEq, List.length_append] at h
            omega
          · cases h
      · rename_i hopen
        obtain ⟨stacked', hleft, hpos⟩ := ih hstacked h
        refine ⟨stacked', hleft, fun hwhy => hpos (hwhy.imp_left fun hparen hstr => ?_)⟩
        exact hparen (noParens_cons.mpr ⟨⟨hopen, hclose⟩, hstr⟩)

/-- A declaration read from its end. -/
theorem reverse_signature (name inside after : List Char) :
    (name ++ '(' :: (inside ++ ')' :: after)).reverse =
      after.reverse ++ ')' :: (inside.reverse ++ '(' :: name.reverse) := by
  simp

/-- The last parenthesis of a string and the one that matches it, with none in between. -/
theorem startOfArgSig_eq {name inside after : List Char} (hinside : NoParens inside)
    (hafter : NoParens after) :
    startOfArgSig (name ++ '(' :: (inside ++ ')' :: after)) = some name.length := by
  rw [startOfArgSig, reverse_signature, argSigLoop_append (noParens_reverse.mpr hafter), argSigLoop,
    if_pos rfl, argSigLoop_append (noParens_reverse.mpr hinside), argSigLoop]
  simp

/-- The string at the position found. -/
theorem startOfArgSig_split (h : startOfArgSig str = some tmp) :
    str = str.take tmp ++ '(' :: str.drop (tmp + 1) ∧ (str.take tmp).length = tmp := by
  obtain ⟨right, left, hreverse, rfl⟩ := argSigLoop_eq_some h
  have hstr : str = left.reverse ++ '(' :: right.reverse := by
    rw [← List.reverse_reverse str, hreverse]
    simp
  have htake : str.take left.length = left.reverse := by
    rw [hstr, List.take_left' List.length_reverse]
  have hdrop : str.drop (left.length + 1) = right.reverse := by
    rw [hstr, ← List.drop_drop, List.drop_left' List.length_reverse]
    rfl
  rw [htake, hdrop]
  exact ⟨hstr, List.length_reverse⟩

/-- The first right parenthesis after the position found, if no other parenthesis comes before
it, is the last one of the string. -/
theorem noParens_of_startOfArgSig {name inside after : List Char}
    (h : startOfArgSig (name ++ '(' :: (inside ++ ')' :: after)) = some name.length)
    (hinside : NoParens inside) : NoParens after := by
  by_contra hparen
  rw [startOfArgSig, reverse_signature] at h
  obtain ⟨stacked, hleft, hpos⟩ := argSigLoop_past le_rfl h (by simp; omega)
  have hstacked : 0 < stacked := hpos (Or.inl fun hnone => hparen (noParens_reverse.mp hnone))
  rw [argSigLoop, if_pos rfl, argSigLoop_append (noParens_reverse.mpr hinside), argSigLoop,
    if_neg (by decide), if_pos rfl, if_pos (by omega)] at hleft
  obtain ⟨right, left, hname, hlength⟩ := argSigLoop_eq_some hleft
  have hlen := congrArg List.length hname
  rw [List.length_reverse, List.length_append, List.length_cons] at hlen
  omega

/-! ## Lists of parameters -/

/-- A text is a list of parameters between commas, each with a type; a trailing comma is
tolerated. -/
inductive CommaList : List Char → List Field → Prop
  | blank (n : Nat) : CommaList (spaces n) []
  | last (p : Field) (hknown : p.type ≠ .unknown) : CommaList p.text [p]
  | more (p : Field) (hknown : p.type ≠ .unknown) {str : List Char} {ps : List Field}
    (h : CommaList str ps) : CommaList (p.text ++ ',' :: str) (p :: ps)

variable {turns : Nat} {ps : List Field} {inside after rest : List Char}

/-- The characters of such a list. -/
def listChars : List Char := " ,+".toList ++ listOfPt.flatMap Prod.fst

/-- The characters of a list of fields are no parentheses. -/
theorem noParens_listChars : NoParens listChars := by
  have hall : (listChars.all fun c => c != '(' && c != ')') = true := rfl
  intro c hc
  have hother := List.all_eq_true.mp hall c hc
  simpa using hother

/-- A field is made of such characters. -/
theorem Field.mem_listChars {p : Field} {c : Char} (hc : c ∈ p.text) : c ∈ listChars := by
  have hspaces : ∀ n, c ∈ spaces n → c ∈ listChars := by
    intro n hn
    rw [List.eq_of_mem_replicate hn]
    decide
  have htype : ∀ type, ∀ c ∈ typeName type, c ∈ listChars := by
    intro type c hc
    rw [typeName] at hc
    cases hfind : listOfPt.find? fun tmp => tmp.2 = type with
    | none =>
      rw [hfind] at hc
      cases hc
    | some tmp =>
      rw [hfind] at hc
      exact List.mem_append_right _
        (List.mem_flatMap.mpr ⟨tmp, List.mem_of_find?_eq_some hfind, hc⟩)
  unfold Field.text Field.body at hc
  simp only [List.mem_append] at hc
  rcases hc with hbefore | hplus | htypeName | hafter
  · exact hspaces _ hbefore
  · split at hplus
    · rw [List.mem_singleton.mp hplus]
      decide
    · cases hplus
  · exact htype _ c htypeName
  · exact hspaces _ hafter

/-- So is a list of fields. -/
theorem CommaList.mem_listChars (h : CommaList inside ps) {c : Char} (hc : c ∈ inside) :
    c ∈ listChars := by
  induction h with
  | blank n =>
    rw [List.eq_of_mem_replicate hc]
    decide
  | last p _ => exact Field.mem_listChars hc
  | more p _ _ ih =>
    rcases List.mem_append.mp hc with hp | hrest
    · exact Field.mem_listChars hp
    · rcases List.mem_cons.mp hrest with rfl | hrest
      · decide
      · exact ih hrest

/-- So a list of fields has no parentheses. -/
theorem CommaList.noParens (h : CommaList inside ps) : NoParens inside :=
  fun c hc => noParens_listChars c (h.mem_listChars hc)

/-- Its types are known. -/
theorem CommaList.known (h : CommaList inside ps) : ∀ p ∈ ps, p.type ≠ .unknown := by
  induction h with
  | blank n =>
    intro p hp
    cases hp
  | last p hknown => exact List.forall_mem_singleton.mpr hknown
  | more p hknown _ ih => exact List.forall_mem_cons.mpr ⟨hknown, ih⟩

/-- The rest of a line begins, after spaces, with a right parenthesis. -/
def Closed (rest : List Char) : Prop := ∃ n after, rest = spaces n ++ ')' :: after

/-- A list of no more parameters than there are turns is read to its end. -/
theorem CommaList.reads (h : CommaList inside ps) (hlength : ps.length ≤ turns)
    (after : List Char) : ∃ rest, Reads turns (inside ++ ')' :: after) ps rest ∧ Closed rest := by
  induction h generalizing turns with
  | blank n =>
    cases turns with
    | zero => exact ⟨_, .full _, n, after, rfl⟩
    | succ turns => exact ⟨_, .close turns n after, 0, after, rfl⟩
  | last p hknown =>
    obtain ⟨turns, rfl⟩ := Nat.exists_eq_add_of_le' hlength
    exact ⟨_, .last turns p after (Or.inr hknown), 0, after, rfl⟩
  | more p hknown _ ih =>
    obtain ⟨turns, rfl⟩ := Nat.exists_eq_add_of_le' (Nat.le_trans (Nat.le_add_left 1 _) hlength)
    obtain ⟨rest, hreads, hclosed⟩ := ih (Nat.le_of_succ_le_succ hlength)
    rw [List.append_assoc, List.cons_append]
    exact ⟨rest, .more p hreads, hclosed⟩

/-- What was read to a right parenthesis, with a type in every field, is such a list. -/
theorem Reads.commaList (h : Reads turns str ps rest) (hknown : ∀ p ∈ ps, p.type ≠ .unknown)
    (hclosed : Closed rest) : ∃ inside after, str = inside ++ ')' :: after ∧
      CommaList inside ps := by
  induction h with
  | full str =>
    obtain ⟨n, after, rfl⟩ := hclosed
    exact ⟨_, after, rfl, .blank n⟩
  | close turns n str => exact ⟨_, str, rfl, .blank n⟩
  | last turns p str _ => exact ⟨_, str, rfl, .last p (hknown p (List.mem_singleton_self p))⟩
  | more p _ ih =>
    obtain ⟨hp, hps⟩ := List.forall_mem_cons.mp hknown
    obtain ⟨inside, after, rfl, hlist⟩ := ih hps hclosed
    exact ⟨_, after, by rw [List.append_assoc, List.cons_append], .more p hp hlist⟩

/-! ## The parameters read -/

/-- The types of fields are put behind those already there. -/
theorem argTypes_addAll (params : Params) (ps : List Field) :
    (params.addAll ps).argTypes = params.argTypes ++ ps.map Field.type := by
  induction ps generalizing params with
  | nil => exact (List.append_nil _).symm
  | cons p ps ih =>
    change ((params.add p.plus p.type).addAll ps).argTypes = _
    rw [ih, Params.add, List.append_assoc, List.map_cons, List.singleton_append]

/-- From the first `+` on, every parameter counts. -/
theorem paramsRight_addAll (params : Params) (ps : List Field) :
    (params.addAll ps).paramsRight =
      if params.paramsRight ≠ 0 then params.paramsRight + ps.length
      else ps.length - ps.findIdx Field.plus := by
  induction ps generalizing params with
  | nil =>
    change params.paramsRight = _
    split
    · rfl
    · rename_i hzero
      simpa using hzero
  | cons p ps ih =>
    change ((params.add p.plus p.type).addAll ps).paramsRight = _
    rw [ih, List.findIdx_cons, List.length_cons, Params.add]
    by_cases hright : params.paramsRight = 0
    · cases p.plus with
      | true => simp [hright, Nat.add_comm]
      | false => simp [hright]
    · simp only [ne_eq, hright, not_false_eq_true, or_true, if_true, Nat.succ_ne_zero]
      omega

/-! ## The line -/

/-- In a line with a return type, the name and the text after the left parenthesis found. -/
structure Located (buf : List Char) (returnType : ArgType) (name text : List Char) : Prop where
  known : returnType ≠ .unknown
  type : (str2type (eatSpaces (cString buf))).1 = returnType
  split : eatSpaces (str2type (eatSpaces (cString buf))).2 = name ++ '(' :: text
  found : startOfArgSig (name ++ '(' :: text) = some name.length

variable {buf name text : List Char} {returnType : ArgType} {filename : String} {lineNo : Nat}

/-- A line in which a signature is found. -/
theorem Located.processLine_some (h : Located buf returnType name text) (filename : String)
    (lineNo : Nat) {params : Params}
    (hread : readParams returnType maxArgs .none text = some (params, rest)) :
    ∃ func : Function, processLine filename lineNo buf = .function func ∧ func.name = name ∧
      func.returnType = returnType ∧ func.argTypes = params.argTypes ∧
      func.paramsRight = params.paramsRight := by
  have htext :
      (eatSpaces (str2type (eatSpaces (cString buf))).2).drop (name.length + 1) = text := by
    rw [h.split, ← List.drop_drop, List.drop_left]
    rfl
  unfold processLine
  simp only [h.type, if_neg h.known, h.split]
  split
  · rename_i hnone
    cases h.found.symm.trans hnone
  · rename_i tmp hsome
    cases h.found.symm.trans hsome
    split
    · rename_i hnone
      rw [h.type, htext, hread] at hnone
      cases hnone
    · rename_i params' rest' hsome'
      rw [h.type, htext, hread] at hsome'
      cases hsome'
      exact ⟨_, rfl, List.take_left, rfl, rfl, rfl⟩

/-- A line whose function is returned. -/
theorem located_of_function {func : Function}
    (h : processLine filename lineNo buf = .function func) :
    ∃ text params rest, Located buf func.returnType func.name text ∧
      readParams func.returnType maxArgs .none text = some (params, rest) ∧
      func.argTypes = params.argTypes ∧ func.paramsRight = params.paramsRight := by
  unfold processLine at h
  dsimp only at h
  split at h
  · cases h
  · rename_i hknown
    split at h
    · cases h
    · rename_i tmp hfound
      obtain ⟨hsplit, hlength⟩ := startOfArgSig_split hfound
      split at h
      · cases h
      · rename_i params rest hread
        cases h
        refine ⟨_, params, rest, ⟨hknown, rfl, hsplit, ?_⟩, hread, rfl, rfl⟩
        rw [← hsplit, hlength]
        exact hfound

/-- A line with a return type is never skipped. -/
theorem processLine_of_known (hknown : (str2type (eatSpaces (cString buf))).1 ≠ .unknown) :
    processLine filename lineNo buf = syntaxError filename lineNo ∨
      ∃ func, processLine filename lineNo buf = .function func := by
  unfold processLine
  dsimp only
  rw [if_neg hknown]
  split
  · exact Or.inl rfl
  · split
    · exact Or.inl rfl
    · exact Or.inr ⟨_, rfl⟩

end Utrace
