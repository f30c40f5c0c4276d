import Utrace.Interpretation.Trailing

/-!
# A declaration is read back from its line

Rendered with any spaces that the format allows and any text behind it without parentheses,
a declaration comes back from `process_line` as it was.
-/

namespace Utrace

/-- A declaration, with the spaces around its parameters. -/
structure Declaration where
  returnType : ArgType
  name : List Char
  params : List Field
  known : returnType ≠ .unknown
  nonempty : name ≠ []
  noZero : '\x00' ∉ name
  noSpace : name.head? ≠ some ' '
  types : ∀ p ∈ params, p.type ≠ .unknown
  fits : params.length ≤ maxArgs

/-- The parameters between commas. -/
def paramsText : List Field → List Char
  | [] => []
  | [p] => p.text
  | p :: q :: ps => p.text ++ ',' :: paramsText (q :: ps)

namespace Declaration

/-- The line of a declaration, with spaces before the return type, one or more after it, and
text behind the signature. -/
def render (d : Declaration) (indent gap : Nat) (trailer : List Char) : List Char :=
  spaces indent ++ (typeName d.returnType ++ (spaces (gap + 1) ++
    (d.name ++ '(' :: (paramsText d.params ++ ')' :: trailer))))

end Declaration

/-- The text of some fields is a list of them. -/
theorem commaList_paramsText {ps : List Field} (h : ∀ p ∈ ps, p.type ≠ .unknown) :
    CommaList (paramsText ps) ps := by
  induction ps with
  | nil => exact .blank 0
  | cons p ps ih =>
    obtain ⟨hp, hps⟩ := List.forall_mem_cons.mp h
    cases ps with
    | nil => exact .last p hp
    | cons q ps => exact .more p hp (ih hps)

/-- Text without a zero is part of the string. -/
theorem cString_append {str : List Char} (h : '\x00' ∉ str) (rest : List Char) :
    cString (str ++ rest) = str ++ cString rest := by
  refine List.takeWhile_append_of_pos fun c hc => ?_
  rw [decide_eq_true_eq]
  rintro rfl
  exact h hc

/-- A character before the end is in the string. -/
theorem cString_cons {c : Char} (h : c ≠ '\x00') (rest : List Char) :
    cString (c :: rest) = c :: cString rest := by
  simp [cString, h]

/-- Spaces are no zero bytes. -/
theorem zero_notMem_spaces (n : Nat) : '\x00' ∉ spaces n := by
  intro hmem
  exact absurd (List.eq_of_mem_replicate hmem) (by decide)

/-- Nor are the letters of a type name. -/
theorem zero_notMem_typeName (type : ArgType) : '\x00' ∉ typeName type := by
  cases type <;> decide

/-- The string has no parentheses if the text has none. -/
theorem noParens_cString {str : List Char} (h : NoParens str) : NoParens (cString str) :=
  fun c hc => h c ((List.takeWhile_prefix _).subset hc)

namespace Declaration

variable (d : Declaration) {trailer : List Char}

/-- Of the line, only the text behind the signature may hold a zero. -/
theorem cString_render (indent gap : Nat) :
    cString (d.render indent gap trailer) = d.render indent gap (cString trailer) := by
  have hparams : '\x00' ∉ paramsText d.params := by
    have hall : '\x00' ∉ listChars := by decide
    exact fun hmem => hall ((commaList_paramsText d.types).mem_listChars hmem)
  unfold render
  rw [cString_append (zero_notMem_spaces _), cString_append (zero_notMem_typeName _),
    cString_append (zero_notMem_spaces _), cString_append d.noZero, cString_cons (by decide),
    cString_append hparams, cString_cons (by decide)]

/-- A rendered line falls into its pieces. -/
theorem pieces_render (indent gap : Nat) :
    Pieces (d.render indent gap trailer) d.returnType d.name
      (paramsText d.params ++ ')' :: cString trailer) indent (gap + 1) :=
  ⟨d.known, d.noSpace, rfl, d.cString_render indent gap⟩

/-- The name and the signature are found. -/
theorem located_render (indent gap : Nat) (htrailer : NoParens trailer) :
    Located (d.render indent gap trailer) d.returnType d.name
      (paramsText d.params ++ ')' :: cString trailer) := by
  refine located_iff.mpr ⟨?_, indent, gap + 1, d.pieces_render indent gap⟩
  exact startOfArgSig_eq (commaList_paramsText d.types).noParens (noParens_cString htrailer)

end Declaration

/-- Every declaration of a function, rendered with any spaces where they are allowed and any
text without parentheses behind it, is returned by `process_line`: its name, its return type,
its parameters, and as many of them on the right as there are from the first `+` on. -/
theorem declaration_read (filename : String) (lineNo : Nat) (d : Declaration) (indent gap : Nat)
    {trailer : List Char} (htrailer : NoParens trailer) :
    ∃ func, processLine filename lineNo (d.render indent gap trailer) = .function func ∧
      func.name = d.name ∧ func.returnType = d.returnType ∧
      func.numParams = d.params.length ∧ func.argTypes = d.params.map Field.type ∧
      func.paramsRight = d.params.length - d.params.findIdx Field.plus := by
  have hlocated := d.located_render indent gap htrailer
  obtain ⟨rest, hreads, _⟩ := (commaList_paramsText d.types).reads d.fits (cString trailer)
  obtain ⟨func, hfunc, hname, hreturn, hargs, hright⟩ :=
    hlocated.processLine_some filename lineNo (hreads.readParams d.known .none)
  have htypes : func.argTypes = d.params.map Field.type := by
    rw [hargs, argTypes_addAll]
    rfl
  refine ⟨func, hfunc, hname, hreturn, ?_, htypes, ?_⟩
  · rw [Function.numParams, htypes, List.length_map]
  · rw [hright, paramsRight_addAll]
    rfl

/-- A name with parentheses, and one parameter on the right. -/
def sampleDeclaration : Declaration where
  returnType := .int
  name := "operator()".toList
  params :=
    [{ before := 1, plus := false, type := .string2 }, { plus := true, type := .int, after := 1 }]
  known := by decide
  nonempty := by decide
  noZero := by decide
  noSpace := by decide
  types := by decide
  fits := by decide

/-- That declaration is read back. -/
theorem declaration_read_sample :
    ∃ func, processLine "ltrace.conf" 1 "int  operator()( string2,+int ) ; copy".toList =
        .function func ∧ func.argTypes = [.string2, .int] ∧ func.paramsRight = 1 := by
  have htrailer : NoParens " ; copy".toList := by simp [NoParens]
  obtain ⟨func, hfunc, _, _, _, htypes, hright⟩ :=
    declaration_read "ltrace.conf" 1 sampleDeclaration 0 1 htrailer
  exact ⟨func, hfunc, htypes, hright⟩

end Utrace
