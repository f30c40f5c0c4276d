import Utrace.Interpretation.Signature

/-!
# What `process_line` accepts

A function should be returned only for a signature in which every parameter has a known type.
The check for that, inside the loop over the parameters, looks at the return type instead, and
nothing checks what follows the last parameter there is room for.
-/

namespace Utrace

variable {buf : List Char} {filename : String} {lineNo : Nat}

/-- The text between the matched parentheses is a list of a number of parameters. -/
def Lists (buf : List Char) (numParams : Nat) : Prop :=
  ∃ returnType name inside after ps, Located buf returnType name (inside ++ ')' :: after) ∧
    NoParens after ∧ CommaList inside ps ∧ ps.length = numParams

/-- The line begins with a known return type. -/
def Typed (buf : List Char) : Prop := (str2type (eatSpaces (cString buf))).1 ≠ .unknown

/-- What is promised of a line. -/
structure Checked (filename : String) (lineNo : Nat) (buf : List Char) : Prop where
  /-- A function is returned for a list of its parameters only. -/
  accepted : ∀ func, processLine filename lineNo buf = .function func → Lists buf func.numParams
  /-- Every other line with a return type is a syntax error. -/
  rejected : Typed buf → (∀ numParams, ¬Lists buf numParams) →
    processLine filename lineNo buf = syntaxError filename lineNo

/-- The text after the left parenthesis found begins with as many fields as the loop has turns
for, or with fewer up to a right parenthesis; and one of them has no type, or what follows the
last turn is not the end of the list. -/
def Careless (buf : List Char) : Prop :=
  ∃ returnType name text ps rest, Located buf returnType name text ∧
    Reads maxArgs text ps rest ∧ ((∃ p ∈ ps, p.type = .unknown) ∨ ¬Closed rest)

/-- The signature of a line is found in one way only. -/
theorem Located.unique {returnType returnType' : ArgType} {name name' text text' : List Char}
    (h : Located buf returnType name text) (h' : Located buf returnType' name' text') :
    returnType = returnType' ∧ name = name' ∧ text = text' := by
  have hsame := h.split.symm.trans h'.split
  have hlength : name.length = name'.length :=
    Option.some.inj (h.found.symm.trans ((congrArg startOfArgSig hsame).trans h'.found))
  obtain ⟨hname, htext⟩ := List.append_inj hsame hlength
  exact ⟨h.type.symm.trans h'.type, hname, (List.cons.inj htext).2⟩

/-- A function is returned for the fields read, and for no others. -/
theorem exists_reads_of_function {func : Function}
    (h : processLine filename lineNo buf = .function func) :
    ∃ text ps rest, Located buf func.returnType func.name text ∧ Reads maxArgs text ps rest ∧
      func.argTypes = ps.map Field.type := by
  obtain ⟨text, params, rest, hlocated, hread, hargs, _⟩ := located_of_function h
  obtain ⟨ps, hreads, rfl⟩ := exists_reads hlocated.known hread
  refine ⟨text, ps, rest, hlocated, hreads, ?_⟩
  rw [hargs, argTypes_addAll]
  rfl

/-- What a careless line is taken for is no list of that many parameters. -/
theorem Careless.not_checked (h : Careless buf) : ¬Checked filename lineNo buf := by
  intro hchecked
  obtain ⟨returnType, name, text, ps, rest, hlocated, hreads, hwhy⟩ := h
  have hread := hreads.readParams hlocated.known .none
  obtain ⟨func, hfunc, _, _, hargs, _⟩ := hlocated.processLine_some filename lineNo hread
  have hnum : func.numParams = ps.length := by
    rw [Function.numParams, hargs, argTypes_addAll, List.length_append, List.length_map]
    exact Nat.zero_add _
  obtain ⟨returnType', name', inside, after, qs, hlocated', _, hlist, hlength⟩ :=
    hchecked.accepted func hfunc
  obtain ⟨-, -, rfl⟩ := hlocated'.unique hlocated
  have hfits : qs.length ≤ maxArgs := by
    rw [hlength]
    exact func.bounded
  obtain ⟨rest', hreads', hclosed⟩ := hlist.reads hfits after
  have hsame := hread.symm.trans (hreads'.readParams hlocated.known .none)
  rw [Option.some.injEq, Prod.mk.injEq] at hsame
  obtain ⟨hparams, rfl⟩ := hsame
  rcases hwhy with ⟨p, hp, hunknown⟩ | hopen
  · have htypes := congrArg Params.argTypes hparams
    rw [argTypes_addAll, argTypes_addAll] at htypes
    have hmem : ArgType.unknown ∈ qs.map Field.type := by
      rw [← List.append_cancel_left htypes]
      exact List.mem_map.mpr ⟨p, hp, hunknown⟩
    obtain ⟨q, hq, hq'⟩ := List.mem_map.mp hmem
    exact hlist.known q hq hq'
  · exact hopen hclosed

/-- Any other function is returned for a list of its parameters. -/
theorem lists_of_not_careless (h : ¬Careless buf) {func : Function}
    (hfunc : processLine filename lineNo buf = .function func) : Lists buf func.numParams := by
  obtain ⟨text, ps, rest, hlocated, hreads, hargs⟩ := exists_reads_of_function hfunc
  have hknown : ∀ p ∈ ps, p.type ≠ .unknown := fun p hp hunknown =>
    h ⟨_, _, _, ps, rest, hlocated, hreads, Or.inl ⟨p, hp, hunknown⟩⟩
  have hclosed : Closed rest := by
    by_contra hopen
    exact h ⟨_, _, _, ps, rest, hlocated, hreads, Or.inr hopen⟩
  obtain ⟨inside, after, rfl, hlist⟩ := hreads.commaList hknown hclosed
  refine ⟨_, _, inside, after, ps, hlocated, ?_, hlist, ?_⟩
  · exact noParens_of_startOfArgSig hlocated.found hlist.noParens
  · rw [Function.numParams, hargs, List.length_map]

/-- For every line: it is treated as promised exactly when its text does not begin, after the
left parenthesis found, with fields of which one has no type, or with as many as there is room
for and more to come. -/
theorem checked_iff_not_careless (filename : String) (lineNo : Nat) (buf : List Char) :
    Checked filename lineNo buf ↔ ¬Careless buf := by
  constructor
  · exact fun hchecked hcareless => hcareless.not_checked hchecked
  · intro hnot
    refine ⟨fun func hfunc => lists_of_not_careless hnot hfunc, fun htyped hlists => ?_⟩
    rcases processLine_of_known htyped with herror | ⟨func, hfunc⟩
    · exact herror
    · exact (hlists _ (lists_of_not_careless hnot hfunc)).elim

/-- The first parameter of `int f(,int)` is missing. -/
theorem missing_type_accepted :
    ¬∀ (filename : String) (lineNo : Nat) (buf : List Char), Checked filename lineNo buf := by
  intro hclaim
  have hlocated : Located "int f(,int)".toList .int ['f'] ",int)".toList :=
    ⟨by decide, by decide, by decide, by decide⟩
  have hreads : Reads maxArgs ",int)".toList
      [{ plus := false, type := .unknown }, { plus := false, type := .int }] [')'] :=
    .more { plus := false, type := .unknown }
      (.last 30 { plus := false, type := .int } [] (Or.inr (by decide)))
  have hcareless : Careless "int f(,int)".toList :=
    ⟨_, _, _, _, _, hlocated, hreads, Or.inl ⟨_, List.mem_cons_self .., rfl⟩⟩
  exact hcareless.not_checked (hclaim "ltrace.conf" 1 _)

end Utrace
