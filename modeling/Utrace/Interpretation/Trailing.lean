import Utrace.Interpretation.Signature

/-!
# What follows a declaration on its line

`start_of_arg_sig` begins at the end of the line, so a declaration stays what it was exactly
when no parenthesis follows it. The loop over the parameters never gets to the end.
-/

namespace Utrace

variable {stacked stacked' : Int} {str left : List Char} {tmp : Nat}

/-! ## The search for the left parenthesis -/

/-- A left parenthesis is the one looked for, or lies between. -/
theorem argSigLoop_open (h : argSigLoop stacked ('(' :: str) = some tmp) :
    argSigLoop (stacked - 1) str = some tmp ∨ stacked = 1 ∧ str.length = tmp := by
  rw [argSigLoop, if_neg (by decide), if_pos rfl] at h
  split at h
  · exact Or.inl h
  · split at h
    · exact Or.inr ⟨by omega, Option.some.inj h⟩
    · cases h

/-- The position found tells how many right parentheses were open at the start. -/
theorem argSigLoop_unique (h : argSigLoop stacked str = some tmp)
    (h' : argSigLoop stacked' str = some tmp) : stacked = stacked' := by
  induction str generalizing stacked stacked' with
  | nil => cases h
  | cons c str ih =>
    by_cases hopen : c = '('
    · subst hopen
      have hearlier : ∀ stacked, argSigLoop stacked str = some tmp → str.length ≠ tmp := by
        intro stacked h
        obtain ⟨right, left, rfl, rfl⟩ := argSigLoop_eq_some h
        rw [List.length_append, List.length_cons]
        omega
      rcases argSigLoop_open h with hrest | ⟨hone, hlength⟩ <;>
        rcases argSigLoop_open h' with hrest' | ⟨hone', hlength'⟩
      · have hnext := ih hrest hrest'
        omega
      · exact (hearlier _ hrest hlength').elim
      · exact (hearlier _ hrest' hlength).elim
      · rw [hone, hone']
    · unfold argSigLoop at h h'
      rw [if_neg hopen] at h h'
      by_cases hclose : c = ')'
      · rw [if_pos hclose] at h h'
        have hnext := ih h h'
        omega
      · rw [if_neg hclose] at h h'
        exact ih h h'

/-- Text without parentheses behind it does not change the position. -/
theorem startOfArgSig_append (h : NoParens left) (str : List Char) :
    startOfArgSig (str ++ left) = startOfArgSig str := by
  rw [startOfArgSig, List.reverse_append, argSigLoop_append (noParens_reverse.mpr h), startOfArgSig]

/-- Text behind it leaves the position alone only without parentheses. -/
theorem noParens_of_startOfArgSig_append (h : startOfArgSig str = some tmp)
    (h' : startOfArgSig (str ++ left) = some tmp) : NoParens left := by
  by_contra hparen
  obtain ⟨right, before, hstr, hlength⟩ := argSigLoop_eq_some h
  have htmp : tmp < str.reverse.length := by
    rw [hstr, List.length_append, List.length_cons]
    omega
  rw [startOfArgSig, List.reverse_append] at h'
  obtain ⟨stacked, hleft, hpos⟩ := argSigLoop_past le_rfl h' htmp
  have hstacked : 0 < stacked := hpos (Or.inl fun hnone => hparen (noParens_reverse.mp hnone))
  have hzero := argSigLoop_unique h hleft
  omega

/-- Without a right parenthesis after it no left parenthesis is found. -/
theorem argSigLoop_of_notMem (h : ')' ∉ str) (left : List Char) :
    argSigLoop 0 (str ++ '(' :: left) = none := by
  induction str with
  | nil => rfl
  | cons c str ih =>
    rw [List.mem_cons, not_or] at h
    rw [List.cons_append, argSigLoop, if_neg (Ne.symm h.1)]
    split
    · rfl
    · exact ih h.2

/-- There is a right parenthesis after the left one found. -/
theorem mem_of_startOfArgSig {name text : List Char}
    (h : startOfArgSig (name ++ '(' :: text) = some tmp) : ')' ∈ text := by
  by_contra hnone
  have hreverse : (name ++ '(' :: text).reverse = text.reverse ++ '(' :: name.reverse := by simp
  rw [startOfArgSig, hreverse, argSigLoop_of_notMem (by simpa using hnone)] at h
  cases h

/-! ## The loop over the parameters -/

/-- A field has no right parenthesis. -/
theorem close_notMem_text (p : Field) : ')' ∉ p.text :=
  fun hmem => (noParens_listChars _ (Field.mem_listChars hmem)).2 rfl

/-- A right parenthesis in a text that begins without one. -/
theorem split_at_close {first inside rest after : List Char} {c : Char} (hfirst : ')' ∉ first)
    (h : first ++ c :: rest = inside ++ ')' :: after) :
    c = ')' ∧ inside = first ∧ rest = after ∨
      ∃ more, inside = first ++ c :: more ∧ rest = more ++ ')' :: after := by
  rcases List.append_eq_append_iff.mp h with ⟨more, rfl, hmore⟩ | ⟨more, rfl, hmore⟩
  · cases more with
    | nil =>
      obtain ⟨rfl, rfl⟩ := List.cons.inj hmore
      exact Or.inl ⟨rfl, List.append_nil _, rfl⟩
    | cons d more =>
      obtain ⟨rfl, rfl⟩ := List.cons.inj hmore
      exact Or.inr ⟨more, rfl, rfl⟩
  · cases more with
    | nil =>
      obtain ⟨rfl, rfl⟩ := List.cons.inj hmore
      exact Or.inl ⟨rfl, (List.append_nil _).symm, rfl⟩
    | cons d more =>
      obtain ⟨rfl, _⟩ := List.cons.inj hmore
      exact (hfirst (by simp)).elim

/-- What is read up to a right parenthesis does not depend on what follows it. -/
theorem Reads.replace {turns : Nat} {ps : List Field} {inside after rest : List Char}
    (h : Reads turns (inside ++ ')' :: after) ps rest) (after' : List Char) :
    ∃ rest', Reads turns (inside ++ ')' :: after') ps rest' := by
  generalize hstr : inside ++ ')' :: after = str at h
  induction h generalizing inside with
  | full str => exact ⟨_, .full _⟩
  | close turns n str =>
    have hspaces : ')' ∉ spaces n := by
      intro hmem
      exact absurd (List.eq_of_mem_replicate hmem) (by decide)
    rcases split_at_close hspaces hstr.symm with ⟨_, rfl, _⟩ | ⟨more, rfl, _⟩
    · exact ⟨_, .close turns n after'⟩
    · rw [List.append_assoc]
      exact ⟨_, .close turns n _⟩
  | last turns p str hwritten =>
    rcases split_at_close (close_notMem_text p) hstr.symm with ⟨_, rfl, _⟩ | ⟨more, rfl, _⟩
    · exact ⟨_, .last turns p after' hwritten⟩
    · rw [List.append_assoc]
      exact ⟨_, .last turns p _ hwritten⟩
  | more p _ ih =>
    rcases split_at_close (close_notMem_text p) hstr.symm with ⟨hc, _⟩ | ⟨more, rfl, hrest⟩
    · exact absurd hc (by decide)
    · obtain ⟨rest', hreads⟩ := ih hrest.symm
      rw [List.append_assoc]
      exact ⟨rest', .more p hreads⟩

/-- What stands behind the signature does not matter to it. -/
theorem readParams_replace {returnType : ArgType} {turns : Nat} {params params' : Params}
    {inside after rest : List Char} (hreturn : returnType ≠ .unknown)
    (h : readParams returnType turns params (inside ++ ')' :: after) = some (params', rest))
    (after' : List Char) :
    ∃ rest', readParams returnType turns params (inside ++ ')' :: after') =
      some (params', rest') := by
  obtain ⟨ps, hreads, rfl⟩ := exists_reads hreturn h
  obtain ⟨rest', hreads'⟩ := hreads.replace after'
  exact ⟨rest', hreads'.readParams hreturn params⟩

/-! ## The line -/

variable {buf trailer name text : List Char} {returnType : ArgType} {filename : String}
  {lineNo : Nat}

/-- The string is the whole text where it holds no zero. -/
theorem cString_of_notMem (h : '\x00' ∉ buf) : cString buf = buf := by
  refine List.takeWhile_eq_self_iff.mpr fun c hc => ?_
  rw [decide_eq_true_eq]
  rintro rfl
  exact h hc

/-- A line written out: spaces, the type, spaces, the name, and the text after the left
parenthesis. -/
structure Pieces (buf : List Char) (returnType : ArgType) (name text : List Char)
    (indent gap : Nat) : Prop where
  known : returnType ≠ .unknown
  noSpace : name.head? ≠ some ' '
  ends : endsType (spaces gap ++ (name ++ ['('])) = true
  line : cString buf =
    spaces indent ++ (typeName returnType ++ (spaces gap ++ (name ++ '(' :: text)))

/-- Where a type ends does not depend on what follows the name. -/
theorem endsType_append_cons (gap : Nat) (name text : List Char) (c : Char) :
    endsType (spaces gap ++ (name ++ c :: text)) = endsType (spaces gap ++ (name ++ [c])) := by
  cases gap with
  | zero => cases name <;> rfl
  | succ gap => rfl

/-- The pieces are what `process_line` reads. -/
theorem Pieces.read {indent gap : Nat} (h : Pieces buf returnType name text indent gap) :
    (str2type (eatSpaces (cString buf))).1 = returnType ∧
      eatSpaces (str2type (eatSpaces (cString buf))).2 = name ++ '(' :: text := by
  obtain ⟨c, rest, htype, hc⟩ := head_typeName h.known
  have hends := (endsType_append_cons gap name text '(').trans h.ends
  have hread : str2type (eatSpaces (cString buf)) =
      (returnType, spaces gap ++ (name ++ '(' :: text)) := by
    rw [h.line, eatSpaces_spaces indent]
    · exact str2type_typeName h.known hends
    · rw [htype]
      intro hhead
      cases hhead
      exact hc (by decide)
  rw [hread]
  refine ⟨rfl, eatSpaces_spaces gap ?_⟩
  cases name with
  | nil =>
    intro hhead
    cases hhead
  | cons d name => exact h.noSpace

/-- A line in which a signature is found, piece by piece. -/
theorem located_iff : Located buf returnType name text ↔
    startOfArgSig (name ++ '(' :: text) = some name.length ∧
      ∃ indent gap, Pieces buf returnType name text indent gap := by
  constructor
  · intro h
    refine ⟨h.found, ?_⟩
    obtain ⟨indent, hindent⟩ := exists_spaces (cString buf)
    obtain ⟨gap, hgap⟩ := exists_spaces (str2type (eatSpaces (cString buf))).2
    have hhead := head_eatSpaces (str2type (eatSpaces (cString buf))).2
    rw [h.split] at hgap hhead
    rcases str2type_cases (eatSpaces (cString buf)) with ⟨type, rest, _, hstr, hend, hread⟩ | hnone
    · have hsame : type = returnType := by rw [← h.type, hread]
      subst hsame
      rw [hread] at hgap
      dsimp only at hgap
      refine ⟨indent, gap, h.known, ?_, ?_, ?_⟩
      · cases name with
        | nil =>
          intro hspace
          cases hspace
        | cons c name => exact hhead
      · rw [← endsType_append_cons gap name text, ← hgap]
        exact hend
      · rw [hindent, hstr, hgap]
    · have htype := h.type
      rw [hnone] at htype
      exact (h.known htype.symm).elim
  · rintro ⟨hfound, indent, gap, hpieces⟩
    exact ⟨hpieces.known, hpieces.read.1, hpieces.read.2, hfound⟩

/-- Text behind the line is text behind its last piece. -/
theorem Pieces.append {indent gap : Nat} (h : Pieces buf returnType name text indent gap)
    (hzero : '\x00' ∉ buf ++ trailer) :
    Pieces (buf ++ trailer) returnType name (text ++ trailer) indent gap := by
  refine ⟨h.known, h.noSpace, h.ends, ?_⟩
  have hbuf := h.line
  rw [cString_of_notMem fun hmem => hzero (List.mem_append_left _ hmem)] at hbuf
  rw [cString_of_notMem hzero, hbuf]
  simp only [List.append_assoc, List.cons_append]

/-- The pieces without the text behind the line, where that holds no parenthesis. -/
theorem Pieces.of_append {indent gap : Nat}
    (h : Pieces (buf ++ trailer) returnType name text indent gap)
    (hzero : '\x00' ∉ buf ++ trailer) (htrailer : NoParens trailer) :
    ∃ before, text = before ++ trailer ∧ Pieces buf returnType name before indent gap := by
  have hflat : buf ++ trailer =
      (spaces indent ++ (typeName returnType ++ (spaces gap ++ name))) ++ '(' :: text := by
    rw [← cString_of_notMem hzero, h.line]
    simp only [List.append_assoc]
  have hnone : '(' ∉ trailer := fun hmem => (htrailer _ hmem).1 rfl
  have hbuf : ∃ before, text = before ++ trailer ∧
      buf = (spaces indent ++ (typeName returnType ++ (spaces gap ++ name))) ++ '(' :: before := by
    rcases List.append_eq_append_iff.mp hflat with ⟨more, _, htail⟩ | ⟨more, hmore, htail⟩
    · exact (hnone (by rw [htail]; simp)).elim
    · cases more with
      | nil => exact (hnone (by rw [← List.nil_append trailer, ← htail]; simp)).elim
      | cons c more =>
        obtain ⟨rfl, htext⟩ := List.cons.inj htail
        exact ⟨more, htext, hmore⟩
  obtain ⟨before, rfl, rfl⟩ := hbuf
  refine ⟨before, rfl, h.known, h.noSpace, h.ends, ?_⟩
  rw [cString_of_notMem fun hmem => hzero (List.mem_append_left _ hmem)]
  simp only [List.append_assoc]

/-- Nor does the start of the signature. -/
theorem startOfArgSig_text (htrailer : NoParens trailer) (name text : List Char) :
    startOfArgSig (name ++ '(' :: (text ++ trailer)) = startOfArgSig (name ++ '(' :: text) := by
  rw [← startOfArgSig_append htrailer (name ++ '(' :: text), List.append_assoc, List.cons_append]

/-- Text without parentheses behind a line in which a signature is found. -/
theorem Located.append (h : Located buf returnType name text) (hzero : '\x00' ∉ buf ++ trailer)
    (htrailer : NoParens trailer) : Located (buf ++ trailer) returnType name (text ++ trailer) := by
  obtain ⟨hfound, indent, gap, hpieces⟩ := located_iff.mp h
  refine located_iff.mpr ⟨?_, indent, gap, hpieces.append hzero⟩
  rw [startOfArgSig_text htrailer]
  exact hfound

/-- The signature was there before the text behind it. -/
theorem Located.of_append (h : Located (buf ++ trailer) returnType name text)
    (hzero : '\x00' ∉ buf ++ trailer) (htrailer : NoParens trailer) :
    ∃ before, text = before ++ trailer ∧ Located buf returnType name before := by
  obtain ⟨hfound, indent, gap, hpieces⟩ := located_iff.mp h
  obtain ⟨before, rfl, hbefore⟩ := hpieces.of_append hzero htrailer
  refine ⟨before, rfl, located_iff.mpr ⟨?_, indent, gap, hbefore⟩⟩
  rw [← startOfArgSig_text htrailer]
  exact hfound

/-- Where the name stays the same, the text behind the line holds no parenthesis. -/
theorem Located.noParens_of_append {text' : List Char} (h : Located buf returnType name text)
    (hzero : '\x00' ∉ buf ++ trailer) (h' : Located (buf ++ trailer) returnType name text') :
    NoParens trailer := by
  obtain ⟨hfound, indent, gap, hpieces⟩ := located_iff.mp h
  have hsame := h'.split.symm.trans (hpieces.append hzero).read.2
  have hfound' := h'.found
  rw [hsame, ← List.cons_append, ← List.append_assoc] at hfound'
  exact noParens_of_startOfArgSig_append hfound hfound'

/-- When a function is returned, and which. -/
theorem processLine_eq_function_iff {func : Function} :
    processLine filename lineNo buf = .function func ↔
      ∃ text params rest, Located buf func.returnType func.name text ∧
        readParams func.returnType maxArgs .none text = some (params, rest) ∧
        func.argTypes = params.argTypes ∧ func.paramsRight = params.paramsRight := by
  constructor
  · exact located_of_function
  · rintro ⟨text, params, rest, hlocated, hread, hargs, hright⟩
    obtain ⟨func', hfunc, hname, htype, hargs', hright'⟩ :=
      hlocated.processLine_some filename lineNo hread
    have hsame : func' = func := by
      cases func
      cases func'
      simp_all
    rw [hfunc, hsame]

/-- Text without parentheses behind it changes nothing about what is made of a line. -/
theorem processLine_append {func : Function} (hzero : '\x00' ∉ buf ++ trailer)
    (htrailer : NoParens trailer) :
    processLine filename lineNo (buf ++ trailer) = .function func ↔
      processLine filename lineNo buf = .function func := by
  rw [processLine_eq_function_iff, processLine_eq_function_iff]
  constructor
  · rintro ⟨text, params, rest, hlocated, hread, hargs⟩
    obtain ⟨before, rfl, hbefore⟩ := hlocated.of_append hzero htrailer
    obtain ⟨inside, after, rfl⟩ := List.append_of_mem (mem_of_startOfArgSig hbefore.found)
    rw [List.append_assoc, List.cons_append] at hread
    obtain ⟨rest', hread'⟩ := readParams_replace hlocated.known hread after
    exact ⟨_, params, rest', hbefore, hread', hargs⟩
  · rintro ⟨text, params, rest, hlocated, hread, hargs⟩
    obtain ⟨inside, after, rfl⟩ := List.append_of_mem (mem_of_startOfArgSig hlocated.found)
    obtain ⟨rest', hread'⟩ := readParams_replace hlocated.known hread (after ++ trailer)
    refine ⟨_, params, rest', hlocated.append hzero htrailer, ?_, hargs⟩
    rw [List.append_assoc, List.cons_append]
    exact hread'

/-- A declaration of one parameter. -/
def oneInt : Function where
  name := ['f']
  returnType := .int
  argTypes := [.int]
  paramsRight := 0
  bounded := by decide
  right_le := by decide

/-- A sample line. -/
theorem processLine_oneInt (filename : String) (lineNo : Nat) :
    processLine filename lineNo "int f(int);".toList = .function oneInt := by
  have hlocated : Located "int f(int);".toList .int ['f'] "int);".toList :=
    ⟨by decide, by decide, by decide, by decide⟩
  exact processLine_eq_function_iff.mpr ⟨_, ⟨[.int], 0, by decide⟩, _, hlocated, rfl, rfl, rfl⟩

end Utrace
