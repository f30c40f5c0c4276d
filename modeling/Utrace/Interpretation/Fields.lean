import Utrace.Native.Config
import Mathlib.Data.List.TakeWhile

/-!
# Parameters as text

The parameters of a declaration are fields of text between commas. What the loop of
`process_line` reads is described by the text alone. A field may lack its type.
-/

namespace Utrace

/-- The name of a type in a declaration. -/
def typeName (type : ArgType) : List Char :=
  ((listOfPt.find? fun tmp => tmp.2 = type).map Prod.fst).getD []

/-- Some spaces. -/
def spaces (n : Nat) : List Char := List.replicate n ' '

/-- A parameter as it is written, with the spaces around it; where no type is written, the
type is `unknown`. -/
structure Field where
  before : Nat := 0
  plus : Bool
  type : ArgType
  after : Nat := 0

/-- The text of a parameter from its first character on. -/
def Field.body (p : Field) : List Char :=
  (if p.plus then ['+'] else []) ++ (typeName p.type ++ spaces p.after)

/-- The text of a parameter. -/
def Field.text (p : Field) : List Char := spaces p.before ++ p.body

/-- Something is written. -/
def Field.Written (p : Field) : Prop := p.plus = true ∨ p.type ≠ .unknown

/-- What the loop over the parameters reads in a number of turns, and what it leaves. -/
inductive Reads : Nat → List Char → List Field → List Char → Prop
  /-- All turns are used up, and the rest is not looked at. -/
  | full (str : List Char) : Reads 0 str [] str
  | close (turns n : Nat) (str : List Char) :
    Reads (turns + 1) (spaces n ++ ')' :: str) [] (')' :: str)
  | last (turns : Nat) (p : Field) (str : List Char) (hwritten : p.Written) :
    Reads (turns + 1) (p.text ++ ')' :: str) [p] (')' :: str)
  | more {turns : Nat} (p : Field) {str rest : List Char} {ps : List Field}
    (h : Reads turns str ps rest) : Reads (turns + 1) (p.text ++ ',' :: str) (p :: ps) rest

/-- The parameters after some more were read. -/
def Params.addAll (params : Params) (ps : List Field) : Params :=
  ps.foldl (fun params p => params.add p.plus p.type) params

/-! ## Spaces and type names -/

/-- Nothing is eaten in front of another character. -/
theorem eatSpaces_of_head {str : List Char} (h : str.head? ≠ some ' ') : eatSpaces str = str := by
  cases str with
  | nil => rfl
  | cons c str =>
    have hc : c ≠ ' ' := fun hc => h (by rw [hc]; rfl)
    simp [eatSpaces, hc]

/-- Spaces are eaten up to it. -/
theorem eatSpaces_spaces (n : Nat) {str : List Char} (h : str.head? ≠ some ' ') :
    eatSpaces (spaces n ++ str) = str := by
  induction n with
  | zero => exact eatSpaces_of_head h
  | succ n ih => simpa [spaces, List.replicate_succ, eatSpaces] using ih

/-- Behind eaten spaces there is none. -/
theorem head_eatSpaces (str : List Char) : (eatSpaces str).head? ≠ some ' ' := by
  intro h
  have hnot := List.head?_dropWhile_not (fun c : Char => decide (c = ' ')) str
  rw [show List.dropWhile (fun c => decide (c = ' ')) str = eatSpaces str from rfl, h] at hnot
  simp at hnot

/-- What is eaten are spaces. -/
theorem exists_spaces (str : List Char) : ∃ n, str = spaces n ++ eatSpaces str := by
  refine ⟨(str.takeWhile (· = ' ')).length, ?_⟩
  have hall : str.takeWhile (· = ' ') = spaces (str.takeWhile (· = ' ')).length := by
    refine List.eq_replicate_length.mpr fun c hc => ?_
    simpa using List.mem_takeWhile_imp hc
  rw [← hall]
  exact List.takeWhile_append_dropWhile.symm

/-- Every type but `unknown` has a name, which the list of names gives back. -/
theorem typeName_of_mem {tmp : List Char × ArgType} (h : tmp ∈ listOfPt) :
    typeName tmp.2 = tmp.1 ∧ tmp.2 ≠ .unknown := by
  revert tmp
  decide

/-- A type ends in front of its separators. -/
theorem endsType_cons (c : Char) (str : List Char) :
    endsType (c :: str) = decide (c ∈ " ,)#".toList) := rfl

/-- A type name is recognised where it ends. -/
theorem str2type_typeName {type : ArgType} (htype : type ≠ .unknown) {str : List Char}
    (hends : endsType str = true) : str2type (typeName type ++ str) = (type, str) := by
  cases type with
  | unknown => exact (htype rfl).elim
  | _ => simp [str2type, listOfPt, typeName, endsType_cons, hends]

/-- `str2type` recognises the name at the head of a string, or moves on nothing. -/
theorem str2type_cases (str : List Char) :
    (∃ type rest, type ≠ .unknown ∧ str = typeName type ++ rest ∧ endsType rest = true ∧
      str2type str = (type, rest)) ∨ str2type str = (.unknown, str) := by
  unfold str2type
  split
  · rename_i tmp hfind
    obtain ⟨hname, hknown⟩ := typeName_of_mem (List.mem_of_find?_eq_some hfind)
    have hmatch := List.find?_some hfind
    rw [Bool.and_eq_true, List.isPrefixOf_iff_prefix] at hmatch
    obtain ⟨⟨rest, hrest⟩, hends⟩ := hmatch
    have hdrop : str.drop tmp.1.length = rest := by rw [← hrest, List.drop_left]
    rw [hdrop] at hends ⊢
    exact Or.inl ⟨tmp.2, rest, hknown, by rw [hname, hrest], hends, rfl⟩
  · exact Or.inr rfl

/-- No type name begins with a character that may follow one, or with a `+`. -/
theorem head_typeName {type : ArgType} (htype : type ≠ .unknown) :
    ∃ c rest, typeName type = c :: rest ∧ c ∉ " ,)#+".toList := by
  cases type with
  | unknown => exact (htype rfl).elim
  | _ => exact ⟨_, _, rfl, by decide⟩

/-- Where no name can begin, none is recognised. -/
theorem str2type_of_head {c : Char} {str : List Char} (hc : c ∈ " ,)#+".toList) :
    str2type (c :: str) = (.unknown, c :: str) := by
  rcases str2type_cases (c :: str) with ⟨type, rest, htype, hstr, _⟩ | hnone
  · obtain ⟨c', rest', hname, hnot⟩ := head_typeName htype
    rw [hname, List.cons_append, List.cons.injEq] at hstr
    exact (hnot (hstr.1 ▸ hc)).elim
  · exact hnone

/-! ## One field -/

/-- What one turn of the loop reads from the first character of a parameter on. -/
def readField (str : List Char) : (Bool × ArgType) × List Char :=
  let plus := str.head? = some '+'
  let read := str2type (if plus then str.tail else str)
  ((plus, read.1), eatSpaces read.2)

/-- A field behind a plus. -/
theorem readField_plus (str : List Char) :
    readField ('+' :: str) = ((true, (str2type str).1), eatSpaces (str2type str).2) := rfl

/-- A field without one. -/
theorem readField_of_head {str : List Char} (h : str.head? ≠ some '+') :
    readField str = ((false, (str2type str).1), eatSpaces (str2type str).2) := by
  simp [readField, h]

/-- The type of a field, or its absence, is seen at the spaces and the separator after it. -/
theorem str2type_field (type : ArgType) (n : Nat) {c : Char} (hc : c = ',' ∨ c = ')')
    (str : List Char) :
    str2type (typeName type ++ (spaces n ++ c :: str)) = (type, spaces n ++ c :: str) := by
  have hmem : c ∈ " ,)#+".toList ∧ decide (c ∈ " ,)#".toList) = true := by
    rcases hc with rfl | rfl <;> decide
  by_cases htype : type = .unknown
  · subst htype
    cases n with
    | zero => exact str2type_of_head hmem.1
    | succ n => exact str2type_of_head (by decide)
  · refine str2type_typeName htype ?_
    cases n with
    | zero => exact hmem.2
    | succ n => rfl

/-- The field at the head of a text is read. -/
theorem readField_body (p : Field) {c : Char} (hc : c = ',' ∨ c = ')') (str : List Char) :
    readField (p.body ++ c :: str) = ((p.plus, p.type), c :: str) := by
  have hnot : c ≠ ' ' ∧ c ≠ '+' := by
    rcases hc with rfl | rfl <;> decide
  have heat : eatSpaces (spaces p.after ++ c :: str) = c :: str :=
    eatSpaces_spaces p.after fun hspace => hnot.1 (Option.some.inj hspace)
  unfold Field.body
  rw [List.append_assoc, List.append_assoc]
  cases hplus : p.plus with
  | true =>
    rw [if_pos rfl, List.singleton_append, readField_plus, str2type_field p.type p.after hc, heat]
  | false =>
    rw [if_neg Bool.false_ne_true, List.nil_append, readField_of_head,
      str2type_field p.type p.after hc, heat]
    by_cases htype : p.type = .unknown
    · rw [htype]
      cases p.after with
      | zero => exact fun hhead => hnot.2 (Option.some.inj hhead)
      | succ n => exact fun hhead => by cases hhead
    · obtain ⟨c', rest, hname, hc'⟩ := head_typeName htype
      rw [hname]
      intro hhead
      cases hhead
      exact hc' (by decide)

/-- Whatever is read is a field at the head of the text. -/
theorem exists_readField (str : List Char) :
    ∃ p : Field, p.before = 0 ∧ str = p.body ++ (readField str).2 ∧
      (readField str).1 = (p.plus, p.type) := by
  have hread : ∀ str, ∃ type n, str = typeName type ++ (spaces n ++ eatSpaces (str2type str).2) ∧
      (str2type str).1 = type := by
    intro str
    rcases str2type_cases str with ⟨type, rest, _, hstr, _, hread⟩ | hread
    · obtain ⟨n, hn⟩ := exists_spaces rest
      rw [hread]
      exact ⟨type, n, by rw [← hn, hstr], rfl⟩
    · obtain ⟨n, hn⟩ := exists_spaces str
      rw [hread]
      exact ⟨.unknown, n, by rw [← hn]; rfl, rfl⟩
  by_cases hplus : str.head? = some '+'
  · obtain ⟨rest, rfl⟩ : ∃ rest, str = '+' :: rest := ⟨str.tail, (List.cons_head?_tail hplus).symm⟩
    obtain ⟨type, n, hrest, htype⟩ := hread rest
    rw [readField_plus]
    refine ⟨⟨0, true, type, n⟩, rfl, ?_, by rw [htype]⟩
    rw [Field.body, if_pos rfl, List.append_assoc, List.append_assoc, ← hrest,
      List.singleton_append]
  · obtain ⟨type, n, hstr, htype⟩ := hread str
    rw [readField_of_head hplus]
    refine ⟨⟨0, false, type, n⟩, rfl, ?_, by rw [htype]⟩
    rw [Field.body, if_neg Bool.false_ne_true, List.nil_append, List.append_assoc, ← hstr]

/-! ## The loop over the parameters -/

variable {returnType : ArgType} {turns : Nat} {params params' : Params} {str rest : List Char}
  {ps : List Field}

/-- One turn that does not find the end. -/
theorem readParams_succ (hreturn : returnType ≠ .unknown)
    (hopen : (eatSpaces str).head? ≠ some ')') :
    readParams returnType (turns + 1) params str =
      match (readField (eatSpaces str)).2 with
      | ',' :: rest => readParams returnType turns
        (params.add (readField (eatSpaces str)).1.1 (readField (eatSpaces str)).1.2) rest
      | ')' :: rest => readParams returnType turns
        (params.add (readField (eatSpaces str)).1.1 (readField (eatSpaces str)).1.2) (')' :: rest)
      | _ => none := by
  rw [readParams]
  split
  · rename_i hclose
    rw [hclose] at hopen
    exact (hopen rfl).elim
  · rw [if_neg hreturn]
    rfl

/-- The loop stops at a parenthesis. -/
theorem readParams_paren (returnType : ArgType) (turns : Nat) (params : Params)
    (str : List Char) :
    readParams returnType turns params (')' :: str) = some (params, ')' :: str) := by
  cases turns with
  | zero => rfl
  | succ turns => rfl

/-- Spaces in front of it are passed over. -/
theorem readParams_close {n : Nat} :
    readParams returnType (turns + 1) params (spaces n ++ ')' :: str) =
      some (params, ')' :: str) := by
  rw [readParams, eatSpaces_spaces n (by simp)]
  rfl

/-- A field that is not written has spaces only. -/
theorem Field.body_of_not_written {p : Field} (h : ¬p.Written) : p.body = spaces p.after := by
  unfold Field.Written at h
  push Not at h
  rw [Field.body, if_neg h.1, h.2]
  rfl

/-- A field that is written begins with a character of its own. -/
theorem Field.head_body {p : Field} (h : p.Written) (str : List Char) :
    ∃ c rest, p.body ++ str = c :: rest ∧ c ≠ ' ' ∧ c ≠ ')' := by
  unfold Field.body
  cases hplus : p.plus with
  | true => exact ⟨'+', _, rfl, by decide, by decide⟩
  | false =>
    have htype : p.type ≠ .unknown := h.resolve_left (by rw [hplus]; exact Bool.false_ne_true)
    obtain ⟨c, rest, hname, hc⟩ := head_typeName htype
    refine ⟨c, rest ++ (spaces p.after ++ str), ?_, ?_, ?_⟩
    · rw [if_neg Bool.false_ne_true, List.nil_append, hname, List.append_assoc,
        List.cons_append]
    · rintro rfl
      exact hc (by decide)
    · rintro rfl
      exact hc (by decide)

/-- Without the spaces in front, a field with a separator behind it begins with no closing
parenthesis, unless that is the separator and nothing is written. -/
theorem eatSpaces_text (p : Field) {c : Char} (hc : c ≠ ' ')
    (hopen : p.Written ∨ c ≠ ')') (str : List Char) :
    ∃ q : Field, q.plus = p.plus ∧ q.type = p.type ∧
      eatSpaces (p.text ++ c :: str) = q.body ++ c :: str ∧
      (q.body ++ c :: str).head? ≠ some ')' := by
  unfold Field.text
  rw [List.append_assoc]
  by_cases hwritten : p.Written
  · obtain ⟨c', rest, hbody, hspace, hparen⟩ := Field.head_body hwritten (c :: str)
    refine ⟨p, rfl, rfl, eatSpaces_spaces _ ?_, ?_⟩
    · rw [hbody]
      exact fun hhead => hspace (Option.some.inj hhead)
    · rw [hbody]
      exact fun hhead => hparen (Option.some.inj hhead)
  · have hnone : (⟨0, p.plus, p.type, 0⟩ : Field).body = [] :=
      Field.body_of_not_written (p := ⟨0, p.plus, p.type, 0⟩) hwritten
    have hhead : ∀ c', c ≠ c' → (c :: str).head? ≠ some c' :=
      fun c' hne h => hne (Option.some.inj h)
    refine ⟨⟨0, p.plus, p.type, 0⟩, rfl, rfl, ?_, ?_⟩
    · rw [hnone, Field.body_of_not_written hwritten, List.nil_append,
        ← List.append_assoc, spaces, spaces, List.replicate_append_replicate]
      exact eatSpaces_spaces _ (hhead ' ' hc)
    · rw [hnone]
      exact hhead ')' (hopen.resolve_left hwritten)

/-- A field and the separator behind it are one turn. -/
theorem readParams_text (hreturn : returnType ≠ .unknown) (p : Field) {c : Char}
    (hc : c = ',' ∨ c = ')' ∧ p.Written) :
    readParams returnType (turns + 1) params (p.text ++ c :: str) =
      readParams returnType turns (params.add p.plus p.type)
        (if c = ',' then str else c :: str) := by
  have hspace : c ≠ ' ' := by
    rcases hc with rfl | ⟨rfl, _⟩ <;> decide
  have hopen : p.Written ∨ c ≠ ')' := by
    rcases hc with rfl | ⟨_, hwritten⟩
    · exact Or.inr (by decide)
    · exact Or.inl hwritten
  obtain ⟨q, hplus, htype, heat, hhead⟩ := eatSpaces_text p hspace hopen str
  rw [readParams_succ hreturn (by rw [heat]; exact hhead), heat,
    readField_body q (hc.imp id And.left), hplus, htype]
  rcases hc with rfl | ⟨rfl, _⟩ <;> rfl

/-- The loop reads what the text describes. -/
theorem Reads.readParams (hreturn : returnType ≠ .unknown) (h : Reads turns str ps rest)
    (params : Params) :
    readParams returnType turns params str = some (params.addAll ps, rest) := by
  induction h generalizing params with
  | full str => rfl
  | close turns n str => exact readParams_close
  | last turns p str hwritten =>
    rw [readParams_text hreturn p (Or.inr ⟨rfl, hwritten⟩), if_neg (by decide), readParams_paren]
    rfl
  | more p _ ih =>
    rw [readParams_text hreturn p (Or.inl rfl), if_pos rfl, ih]
    rfl

/-- Whatever the loop reads, the text describes. -/
theorem exists_reads (hreturn : returnType ≠ .unknown)
    (h : readParams returnType turns params str = some (params', rest)) :
    ∃ ps, Reads turns str ps rest ∧ params' = params.addAll ps := by
  induction turns generalizing params str with
  | zero =>
    cases h
    exact ⟨[], .full _, rfl⟩
  | succ turns ih =>
    obtain ⟨n, hstr⟩ := exists_spaces str
    by_cases hclose : (eatSpaces str).head? = some ')'
    · obtain ⟨tail, htail⟩ : ∃ tail, eatSpaces str = ')' :: tail :=
        ⟨_, (List.cons_head?_tail hclose).symm⟩
      rw [hstr, htail, readParams_close] at h
      cases h
      rw [hstr, htail]
      exact ⟨[], .close turns n tail, rfl⟩
    · obtain ⟨p, hbefore, hbody, hread⟩ := exists_readField (eatSpaces str)
      have htext : str = (⟨n, p.plus, p.type, p.after⟩ : Field).text ++
          (readField (eatSpaces str)).2 := by
        rw [Field.text, List.append_assoc]
        exact hbody ▸ hstr
      rw [readParams_succ hreturn hclose, hread] at h
      split at h
      · rename_i tail hsep
        obtain ⟨ps, hreads, hparams⟩ := ih h
        rw [hsep] at htext
        rw [htext]
        exact ⟨_, .more _ hreads, hparams⟩
      · rename_i tail hsep
        rw [readParams_paren] at h
        cases h
        have hwritten : p.Written := by
          by_contra hnot
          rw [hsep, Field.body_of_not_written hnot] at hbody
          cases hafter : p.after with
          | zero =>
            rw [hafter] at hbody
            exact hclose (by rw [hbody]; rfl)
          | succ k =>
            rw [hafter] at hbody
            exact head_eatSpaces str (by rw [hbody]; rfl)
        rw [hsep] at htext
        rw [htext]
        exact ⟨_, .last turns _ tail hwritten, rfl⟩
      · cases h

end Utrace
