import Utrace.Native.Status
import Utrace.Interpretation.StatusFile

/-!
# The group id in a status file

The field is found by its name anywhere in the text, so what stands before its line matters:
the name of the process, which the process chooses.
-/

namespace Utrace

/-- A line with a key and a value. -/
structure StatusLine where
  key : List Char
  value : List Char
  key_line : '\n' ∉ key ∧ '\x00' ∉ key ∧ ':' ∉ key
  other : key ≠ "Tgid".toList
  value_line : '\n' ∉ value ∧ '\x00' ∉ value

def StatusLine.text (line : StatusLine) : List Char :=
  line.key ++ ":\t".toList ++ line.value ++ ['\n']

/-- A status file: the name, other lines, the group id, and further lines. -/
structure Status where
  name : List Char
  earlier : List StatusLine
  tgid : Nat
  later : List StatusLine
  name_length : name.length ≤ 15
  name_line : '\n' ∉ name ∧ '\x00' ∉ name
  tgid_pos : 0 < tgid
  tgid_lt : tgid < 10 ^ 9

namespace Status

/-- The text before the line of the group id. -/
def before (status : Status) : List Char :=
  "Name:\t".toList ++ status.name ++ '\n' :: status.earlier.flatMap StatusLine.text

/-- The line of the group id behind the name of the field, and the rest of the text. -/
def behind (status : Status) : List Char :=
  '\t' :: (Nat.toDigits 10 status.tgid ++ '\n' :: status.later.flatMap StatusLine.text)

/-- The whole text. -/
def text (status : Status) : List Char := status.before ++ ("Tgid:".toList ++ status.behind)

/-- Nothing before the line of the group id contains the name of its field, or what follows the
first such place on its line begins with the same number. -/
def FieldFirst (status : Status) : Prop :=
  strstr "Tgid:".toList status.before = none ∨
    ∃ p digits, strstr "Tgid:".toList status.before = some p ∧
      FirstDigits (p.drop "Tgid:".length) digits ∧ digits.length ≤ 9 ∧
      Nat.ofDigitChars 10 digits 0 = status.tgid

variable (status : Status)

/-! ## The text -/

/-- Other lines have no zero byte. -/
theorem notMem_flatMap_text (lines : List StatusLine) :
    '\x00' ∉ lines.flatMap StatusLine.text := by
  intro hmem
  obtain ⟨line, _, hline⟩ := List.mem_flatMap.mp hmem
  have hkey := line.key_line.2.1
  have hvalue := line.value_line.2
  simp [StatusLine.text, hkey, hvalue] at hline

/-- What stands before the line of the group id, written out. -/
theorem before_eq : status.before =
    "Name:\t".toList ++ status.name ++ '\n' :: status.earlier.flatMap StatusLine.text := rfl

/-- It has no zero byte. -/
theorem notMem_before : '\x00' ∉ status.before := by
  have hlines := notMem_flatMap_text status.earlier
  have hname := status.name_line.2
  have hlabel : '\x00' ∉ "Name:\t".toList := by decide
  have hnewline : '\x00' ≠ '\n' := by decide
  rw [before_eq, List.mem_append, List.mem_append, List.mem_cons]
  rintro ((hmem | hmem) | hmem | hmem)
  · exact hlabel hmem
  · exact hname hmem
  · exact hnewline hmem
  · exact hlines hmem

/-- Nor has what stands behind the field's name. -/
theorem notMem_behind : '\x00' ∉ status.behind := by
  have hdigits : '\x00' ∉ Nat.toDigits 10 status.tgid := fun hmem =>
    absurd (Nat.isDigit_of_mem_toDigits (by omega) (by omega) hmem) (by decide)
  have hlines := notMem_flatMap_text status.later
  simp [behind, hdigits, hlines]

/-- So the whole file is read as one string. -/
theorem cString_text : cString status.text = status.text := by
  apply cString_of_notMem
  have hbefore := status.notMem_before
  have hbehind := status.notMem_behind
  simp [text, hbefore, hbehind]

/-- The line of the group id begins behind a newline. -/
theorem exists_before_eq : ∃ init, status.before = init ++ ['\n'] := by
  rcases List.eq_nil_or_concat status.earlier with hnil | ⟨lines, line, hlines⟩
  · exact ⟨"Name:\t".toList ++ status.name, by rw [before_eq, hnil]; rfl⟩
  · refine ⟨"Name:\t".toList ++ status.name ++ '\n' :: (lines.flatMap StatusLine.text ++
      (line.key ++ ":\t".toList ++ line.value)), ?_⟩
    rw [before_eq, hlines, List.concat_eq_append, List.flatMap_append]
    simp [StatusLine.text]

/-- The line of the group id begins with its number. -/
theorem firstDigits_behind : FirstDigits status.behind (Nat.toDigits 10 status.tgid) := by
  refine ⟨Nat.toDigits_ne_nil, fun c hc => Nat.isDigit_of_mem_toDigits (by omega) (by omega) hc,
    ['\t'], '\n' :: status.later.flatMap StatusLine.text, rfl, ?_, ?_⟩
  · intro c hc
    rw [List.mem_singleton.mp hc]
    decide
  · intro c hc
    cases hc
    decide

/-- A group id has nine digits at most. -/
theorem length_toDigits_tgid : (Nat.toDigits 10 status.tgid).length ≤ 9 :=
  (Nat.length_toDigits_le_iff (by omega) (by omega)).mpr status.tgid_lt

/-! ## The field found -/

/-- Where nothing before contains the field's name, the field is found. -/
theorem strstr_text_of_none (h : strstr "Tgid:".toList status.before = none) :
    strstr "Tgid:".toList status.text = some ("Tgid:".toList ++ status.behind) := by
  obtain ⟨init, hinit⟩ := status.exists_before_eq
  have hnone : strstr "Tgid:".toList init = none := by
    cases hfind : strstr "Tgid:".toList init with
    | none => rfl
    | some p =>
      rw [hinit, strstr_append (by decide) hfind] at h
      cases h
  rw [text, hinit, List.append_assoc]
  apply (strstr_past (c := '\n') (by decide) (by decide) hnone).trans
  exact strstr_eq_self (by decide) (List.prefix_append ..)

/-- Else what contains it is found first. -/
theorem strstr_text_of_some {p : List Char}
    (h : strstr "Tgid:".toList status.before = some p) :
    strstr "Tgid:".toList status.text = some (p ++ ("Tgid:".toList ++ status.behind)) :=
  strstr_append (by decide) h _

/-- What is found before the line of the group id stays on its own line. -/
theorem tgidValue_before {p : List Char} (h : strstr "Tgid:".toList status.before = some p)
    (more : List Char) : tgidValue ((p ++ more).drop "Tgid:".length) =
      tgidValue (p.drop "Tgid:".length) := by
  obtain ⟨init, hinit⟩ := status.exists_before_eq
  obtain ⟨⟨r, rfl⟩, before, hbefore⟩ := strstr_spec (by decide) h
  rw [hinit] at hbefore
  have hdrop : ∀ r, ("Tgid:".toList ++ r).drop "Tgid:".length = r := fun r => rfl
  -- the text found ends with the newline
  rcases List.eq_nil_or_concat r with rfl | ⟨line, c, rfl⟩
  · have hlast : before ++ "Tgid".toList ++ [':'] = init ++ ['\n'] := by
      rw [← hbefore, List.append_assoc]
      rfl
    cases List.append_inj_right' hlast rfl
  · have hlast : before ++ ("Tgid:".toList ++ line) ++ [c] = init ++ ['\n'] := by
      rw [← hbefore, List.concat_eq_append]
      simp only [List.append_assoc]
    cases List.append_inj_right' hlast rfl
    rw [List.concat_eq_append, List.append_assoc, hdrop, hdrop, List.append_assoc,
      List.singleton_append, tgidValue_line, tgidValue_line]

end Status

/-! ## The result -/

variable {text : List Char} {buf : TgidBuf}

/-- The text has no group id: the field is missing, its line has no digit, or its number has too
many. -/
def NoGroupId (text : List Char) : Prop :=
  strstr "Tgid:".toList (cString text) = none ∨
    ∃ p, strstr "Tgid:".toList (cString text) = some p ∧
      ((∀ c ∈ (p.drop "Tgid:".length).takeWhile (· ≠ '\n'), ¬c.isDigit) ∨
        ∃ digits, FirstDigits (p.drop "Tgid:".length) digits ∧ 10 ≤ digits.length)

/-- Without a group id the parser returns zero. -/
theorem parseTgidStr_of_noGroupId (h : NoGroupId text) : parseTgidStr text = 0 := by
  rcases h with hnone | ⟨p, hp, hline | ⟨digits, hdigits, hlong⟩⟩
  · exact parseTgidStr_of_none hnone
  · rw [parseTgidStr_of_some hp, tgidValue_of_line hline]
  · rw [parseTgidStr_of_some hp, hdigits.tgidValue_of_long hlong]

/-- For a status file the parser returns the group id exactly when the field is the first place
that contains its name, or what follows the first such place begins with the same number. On
every text it stays inside its buffer and returns zero where there is no group id. -/
theorem parse_status_iff (status : Status) (buf : TgidBuf) :
    ((parseTgidStrBuf status.text buf).1 = status.tgid ↔ status.FieldFirst) ∧
      ∀ text (buf : TgidBuf),
        (∀ i ∈ (parseTgidStrBuf text buf).2.stores, i ∈ buf.stores ∨ i < 10) ∧
          (NoGroupId text → (parseTgidStrBuf text buf).1 = 0) := by
  constructor
  · rw [parseTgidStrBuf_fst]
    cases hfind : strstr "Tgid:".toList status.before with
    | none =>
      apply iff_of_true
      · have hfound := status.strstr_text_of_none hfind
        rw [← status.cString_text] at hfound
        rw [parseTgidStr_of_some hfound]
        apply (tgidValue_eq_iff status.tgid_pos).mpr
        exact ⟨_, status.firstDigits_behind, status.length_toDigits_tgid,
          Nat.ofDigitChars_ten_toDigits⟩
      · exact Or.inl hfind
    | some p =>
      have hfound := status.strstr_text_of_some hfind
      rw [← status.cString_text] at hfound
      rw [parseTgidStr_of_some hfound, status.tgidValue_before hfind,
        tgidValue_eq_iff status.tgid_pos, Status.FieldFirst, hfind]
      simp
  · intro text buf
    refine ⟨stores_parseTgidStrBuf text buf, fun hnone => ?_⟩
    rw [parseTgidStrBuf_fst, parseTgidStr_of_noGroupId hnone]

/-- A process that is named after the field. -/
def namedTgid7 : Status where
  name := "Tgid:7".toList
  earlier := []
  tgid := 42
  later := []
  name_length := by decide
  name_line := by decide
  tgid_pos := by decide
  tgid_lt := by decide

/-- Its name is taken for the group id. -/
theorem group_id_from_name :
    (parseTgidStrBuf namedTgid7.text ⟨List.replicate 10 '\x00', rfl, []⟩).1 ≠ namedTgid7.tgid := by
  rw [parseTgidStrBuf_fst]
  decide

end Utrace
