import Utrace.Interpretation.Trailing
import Utrace.Native.Tgid
import Mathlib.Data.List.TakeWhile

/-!
# The number in the status file

The parser looks for the first `Tgid:` and for the number behind it on the same line. What it
finds in a text it finds in every longer one, unless the number ends where the text does.
-/

namespace Utrace

variable {needle text rest p r more : List Char} {c : Char}

/-! ## The search -/

/-- A string is found where the text begins with it. -/
theorem strstr_cons_of_start (h : needle <+: c :: text) :
    strstr needle (c :: text) = some (c :: text) := by
  rw [strstr, if_pos (List.isPrefixOf_iff_prefix.mpr h)]

/-- Elsewhere the search goes on. -/
theorem strstr_cons_of_not (h : ¬needle <+: c :: text) :
    strstr needle (c :: text) = strstr needle text := by
  rw [strstr, if_neg (mt List.isPrefixOf_iff_prefix.mp h)]

/-- Nothing is found in an empty text. -/
theorem strstr_nil (hneedle : needle ≠ []) : strstr needle [] = none := by
  rw [strstr, if_neg hneedle]

/-- A text that begins with the string is found as it is. -/
theorem strstr_eq_self (hneedle : needle ≠ []) (h : needle <+: text) :
    strstr needle text = some text := by
  cases text with
  | nil => exact (hneedle (List.prefix_nil.mp h)).elim
  | cons c text => exact strstr_cons_of_start h

/-- What is found starts with the needle and runs to the end of the text. -/
theorem strstr_spec (hneedle : needle ≠ []) (h : strstr needle text = some p) :
    needle <+: p ∧ p <:+ text := by
  induction text with
  | nil =>
    rw [strstr_nil hneedle] at h
    cases h
  | cons c text ih =>
    by_cases hhead : needle <+: c :: text
    · rw [strstr_cons_of_start hhead] at h
      cases h
      exact ⟨hhead, List.suffix_refl _⟩
    · rw [strstr_cons_of_not hhead] at h
      obtain ⟨hstart, hend⟩ := ih h
      exact ⟨hstart, hend.trans (List.suffix_cons c text)⟩

/-- What is found in a text is found in every longer one. -/
theorem strstr_append (hneedle : needle ≠ []) (h : strstr needle text = some p)
    (more : List Char) : strstr needle (text ++ more) = some (p ++ more) := by
  induction text with
  | nil =>
    rw [strstr_nil hneedle] at h
    cases h
  | cons c text ih =>
    by_cases hhead : needle <+: c :: text
    · rw [strstr_cons_of_start hhead] at h
      cases h
      exact strstr_eq_self hneedle (hhead.trans (List.prefix_append ..))
    · rw [strstr_cons_of_not hhead] at h
      have hlength : needle.length ≤ (c :: text).length := by
        obtain ⟨hstart, hend⟩ := strstr_spec hneedle h
        exact hstart.length_le.trans (hend.length_le.trans (Nat.le_succ _))
      have hhead' : ¬needle <+: c :: (text ++ more) := fun hlonger =>
        hhead (List.prefix_of_prefix_length_le hlonger (List.prefix_append (c :: text) more)
          hlength)
      rw [List.cons_append, strstr_cons_of_not hhead']
      exact ih h

/-- A needle at the front of a text goes no further than a character it lacks. -/
theorem start_of_append_cons (hc : c ∉ needle) (h : needle <+: text ++ c :: rest) :
    needle <+: text := by
  rcases List.prefix_or_prefix_of_prefix h (List.prefix_append text (c :: rest)) with hle | hge
  · exact hle
  · obtain ⟨beyond, rfl⟩ := hge
    cases beyond with
    | nil => rw [List.append_nil]
    | cons d beyond =>
      have hover := List.prefix_append_right_inj text |>.mp h
      rw [List.cons_prefix_cons] at hover
      exact (hc (by simp [hover.1])).elim

/-- Text without the needle, up to a character the needle lacks, is passed over. -/
theorem strstr_past (hneedle : needle ≠ []) (hc : c ∉ needle) (h : strstr needle text = none) :
    strstr needle (text ++ c :: rest) = strstr needle rest := by
  induction text with
  | nil =>
    refine strstr_cons_of_not fun hhead => hneedle ?_
    exact List.prefix_nil.mp (start_of_append_cons hc hhead)
  | cons d text ih =>
    have hhead : ¬needle <+: d :: text := fun hhead => by
      rw [strstr_cons_of_start hhead] at h
      cases h
    have hhead' : ¬needle <+: d :: (text ++ c :: rest) := fun hlonger =>
      hhead (start_of_append_cons hc hlonger)
    rw [strstr_cons_of_not hhead] at h
    rw [List.cons_append, strstr_cons_of_not hhead']
    exact ih h

/-! ## The number -/

/-- What the first loop leaves of the text behind the field's name. -/
def tgidSkip (r : List Char) : List Char := r.dropWhile fun c => c ≠ '\n' && !c.isDigit

/-- The number read from the text behind the field's name. -/
def tgidValue (r : List Char) : Pid :=
  if 9 < ((tgidSkip r).takeWhile Char.isDigit).length then 0
  else atoi ((tgidSkip r).takeWhile Char.isDigit)

/-- Digits are read as the number they write. -/
theorem strtolValue_of_digits {digits : List Char} (h : ∀ c ∈ digits, c.isDigit) :
    strtolValue digits = Nat.ofDigitChars 10 digits 0 := by
  cases digits with
  | nil => rfl
  | cons c digits =>
    have hc := Char.isDigit_iff_toNat.mp (h c List.mem_cons_self)
    have hspace : isSpace c = false := by
      rw [isSpace, Bool.or_eq_false_iff, Bool.and_eq_false_iff, decide_eq_false_iff_not,
        decide_eq_false_iff_not, decide_eq_false_iff_not]
      refine ⟨?_, Or.inr fun hle => absurd (hc.1.trans (Char.le_def.mp hle)) (by decide)⟩
      rintro rfl
      exact absurd hc (by decide)
    rw [strtolValue, List.dropWhile_cons_of_neg (by rw [hspace]; decide)]
    split
    · rename_i heq
      cases heq
      exact absurd hc (by decide)
    · rename_i heq
      cases heq
      exact absurd hc (by decide)
    · rw [List.takeWhile_eq_self_iff.mpr h]

/-- A number is below the power of its digits. -/
theorem ofDigitChars_lt {digits : List Char} (h : ∀ c ∈ digits, c.isDigit) :
    Nat.ofDigitChars 10 digits 0 < 10 ^ digits.length := by
  induction digits with
  | nil => exact Nat.one_pos
  | cons c digits ih =>
    have hc := Char.isDigit_iff_toNat.mp (h c List.mem_cons_self)
    have hrest := ih fun d hd => h d (List.mem_cons_of_mem _ hd)
    have hnine : c.toNat - '0'.toNat ≤ 9 := Nat.sub_le_sub_right hc.2 _
    have hmul := Nat.mul_le_mul_left (10 ^ digits.length) hnine
    rw [Nat.ofDigitChars_cons, Nat.ofDigitChars_eq_ofDigitChars_zero, List.length_cons, pow_succ]
    rw [Nat.mul_zero, Nat.zero_add]
    omega

/-- Nine digits fit. -/
theorem atoi_eq {digits : List Char} (h : ∀ c ∈ digits, c.isDigit) (hshort : digits.length ≤ 9) :
    atoi digits = (Nat.ofDigitChars 10 digits 0 : Int) := by
  have hlt := (ofDigitChars_lt h).trans_le (Nat.pow_le_pow_right (by decide) hshort)
  rw [atoi, strtolValue_of_digits h]
  omega

/-- Without the field's name there is no number. -/
theorem parseTgidStr_of_none (h : strstr "Tgid:".toList (cString text) = none) :
    parseTgidStr text = 0 := by
  rw [parseTgidStr, h]

/-- The number is read behind the field's name. -/
theorem parseTgidStr_of_some (h : strstr "Tgid:".toList (cString text) = some p) :
    parseTgidStr text = tgidValue (p.drop "Tgid:".length) := by
  rw [parseTgidStr, h]
  rfl

/-- Where the first loop stops, more text does not matter. -/
theorem tgidSkip_append (h : tgidSkip r ≠ []) (more : List Char) :
    tgidSkip (r ++ more) = tgidSkip r ++ more := by
  rw [tgidSkip, List.dropWhile_append, if_neg (by simpa [tgidSkip] using h)]
  rfl

/-- Where it does not, it goes on in the text that follows. -/
theorem tgidSkip_append_of_eq_nil (h : tgidSkip r = []) (more : List Char) :
    tgidSkip (r ++ more) = tgidSkip more := by
  rw [tgidSkip, List.dropWhile_append, if_pos (by simpa [tgidSkip] using h)]
  rfl

/-- A digit ends the first loop. -/
theorem tgidSkip_append_digit (hc : c.isDigit) (r rest : List Char) :
    tgidSkip (r ++ c :: rest) = tgidSkip r ++ c :: rest := by
  by_cases h : tgidSkip r = []
  · rw [tgidSkip_append_of_eq_nil h, h, List.nil_append, tgidSkip,
      List.dropWhile_cons_of_neg (by simp [hc])]
  · exact tgidSkip_append h _

/-- The number is on the line of the field. -/
theorem tgidValue_line (r rest : List Char) : tgidValue (r ++ '\n' :: rest) = tgidValue r := by
  have hend : ∀ q : List Char,
      (q ++ '\n' :: rest).takeWhile Char.isDigit = q.takeWhile Char.isDigit := by
    intro q
    rw [List.takeWhile_append, List.takeWhile_cons_of_neg (by decide), List.append_nil]
    split
    · rename_i hall
      exact (List.IsPrefix.eq_of_length (List.takeWhile_prefix _) hall).symm
    · rfl
  rw [tgidValue, tgidValue]
  by_cases h : tgidSkip r = []
  · have hline : tgidSkip ('\n' :: rest) = [] ++ '\n' :: rest :=
      List.dropWhile_cons_of_neg (by decide)
    rw [tgidSkip_append_of_eq_nil h, hline, h, hend]
  · rw [tgidSkip_append h, hend]

/-- Zeros are read as zero. -/
theorem atoi_replicate_zero (n : Nat) : atoi (List.replicate n '0') = 0 := by
  have hzeros : ∀ c ∈ List.replicate n '0', c.isDigit := by
    intro c hc
    rw [List.eq_of_mem_replicate hc]
    decide
  rw [atoi, strtolValue_of_digits hzeros, Nat.ofDigitChars_replicate_zero, Nat.mul_zero]
  rfl

/-- Only zeros come to zero. -/
theorem eq_replicate_of_atoi {digits : List Char} (hdigits : ∀ c ∈ digits, c.isDigit)
    (hshort : digits.length ≤ 9) (h : atoi digits = 0) :
    digits = List.replicate digits.length '0' := by
  rw [atoi_eq hdigits hshort, Int.natCast_eq_zero] at h
  clear hshort
  induction digits with
  | nil => rfl
  | cons c digits ih =>
    rw [Nat.ofDigitChars_cons, Nat.ofDigitChars_eq_ofDigitChars_zero, Nat.add_eq_zero_iff,
      Nat.mul_eq_zero] at h
    obtain ⟨hhead, hrest⟩ := h
    have hc : c = '0' := by
      have hdigit := Char.isDigit_iff_toNat.mp (hdigits c (List.mem_cons_self ..))
      refine Char.toNat_inj.mp ?_
      have hzero : c.toNat - '0'.toNat = 0 := by simpa using hhead
      omega
    rw [List.length_cons, List.replicate_succ, hc]
    exact congrArg _ (ih (fun d hd => hdigits d (List.mem_cons_of_mem _ hd)) hrest)

/-! ## The first number of a line -/

/-- The first digits of the line a text begins with. -/
def FirstDigits (r digits : List Char) : Prop :=
  digits ≠ [] ∧ (∀ c ∈ digits, c.isDigit) ∧ ∃ skipped rest, r = skipped ++ (digits ++ rest) ∧
    (∀ c ∈ skipped, c ≠ '\n' ∧ ¬c.isDigit) ∧ ∀ c ∈ rest.head?, ¬c.isDigit

/-- The first digits of a line are what is read. -/
theorem FirstDigits.takeWhile_eq {digits : List Char} (h : FirstDigits r digits) :
    (tgidSkip r).takeWhile Char.isDigit = digits := by
  obtain ⟨hne, hdigits, skipped, rest, rfl, hskipped, hrest⟩ := h
  have hstop : rest.takeWhile Char.isDigit = [] := by
    cases rest with
    | nil => rfl
    | cons c rest => exact List.takeWhile_cons_of_neg (hrest c rfl)
  have hskip : tgidSkip (skipped ++ (digits ++ rest)) = digits ++ rest := by
    rw [tgidSkip, List.dropWhile_append_of_pos fun c hc => by simpa using hskipped c hc]
    cases digits with
    | nil => exact (hne rfl).elim
    | cons c digits => exact List.dropWhile_cons_of_neg (by simp [hdigits c])
  rw [hskip, List.takeWhile_append_of_pos hdigits, hstop, List.append_nil]

/-- What is read are the first digits of a line. -/
theorem firstDigits_takeWhile (h : (tgidSkip r).takeWhile Char.isDigit ≠ []) :
    FirstDigits r ((tgidSkip r).takeWhile Char.isDigit) := by
  refine ⟨h, fun c hc => List.mem_takeWhile_imp hc, r.takeWhile fun c => c ≠ '\n' && !c.isDigit,
    (tgidSkip r).dropWhile Char.isDigit, ?_, fun c hc => ?_, fun c hc => ?_⟩
  · rw [List.takeWhile_append_dropWhile, tgidSkip, List.takeWhile_append_dropWhile]
  · simpa using List.mem_takeWhile_imp hc
  · intro hdigit
    have hhead := List.head?_dropWhile_not Char.isDigit (tgidSkip r)
    rw [hc] at hhead
    simp [hdigit] at hhead

/-- The number is that of the first digits of the line, where there is room for them. -/
theorem tgidValue_eq_iff {n : Nat} (hn : 0 < n) : tgidValue r = n ↔
    ∃ digits, FirstDigits r digits ∧ digits.length ≤ 9 ∧ Nat.ofDigitChars 10 digits 0 = n := by
  constructor
  · intro h
    have hshort : ¬9 < ((tgidSkip r).takeWhile Char.isDigit).length := by
      intro hlong
      rw [tgidValue, if_pos hlong] at h
      exact hn.ne (Int.natCast_inj.mp h)
    have hdigits : ∀ c ∈ (tgidSkip r).takeWhile Char.isDigit, c.isDigit :=
      fun c hc => List.mem_takeWhile_imp hc
    rw [tgidValue, if_neg hshort, atoi_eq hdigits (not_lt.mp hshort), Int.natCast_inj] at h
    refine ⟨_, firstDigits_takeWhile ?_, not_lt.mp hshort, h⟩
    intro hnil
    rw [hnil, Nat.ofDigitChars_nil] at h
    omega
  · rintro ⟨digits, hdigits, hshort, hvalue⟩
    rw [tgidValue, hdigits.takeWhile_eq, if_neg (not_lt.mpr hshort), atoi_eq hdigits.2.1 hshort,
      hvalue]

/-- Ten digits are too many. -/
theorem FirstDigits.tgidValue_of_long {digits : List Char} (h : FirstDigits r digits)
    (hlong : 10 ≤ digits.length) : tgidValue r = 0 := by
  rw [tgidValue, h.takeWhile_eq, if_pos (Nat.lt_of_succ_le hlong)]

/-- Without a digit on the line there is no number. -/
theorem tgidValue_of_line (h : ∀ c ∈ r.takeWhile (· ≠ '\n'), ¬c.isDigit) : tgidValue r = 0 := by
  have hnone : (tgidSkip r).takeWhile Char.isDigit = [] := by
    by_contra hne
    obtain ⟨_, hdigits, skipped, rest, hr, hskipped, _⟩ := firstDigits_takeWhile hne
    obtain ⟨c, digits, hcons⟩ := List.exists_cons_of_ne_nil hne
    rw [hcons] at hdigits hr
    have hdigit := hdigits c (List.mem_cons_self ..)
    refine h c ?_ hdigit
    rw [hr, List.takeWhile_append_of_pos fun d hd => by simpa using (hskipped d hd).1,
      List.cons_append, List.takeWhile_cons_of_pos]
    · simp
    · rw [decide_eq_true_eq]
      rintro rfl
      exact absurd hdigit (by decide)
  rw [tgidValue, hnone]
  rfl

/-! ## Where the text may end -/

/-- Behind the field's name the number is told without what follows the text: another character
ends it, or it is too long, or one more digit would make it so and it is zero. -/
def Stops (r : List Char) : Prop :=
  (∃ c ∈ tgidSkip r, ¬c.isDigit) ∨ 9 < (tgidSkip r).length ∨
    tgidSkip r = List.replicate 9 '0'

/-- Where the text ends in digits, they are the number. -/
theorem tgidValue_of_digits (h : ∀ c ∈ tgidSkip r, c.isDigit) :
    tgidValue r = if 9 < (tgidSkip r).length then 0 else atoi (tgidSkip r) := by
  rw [tgidValue, List.takeWhile_eq_self_iff.mpr h]

/-- A number that is told stays what it is. -/
theorem Stops.append (h : Stops r) (more : List Char) : tgidValue (r ++ more) = tgidValue r := by
  have hne : tgidSkip r ≠ [] := by
    rintro hnil
    rcases h with ⟨c, hc, _⟩ | hlong | hzeros
    · rw [hnil] at hc
      cases hc
    · rw [hnil] at hlong
      cases hlong
    · rw [hnil] at hzeros
      cases hzeros
  rw [tgidValue, tgidSkip_append hne]
  by_cases hall : ∀ c ∈ tgidSkip r, c.isDigit
  · rw [List.takeWhile_append_of_pos hall, tgidValue_of_digits hall]
    rcases h with ⟨c, hc, hnot⟩ | hlong | hzeros
    · exact (hnot (hall c hc)).elim
    · rw [if_pos hlong, if_pos (by rw [List.length_append]; omega)]
    · rw [hzeros, atoi_replicate_zero, ite_self]
      cases more.takeWhile Char.isDigit with
      | nil => rw [List.append_nil, atoi_replicate_zero, ite_self]
      | cons c digits => rw [if_pos (by simp)]
  · have hshort : ((tgidSkip r).takeWhile Char.isDigit).length ≠ (tgidSkip r).length :=
      fun hlength => hall (List.takeWhile_eq_self_iff.mp
        ((List.takeWhile_prefix _).eq_of_length hlength))
    rw [List.takeWhile_append, if_neg hshort, tgidValue]

/-- A number that could go on where the text ends does not stay what it is. -/
theorem stops_of_append
    (h : ∀ more, '\x00' ∉ more → tgidValue (r ++ more) = tgidValue r) : Stops r := by
  by_contra hstops
  obtain ⟨hall, hshort, hzeros⟩ : (∀ c ∈ tgidSkip r, c.isDigit) ∧ (tgidSkip r).length ≤ 9 ∧
      tgidSkip r ≠ List.replicate 9 '0' := by
    simpa [Stops] using hstops
  -- ten more digits are too many
  have hzero : atoi (tgidSkip r) = 0 := by
    have hten := h (List.replicate 10 '0') (by decide)
    rw [tgidValue_of_digits hall, if_neg (by omega)] at hten
    rw [← hten, List.replicate_succ, tgidValue, tgidSkip_append_digit (by decide),
      List.takeWhile_append_of_pos hall, if_pos]
    simp [List.takeWhile]
  have hdigits := eq_replicate_of_atoi hall hshort hzero
  -- one more digit is not too many
  have hless : (tgidSkip r).length < 9 := by
    refine lt_of_le_of_ne hshort fun hnine => hzeros ?_
    rw [hdigits, hnine]
  have hone := h ['5'] (by decide)
  rw [tgidValue_of_digits hall, hzero, ite_self, tgidValue, tgidSkip_append_digit (by decide),
    List.takeWhile_append_of_pos hall, if_neg (by simp [List.takeWhile]; omega),
    atoi_eq (List.forall_mem_append.mpr ⟨hall, fun c hc => List.mem_takeWhile_imp hc⟩)
      (by simp [List.takeWhile]; omega),
    hdigits, List.takeWhile_cons_of_pos (by decide), Nat.ofDigitChars_append,
    Nat.ofDigitChars_replicate_zero] at hone
  have hfive : Nat.ofDigitChars 10 ['5'] 0 = 0 := by simpa using hone
  cases hfive

/-! ## The bytes read -/

/-- The bytes read tell the number, whatever follows them. -/
def Settles (bytes : List Char) : Prop :=
  '\x00' ∈ bytes ∨
    ∃ p, strstr "Tgid:".toList bytes = some p ∧ Stops (p.drop "Tgid:".length)

/-- A zero ends the string. -/
theorem cString_append_of_mem (h : '\x00' ∈ text) (more : List Char) :
    cString (text ++ more) = cString text := by
  rw [cString, List.takeWhile_append, if_neg, cString]
  intro hlength
  have hall := (List.takeWhile_prefix _).eq_of_length hlength
  simpa using List.takeWhile_eq_self_iff.mp hall _ h

/-- The parser reads up to the end of the string. -/
theorem parseTgidStr_congr (h : cString text = cString rest) :
    parseTgidStr text = parseTgidStr rest := by
  rw [parseTgidStr, h, parseTgidStr]

/-- Without one the string goes on. -/
theorem cString_append_of_notMem (h : '\x00' ∉ text) (more : List Char) :
    cString (text ++ more) = text ++ cString more := by
  rw [cString, List.takeWhile_append_of_pos, cString]
  intro c hc
  rw [decide_eq_true_eq]
  rintro rfl
  exact h hc

/-- What follows a text without the field's end is read on. -/
theorem parseTgidStr_append (hnul : '\x00' ∉ text)
    (h : strstr "Tgid:".toList text = some p) (more : List Char) :
    parseTgidStr (text ++ more) = tgidValue (p.drop "Tgid:".length ++ cString more) := by
  have hfound : strstr "Tgid:".toList (cString (text ++ more)) = some (p ++ cString more) := by
    rw [cString_append_of_notMem hnul]
    exact strstr_append (by decide) h _
  have hlength : "Tgid:".length ≤ p.length := (strstr_spec (by decide) h).1.length_le
  rw [parseTgidStr_of_some hfound, List.drop_append_of_le_length hlength]

/-- Where the bytes read tell the number, nothing that follows them matters. -/
theorem Settles.append {bytes : List Char} (h : Settles bytes) (more : List Char) :
    parseTgidStr (bytes ++ more) = parseTgidStr bytes := by
  by_cases hnul : '\x00' ∈ bytes
  · exact parseTgidStr_congr (cString_append_of_mem hnul more)
  · obtain ⟨p, hp, hstops⟩ := h.resolve_left hnul
    have hself : strstr "Tgid:".toList (cString bytes) = some p := by
      rw [cString_of_notMem hnul]
      exact hp
    rw [parseTgidStr_append hnul hp, hstops.append, parseTgidStr_of_some hself]

/-- Where they do not, something that follows them does. -/
theorem settles_of_append {bytes : List Char}
    (h : ∀ more, '\x00' ∉ more → parseTgidStr (bytes ++ more) = parseTgidStr bytes) :
    Settles bytes := by
  by_cases hnul : '\x00' ∈ bytes
  · exact Or.inl hnul
  · have hbytes := cString_of_notMem hnul
    cases hfind : strstr "Tgid:".toList bytes with
    | none =>
      have hfive := h "\nTgid:5".toList (by decide)
      have hzero : parseTgidStr bytes = 0 := parseTgidStr_of_none (by rw [hbytes]; exact hfind)
      rw [hzero] at hfive
      have hfound : strstr "Tgid:".toList (cString (bytes ++ "\nTgid:5".toList)) =
          some "Tgid:5".toList := by
        rw [cString_append_of_notMem hnul]
        exact strstr_past (c := '\n') (by decide) (by decide) hfind
      rw [parseTgidStr_of_some hfound] at hfive
      exact absurd hfive (by decide)
    | some p =>
      refine Or.inr ⟨p, hfind, stops_of_append fun more hmore => ?_⟩
      have hsame := h more hmore
      rw [parseTgidStr_append hnul hfind, cString_of_notMem hmore] at hsame
      rw [hsame, parseTgidStr_of_some (by rw [hbytes]; exact hfind)]

end Utrace
