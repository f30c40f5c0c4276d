import Utrace.Correctness.FormatScan

/-!
# Formats and their arguments

A format is put together from characters and directives. The scan passes each of them whole as
long as it knows the conversion letter, so the arguments stay in step with the directives, up to
the first floating-point conversion. A letter it does not know does not end the directive.
-/

namespace Utrace

open Memory

/-! ## Formats -/

/-- What may stand between a percent sign and the conversion letter. -/
def modifiers : List Byte := "-+ #0123456789.hlLjzt*".toList.map byteOf

/-- A complete directive; its conversion letter is one of some letters. -/
structure Directive (letters : String) where
  mods : List Byte
  conv : Byte
  mods_mem : ∀ c ∈ mods, c ∈ modifiers
  conv_mem : conv ∈ letters.toList.map byteOf

/-- A character of a format, or a directive. -/
inductive Item (letters : String) where
  | literal (c : Byte) (notPercent : c ≠ byteOf '%') (notZero : c ≠ 0)
  | directive (x : Directive letters)

variable {letters : String}

namespace Directive

variable (x : Directive letters)

/-- The directive up to its conversion letter. -/
def opening : List Byte := byteOf '%' :: x.mods

/-- The directive as it stands in the format. -/
def bytes : List Byte := x.opening ++ [x.conv]

/-- The arguments asked for in front of the conversion letter. -/
def stars : List Byte := x.mods.filter (· = byteOf '*')

/-- The arguments a directive asks for. -/
def asked : List Byte := x.stars ++ if x.conv = byteOf '%' then [] else [x.conv]

end Directive

namespace Item

/-- The item as it stands in the format. -/
def bytes : Item letters → List Byte
  | .literal c _ _ => [c]
  | .directive x => x.bytes

/-- The arguments an item asks for. -/
def asked : Item letters → List Byte
  | .literal .. => []
  | .directive x => x.asked

/-- A directive with one of some conversion letters. -/
def HasLetter (some : String) : Item letters → Prop
  | .literal .. => False
  | .directive x => x.conv ∈ some.toList.map byteOf

instance (some : String) : DecidablePred (HasLetter some : Item letters → Prop)
  | .literal .. => inferInstanceAs (Decidable False)
  | .directive _ => inferInstanceAs (Decidable (_ ∈ _))

end Item

/-- The bytes of a format. -/
def formatBytes (items : List (Item letters)) : List Byte := items.flatMap Item.bytes

/-- The arguments a format asks for, in turn. -/
def formatAsked (items : List (Item letters)) : List Byte := items.flatMap Item.asked

/-- The text of directives in sequence is joined. -/
@[simp] theorem formatBytes_append (items more : List (Item letters)) :
    formatBytes (items ++ more) = formatBytes items ++ formatBytes more := List.flatMap_append

/-- The text of one directive. -/
@[simp] theorem formatBytes_directive (x : Directive letters) :
    formatBytes [.directive x] = x.bytes := List.append_nil _

/-! ## The scan over a format -/

variable {d : Display} {stringMaxlength : Int} {size : Nat}

/-- Modifiers are passed; their stars ask for arguments. -/
theorem passes_mods {mods : List Byte} (h : ∀ c ∈ mods, c ∈ modifiers) :
    Passes d stringMaxlength size true mods true (mods.filter (· = byteOf '*')) := by
  induction mods with
  | nil => exact .nil true
  | cons c mods ih =>
    obtain ⟨hc, hmods⟩ := List.forall_mem_cons.mp h
    by_cases hstar : c = byteOf '*'
    · rw [List.filter_cons, if_pos (decide_eq_true hstar), hstar]
      exact Passes.star.append (ih hmods)
    · have hall : ∀ b ∈ modifiers, b ≠ 0 ∧
          (b ∈ "%diuoxXcseEfg*".toList.map byteOf → b = byteOf '*') :=
        List.all_iff_forall_prop.mp rfl
      rw [List.filter_cons, if_neg (by simpa using hstar)]
      exact (Passes.other (hstar ∘ (hall c hc).2) (hall c hc).1).append (ih hmods)

/-- A directive is passed up to its letter. -/
theorem passes_opening (x : Directive letters) :
    Passes d stringMaxlength size false x.opening true x.stars :=
  Passes.percent.append (passes_mods x.mods_mem)

/-- The scan passes a directive whose letter it knows. -/
theorem passes_directive {x : Directive letters} (h : x.conv ∈ "diuoxXcs%".toList.map byteOf) :
    Passes d stringMaxlength size false x.bytes false x.asked := by
  refine (passes_opening x).append ?_
  by_cases hconv : x.conv = byteOf '%'
  · rw [if_pos hconv, hconv]
    exact .closing
  · have hall : ∀ b ∈ "diuoxXcs%".toList.map byteOf,
        b = byteOf '%' ∨ b ∈ "diuoxXcs".toList.map byteOf := List.all_iff_forall_prop.mp rfl
    rw [if_neg hconv]
    exact .letter ((hall _ h).resolve_left hconv)

/-- Item after item. -/
theorem passes_items {items : List (Item letters)}
    (h : ∀ x, .directive x ∈ items → x.conv ∈ "diuoxXcs%".toList.map byteOf) :
    Passes d stringMaxlength size false (formatBytes items) false (formatAsked items) := by
  induction items with
  | nil => exact .nil false
  | cons item items ih =>
    have hrest := ih fun x hx => h x (List.mem_cons_of_mem _ hx)
    refine Passes.append ?_ hrest
    cases item with
    | literal c hpercent hzero => exact .literal hpercent hzero
    | directive x => exact passes_directive (h x List.mem_cons_self)

/-- A letter it does not know leaves the scan inside the directive. -/
theorem passes_unknown {x : Directive letters} (h : x.conv ∈ "pnG".toList.map byteOf) :
    Passes d stringMaxlength size false x.bytes true x.stars := by
  have hall : ∀ b ∈ "pnG".toList.map byteOf,
      b ∉ "%diuoxXcseEfg*".toList.map byteOf ∧ b ≠ 0 := List.all_iff_forall_prop.mp rfl
  rw [← List.append_nil x.stars]
  exact (passes_opening x).append (.other (hall _ h).1 (hall _ h).2)

/-- The scan stops at a floating-point conversion behind directives it knows. -/
theorem scan_stops {items : List (Item letters)} {letters' : String} {x : Directive letters'}
    (h : ∀ x, .directive x ∈ items → x.conv ∈ "diuoxXcs%".toList.map byteOf)
    (hx : x.conv ∈ "eEfg".toList.map byteOf) {t : List Byte} {left : Nat} {argNum : Int}
    {str1 : Nat → Byte} (hcopy : StringAt str1 0 (formatBytes items ++ x.bytes ++ t)) :
    ∃ p, d.scanFormat stringMaxlength size
          (left + 2 + (formatBytes items ++ x.bytes ++ t).length) false 0 argNum str1 = some p ∧
      p.text = d.argumentsText stringMaxlength argNum (formatAsked items ++ x.stars) ++
        ", ...".toList ∧
      p.fetched = numbers argNum (formatAsked items ++ x.stars).length ∧
      ∀ k ∈ p.scanned, k ≤ (formatBytes items ++ x.bytes).length := by
  have hbytes : formatBytes items ++ x.bytes ++ t =
      formatBytes items ++ x.opening ++ x.conv :: t := by simp [Directive.bytes]
  rw [hbytes] at hcopy ⊢
  obtain ⟨hcells, hconv⟩ := hcopy.append
  rw [← (stringAt_cons.mp hconv).1, Nat.cast_id] at hx
  obtain ⟨p, hscan, htext, hfetched, hread⟩ := (passes_items h).append (passes_opening x)
    (left + t.length + 1 + 2) 0 argNum str1 hcells
  have hturns : left + 2 + (formatBytes items ++ x.opening ++ x.conv :: t).length =
      left + t.length + 1 + 2 + (formatBytes items ++ x.opening).length := by
    rw [List.length_append, List.length_cons]
    omega
  have hlength : (formatBytes items ++ x.bytes).length =
      (formatBytes items ++ x.opening).length + 1 := by simp [Directive.bytes, Nat.add_assoc]
  rw [hturns, hscan, scan_float hx]
  refine ⟨_, rfl, ?_, ?_, ?_⟩
  · rw [Printed.text_append, htext]
    rfl
  · rw [Printed.fetched_append, hfetched]
    exact List.append_nil _
  · rw [Printed.scanned_append, List.forall_mem_append, hlength]
    refine ⟨fun k hk => ?_, ?_⟩
    · have hlt := hread k hk
      omega
    · simp

/-! ## Arguments in step with the directives -/

/-- A format of characters and directives without a floating-point conversion, or with one and
anything behind it. -/
structure Format where
  items : List (Item "diuoxXcs%")
  float : Option (Directive "eEfg" × List Byte)

namespace Format

/-- The format string. -/
def bytes (f : Format) : List Byte :=
  formatBytes f.items ++
    match f.float with
    | none => []
    | some (x, rest) => x.bytes ++ rest

/-- The conversions that ask for an argument, and the `*`s, up to the floating-point
conversion. -/
def asked (f : Format) : List Byte :=
  formatAsked f.items ++
    match f.float with
    | none => []
    | some (x, _) => x.stars

/-- The mark of a floating-point conversion. -/
def dots (f : Format) : List Char := if f.float.isSome then ", ...".toList else []

end Format

/-- The value of an argument, as its conversion asks for it. -/
def converted (d : Display) (argNum : Int) (c : Byte) : List Char :=
  if c = byteOf 'u' then unsigned (d.arg argNum).toNat
  else if c = byteOf 'o' then '0' :: octal (d.arg argNum).toNat
  else if c = byteOf 'x' ∨ c = byteOf 'X' then altHex (d.arg argNum).toNat
  else if c = byteOf 'c' then '\'' :: (displayChar (d.arg argNum).toInt).text ++ ['\'']
  else if c = byteOf 's' then (d.displayString intMax argNum).text
  else signed (d.arg argNum).toInt

/-- A conversion that asks for an argument prints a separator and the argument. -/
theorem text_displayAsked (d : Display) (argNum : Int) (c : Byte) :
    (d.displayAsked intMax argNum c).text = ", ".toList ++ converted d argNum c := by
  unfold Display.displayAsked converted
  dsimp only
  by_cases hd : c = byteOf 'd' ∨ c = byteOf 'i'
  · have hall : ∀ b ∈ "di".toList.map byteOf, b ≠ byteOf 'u' ∧ b ≠ byteOf 'o' ∧
        ¬(b = byteOf 'x' ∨ b = byteOf 'X') ∧ b ≠ byteOf 'c' ∧ b ≠ byteOf 's' :=
      List.all_iff_forall_prop.mp rfl
    obtain ⟨hu, ho, hx, hc, hs⟩ := hall c (by simpa using hd)
    rw [if_pos hd, if_neg hu, if_neg ho, if_neg hx, if_neg hc, if_neg hs]
    rfl
  · rw [if_neg hd]
    split_ifs <;> simp

/-- Every argument with the text in front of it. -/
theorem argumentsText_eq (d : Display) (argNum : Int) (asked : List Byte) :
    d.argumentsText intMax argNum asked =
      ((numbers argNum asked.length).zip asked).flatMap fun a =>
        ", ".toList ++ converted d a.1 a.2 := by
  induction asked generalizing argNum with
  | nil => rfl
  | cons c asked ih =>
    rw [List.length_cons, numbers_succ, List.zip_cons_cons, List.flatMap_cons,
      Display.argumentsText, ih, text_displayAsked]

/-- The scan of a copy that is not cut. -/
theorem scan_format (f : Format) {left : Nat} {argNum : Int} {str1 : Nat → Byte}
    (hcopy : StringAt str1 0 f.bytes) :
    ∃ p, d.scanFormat stringMaxlength size (left + 2 + f.bytes.length) false 0 argNum str1 =
        some p ∧
      p.fetched = numbers argNum f.asked.length ∧
      p.text = d.argumentsText stringMaxlength argNum f.asked ++ f.dots := by
  obtain ⟨items, float⟩ := f
  have hknown : ∀ x, .directive x ∈ items → x.conv ∈ "diuoxXcs%".toList.map byteOf :=
    fun x _ => x.conv_mem
  cases float with
  | none =>
    have hbytes : Format.bytes ⟨items, none⟩ = formatBytes items := List.append_nil _
    have hasked : Format.asked ⟨items, none⟩ = formatAsked items := List.append_nil _
    rw [hbytes] at hcopy ⊢
    rw [hasked]
    obtain ⟨p, hscan, htext, hfetched, _⟩ :=
      passes_items hknown (left + 2) 0 argNum str1 hcopy.cells
    have hended := hcopy.ended
    rw [Nat.cast_id] at hended
    rw [hscan, scan_end hended]
    refine ⟨_, rfl, ?_, ?_⟩
    · rw [Printed.fetched_append, hfetched]
      exact List.append_nil _
    · rw [Printed.text_append, htext]
      rfl
  | some float =>
    obtain ⟨x, rest⟩ := float
    have hbytes : Format.bytes ⟨items, some (x, rest)⟩ = formatBytes items ++ x.bytes ++ rest :=
      (List.append_assoc ..).symm
    rw [hbytes] at hcopy ⊢
    obtain ⟨p, hscan, htext, hfetched, _⟩ := scan_stops hknown x.conv_mem hcopy
    exact ⟨p, hscan, hfetched, htext⟩

/-- For every format no longer than `opt_s`, every `*` and every conversion other than a percent
sign fetches one argument, in the order of the format and with consecutive numbers behind the
format's own, and shows it as it asks for it; nothing is fetched from the letter of the first
floating-point conversion on, where dots are printed. This holds exactly when there is a block
for the copy, or the format asks for nothing. -/
theorem arguments_matched_iff {argNum : Int} (f : Format)
    (hs : StringAt d.mem (d.arg argNum) f.bytes) (hnull : d.arg argNum ≠ 0)
    (hlength : (f.bytes.length : Int) ≤ d.opts) :
    (∃ p, d.displayFormat intMax argNum = some p ∧
        p.fetched = argNum :: numbers argNum f.asked.length ∧
        p.text = d.formatText argNum ++
          (((numbers argNum f.asked.length).zip f.asked).flatMap fun a =>
            ", ".toList ++ converted d a.1 a.2) ++ f.dots) ↔
      d.opts + 3 < 2 ^ 31 ∨ f.asked = [] ∧ f.float = none := by
  by_cases hfits : d.opts + 3 < 2 ^ 31
  · refine iff_of_true ?_ (Or.inl hfits)
    obtain ⟨own, size, left, str1, hcopy, hformat, htext, hfetched, _⟩ :=
      displayFormat_eq (by omega) hnull hfits
    have hcopied : d.copied argNum = f.bytes := by
      rw [Display.copied, hs.prefixOf_eq, List.take_of_length_le (by omega)]
    rw [hcopied] at hcopy hformat
    obtain ⟨p, hscan, hnumbers, hrest⟩ := scan_format f hcopy
    refine ⟨own ++ p, by rw [hformat, hscan]; rfl, ?_, ?_⟩
    · rw [Printed.fetched_append, hfetched, hnumbers]
      rfl
    · rw [Printed.text_append, htext, hrest, argumentsText_eq, List.append_assoc]
  · rw [or_iff_right hfits, displayFormat_of_large hnull (by omega) hfits]
    constructor
    · rintro ⟨p, hp, hfetched, htext⟩
      cases hp
      have hasked : f.asked = [] := by
        have hcount := congrArg List.length hfetched
        simpa [numbers] using hcount
      refine ⟨hasked, ?_⟩
      rw [hasked] at htext
      have hdots : f.dots = [] := by simpa using htext
      cases hfloat : f.float with
      | none => rfl
      | some float =>
        rw [Format.dots, hfloat] at hdots
        cases hdots
    · rintro ⟨hasked, hfloat⟩
      refine ⟨_, rfl, ?_, ?_⟩
      · rw [hasked]
        rfl
      · rw [hasked, Format.dots, hfloat]
        simp [numbers]

/-- A star and a `%%` in front of a float: the string behind it is not reached. -/
theorem arguments_matched_iff_star :
    ∃ p, (formatting 32 ("%*d%%%f%s".toList.map byteOf)).displayFormat intMax 0 = some p ∧
      p.fetched = [0, 1, 2] ∧ p.text = "\"%*d%%%f%s\", -1, -1, ...".toList := by
  let f : Format :=
    { items := [
        .directive ⟨[byteOf '*'], byteOf 'd', by decide, by decide⟩,
        .directive ⟨[], byteOf '%', by decide, by decide⟩],
      float := some (⟨[], byteOf 'f', by decide, by decide⟩, "%s".toList.map byteOf) }
  have hbytes : f.bytes = "%*d%%%f%s".toList.map byteOf := by decide
  obtain ⟨p, hp, hfetched, htext⟩ := (@arguments_matched_iff
    (formatting 32 ("%*d%%%f%s".toList.map byteOf)) 0 f
    ⟨by rw [hbytes]; decide, by rw [hbytes]; decide, by rw [hbytes]; decide⟩ (by decide)
    (by decide)).mpr (Or.inl (by decide))
  exact ⟨p, hp, hfetched.trans (by decide), htext.trans (by decide)⟩

/-- With the largest `opt_s` there is no block, and no argument is fetched. -/
theorem arguments_skipped :
    ¬∀ (d : Display) (argNum : Int) (f : Format), StringAt d.mem (d.arg argNum) f.bytes →
      d.arg argNum ≠ 0 → (f.bytes.length : Int) ≤ d.opts → d.opts ≤ intMax →
      ∃ p, d.displayFormat intMax argNum = some p ∧
        p.fetched = argNum :: numbers argNum f.asked.length ∧
        p.text = d.formatText argNum ++
          (((numbers argNum f.asked.length).zip f.asked).flatMap fun a =>
            ", ".toList ++ converted d a.1 a.2) ++ f.dots := by
  intro hclaim
  obtain ⟨p, hp, hfetched, _⟩ := hclaim (formatting intMax ("%d".toList.map byteOf)) 0
    ⟨[.directive ⟨[], byteOf 'd', by decide, by decide⟩], none⟩
    ⟨by decide, by decide, by decide⟩ (by decide) (by decide) (by decide)
  rw [displayFormat_of_large (by decide) (by decide) (by decide)] at hp
  cases hp
  exact absurd hfetched (by decide)

/-! ## Letters the scan does not know -/

/-- A directive with conversion letter `p`, `n` or `G` behind other items of a format, up to its
letter within what is copied. -/
structure Unknown (d : Display) (items before : List (Item letters)) (x : Directive letters) :
    Prop where
  occurs : before ++ [.directive x] <+: items
  conv_mem : x.conv ∈ "pnG".toList.map byteOf
  copied : ((formatBytes (before ++ [.directive x])).length : Int) ≤ d.opts + 1

/-- The display ends, and the loop over a directive does not take the byte at an index. -/
def Display.EndsBefore (d : Display) (argNum : Int) (i : Nat) : Prop :=
  ∃ p, d.displayFormat intMax argNum = some p ∧ ∀ size, .byte .directive i size ∉ p.events

/-- The inner loop reads a byte first of all. -/
theorem directive_read {left i : Nat} {argNum : Int} {str1 : Nat → Byte} {p : Printed Access}
    (h : d.scanFormat stringMaxlength size left true i argNum str1 = some p) :
    .byte .directive i size ∈ p.events := by
  cases left with
  | zero => cases h
  | succ left =>
    rw [Display.scanFormat] at h
    split_ifs at h
    all_goals
      obtain ⟨rest, _, rfl⟩ := Option.map_eq_some_iff.mp h
      exact List.mem_cons_self

/-- Behind a letter it does not know, the scan takes a further byte into the directive. -/
theorem scan_goes_on {items : List (Item letters)} {x : Directive letters}
    (h : ∀ x, .directive x ∈ items → x.conv ∈ "diuoxXcs%".toList.map byteOf)
    (hx : x.conv ∈ "pnG".toList.map byteOf) {t : List Byte} {left : Nat} {argNum : Int}
    {str1 : Nat → Byte} {p : Printed Access}
    (hcopy : StringAt str1 0 (formatBytes items ++ x.bytes ++ t))
    (hscan : d.scanFormat stringMaxlength size
      (left + (formatBytes items ++ x.bytes ++ t).length) false 0 argNum str1 = some p) :
    .byte .directive (formatBytes items ++ x.bytes).length size ∈ p.events := by
  obtain ⟨q, hpass, _, _, _⟩ := (passes_items h).append (passes_unknown hx) (left + t.length) 0
    argNum str1 hcopy.append.1
  have hturns : left + (formatBytes items ++ x.bytes ++ t).length =
      left + t.length + (formatBytes items ++ x.bytes).length := by
    have hlength : (formatBytes items ++ x.bytes ++ t).length =
        (formatBytes items ++ x.bytes).length + t.length := List.length_append
    omega
  rw [hturns, hpass, Nat.zero_add] at hscan
  obtain ⟨rest, hrest, rfl⟩ := Option.map_eq_some_iff.mp hscan
  exact List.mem_append_right _ (directive_read hrest)

/-- The conversion letters of C. -/
def allLetters : String := "diuoxXcs%aAeEfFgGpn"

/-- The letters the scan stops at or does not know. -/
def specialLetters : String := "pnGaAFeEfg"

/-- A directive with letter `e`, `E`, `f` or `g` is the first that the scan stops at or does not
know. -/
def StopsIn (items : List (Item letters)) : Prop :=
  ∃ front item, front ++ [item] <+: items ∧ item.HasLetter "eEfg" ∧
    ∀ item ∈ front, ¬item.HasLetter specialLetters

/-- The scan knows the letters of a format without any of these. -/
theorem known_of_not {items : List (Item allLetters)}
    (hnone : ∀ item ∈ items, ¬item.HasLetter specialLetters) (x : Directive allLetters)
    (hx : .directive x ∈ items) : x.conv ∈ "diuoxXcs%".toList.map byteOf := by
  have hall : ∀ b ∈ allLetters.toList.map byteOf, b ∉ specialLetters.toList.map byteOf →
      b ∈ "diuoxXcs%".toList.map byteOf := List.all_iff_forall_prop.mp rfl
  exact hall _ x.conv_mem (hnone _ hx)

/-- What is copied of a format begins with its first items. -/
theorem copied_of_prefix {items before : List (Item letters)} {argNum : Int}
    (hs : StringAt d.mem (d.arg argNum) (formatBytes items)) (hfront : before <+: items)
    (hcopied : ((formatBytes before).length : Int) ≤ d.opts + 1) :
    ∃ t, d.copied argNum = formatBytes before ++ t := by
  obtain ⟨after, rfl⟩ := hfront
  rw [Display.copied, hs.prefixOf_eq, formatBytes_append, List.take_append,
    List.take_of_length_le (by omega)]
  exact ⟨_, rfl⟩

/-- The front of a list that goes on is a part of it in front. -/
theorem prefix_of_append_cons {α : Type*} {l l₁ l₂ : List α} {a : α} (h : l = l₁ ++ a :: l₂) :
    l₁ ++ [a] <+: l := ⟨l₂, by rw [h, List.append_assoc, List.singleton_append]⟩

/-- Behind known directives and a floating-point one, nothing is read any more. -/
theorem endsBefore_of_float {items before : List (Item allLetters)} {x : Directive allLetters}
    {argNum : Int} (hs : StringAt d.mem (d.arg argNum) (formatBytes items))
    (hnull : d.arg argNum ≠ 0) (hopts : 0 ≤ d.opts) (hfits : d.opts + 3 < 2 ^ 31)
    (hfront : before ++ [.directive x] <+: items)
    (hcopied : ((formatBytes (before ++ [.directive x])).length : Int) ≤ d.opts + 1)
    (hknown : ∀ y, .directive y ∈ before → y.conv ∈ "diuoxXcs%".toList.map byteOf)
    (hx : x.conv ∈ "eEfg".toList.map byteOf) {i : Nat}
    (hi : (formatBytes (before ++ [.directive x])).length < i) : d.EndsBefore argNum i := by
  obtain ⟨t, ht⟩ := copied_of_prefix hs hfront hcopied
  obtain ⟨own, size, left, str1, hcopy, hformat, _, _, hown⟩ := displayFormat_eq hopts hnull hfits
  rw [formatBytes_append, formatBytes_directive] at ht hi
  rw [ht] at hcopy hformat
  obtain ⟨p, hscan, _, _, hread⟩ := scan_stops hknown hx hcopy
  rw [hscan] at hformat
  refine ⟨own ++ p, hformat, fun size' hmem => ?_⟩
  have hscanned : i ∈ (own ++ p).scanned := List.mem_filterMap.mpr ⟨_, hmem, rfl⟩
  rw [Printed.scanned_append, hown, List.nil_append] at hscanned
  have hle := hread i hscanned
  omega

/-- The first item with some property, and what holds of the ones in front of it. -/
theorem exists_first {items : List (Item letters)} (p : Item letters → Prop) [DecidablePred p]
    {item : Item letters} (hmem : item ∈ items) (hp : p item) :
    ∃ x before, before ++ [x] <+: items ∧ p x ∧ ∀ y ∈ before, ¬p y := by
  obtain ⟨x, before, after, hbefore, hx, heq, _⟩ :=
    List.exists_of_eraseP (p := fun y => decide (p y)) hmem (decide_eq_true hp)
  exact ⟨x, before, prefix_of_append_cons heq, of_decide_eq_true hx,
    fun y hy => by simpa using hbefore y hy⟩

/-- The text of the first directives is no longer than that of all. -/
theorem length_formatBytes_le {items before : List (Item letters)} (h : before <+: items) :
    (formatBytes before).length ≤ (formatBytes items).length := by
  obtain ⟨after, rfl⟩ := h
  rw [formatBytes_append, List.length_append]
  exact Nat.le_add_right ..

/-- A directive with another letter, further in front, is copied as well. -/
theorem Unknown.before {items before first : List (Item letters)} {x y : Directive letters}
    (h : Unknown d items before x) (hfirst : first ++ [.directive y] <+: before ++ [.directive x])
    (hy : y.conv ∈ "pnG".toList.map byteOf) : Unknown d items first y where
  occurs := hfirst.trans h.occurs
  conv_mem := hy
  copied := by
    have hle := length_formatBytes_le hfirst
    have hcopied := h.copied
    omega

/-- Where each directive with letter `p`, `n` or `G` comes behind one the scan stops at, nothing is
taken behind its letter. -/
theorem endsBefore_of_stopsIn {items before : List (Item allLetters)} {x : Directive allLetters}
    {argNum : Int} (hs : StringAt d.mem (d.arg argNum) (formatBytes items))
    (hnull : d.arg argNum ≠ 0) (hopts : 0 ≤ d.opts) (hfits : d.opts + 3 < 2 ^ 31)
    (hx : Unknown d items before x) (hstops : StopsIn before) :
    d.EndsBefore argNum (formatBytes (before ++ [.directive x])).length := by
  obtain ⟨front, item, hfirst, hfloat, hknown⟩ := hstops
  cases item with
  | literal c hpercent hzero => exact hfloat.elim
  | directive y =>
    have hcopied := hx.copied
    have hle := length_formatBytes_le hfirst
    have hpos : 0 < x.bytes.length := by simp [Directive.bytes]
    have hsplit : (formatBytes (before ++ [.directive x])).length =
        (formatBytes before).length + x.bytes.length := by
      rw [formatBytes_append, formatBytes_directive, List.length_append]
    have hfront := hfirst.trans ((List.prefix_append before [.directive x]).trans hx.occurs)
    exact endsBefore_of_float hs hnull hopts hfits hfront (by omega) (known_of_not hknown) hfloat
      (by omega)

/-- Behind directives it knows, the letter `p`, `n` or `G` does not end the scan of its
directive. -/
theorem not_endsBefore {items before : List (Item allLetters)} {x : Directive allLetters}
    {argNum : Int} (hs : StringAt d.mem (d.arg argNum) (formatBytes items))
    (hnull : d.arg argNum ≠ 0) (hopts : 0 ≤ d.opts) (hfits : d.opts + 3 < 2 ^ 31)
    (hx : Unknown d items before x) (hknown : ∀ item ∈ before, ¬item.HasLetter specialLetters) :
    ¬d.EndsBefore argNum (formatBytes (before ++ [.directive x])).length := by
  rintro ⟨p, hp, hread⟩
  obtain ⟨t, ht⟩ := copied_of_prefix hs hx.occurs hx.copied
  obtain ⟨own, size, left, str1, hcopy, hformat, _, _, _⟩ := displayFormat_eq hopts hnull hfits
  rw [formatBytes_append, formatBytes_directive] at ht hread
  rw [ht] at hcopy hformat
  obtain ⟨rest, hscan, rfl⟩ := Option.map_eq_some_iff.mp (hformat.symm.trans hp)
  exact hread size (List.mem_append_right _
    (scan_goes_on (known_of_not hknown) hx.conv_mem hcopy hscan))

/-- For every format over all conversion letters of C: behind each letter `p`, `n` or `G` that is
copied, the display ends and the loop over the directive takes no further byte, if there is no block
or the first directive in front that the scan stops at or does not know has letter `e`, `E`, `f` or
`g`. Where a letter `a`, `A` or `F`, which the scan does not know either, comes first in no format,
only then. -/
theorem letters_end_iff {items : List (Item allLetters)} {argNum : Int}
    (hs : StringAt d.mem (d.arg argNum) (formatBytes items)) (hnull : d.arg argNum ≠ 0)
    (hopts : 0 ≤ d.opts) :
    ((intMax < d.opts + 3 ∨ ∀ before x, Unknown d items before x → StopsIn before) →
      ∀ before x, Unknown d items before x →
        d.EndsBefore argNum (formatBytes (before ++ [.directive x])).length) ∧
    ((∀ front item, front ++ [item] <+: items → item.HasLetter "aAF" →
        ∃ item ∈ front, item.HasLetter specialLetters ∧ ¬item.HasLetter "aAF") →
      ((∀ before x, Unknown d items before x →
          d.EndsBefore argNum (formatBytes (before ++ [.directive x])).length) ↔
        intMax < d.opts + 3 ∨ ∀ before x, Unknown d items before x → StopsIn before)) := by
  have henough : (intMax < d.opts + 3 ∨ ∀ before x, Unknown d items before x → StopsIn before) →
      ∀ before x, Unknown d items before x →
        d.EndsBefore argNum (formatBytes (before ++ [.directive x])).length := by
    intro h before x hx
    by_cases hfits : d.opts + 3 < 2 ^ 31
    · have hstops := h.resolve_left (by unfold intMax; omega)
      exact endsBefore_of_stopsIn hs hnull hopts hfits hx (hstops before x hx)
    · exact ⟨_, displayFormat_of_large hnull hopts hfits, fun size hmem => by simp at hmem⟩
  refine ⟨henough, fun hnamed => ⟨fun hends => ?_, henough⟩⟩
  by_contra hnot
  rw [not_or] at hnot
  obtain ⟨hfits, hnot⟩ := hnot
  have hfits : d.opts + 3 < 2 ^ 31 := by unfold intMax at hfits; omega
  refine hnot fun before x hx => ?_
  by_contra hstops
  -- The first special directive can only be one with letter `p`, `n` or `G`.
  have hsplit : ∀ b ∈ specialLetters.toList.map byteOf, b ∈ "pnG".toList.map byteOf ∨
      b ∈ "eEfg".toList.map byteOf ∨ b ∈ "aAF".toList.map byteOf :=
    List.all_iff_forall_prop.mp rfl
  have hspecial : ∀ b ∈ "pnG".toList.map byteOf, b ∈ specialLetters.toList.map byteOf ∧
      b ∉ "eEfg".toList.map byteOf := List.all_iff_forall_prop.mp rfl
  obtain ⟨item, first, hfirst, hitem, hknown⟩ :=
    exists_first (Item.HasLetter specialLetters) (List.mem_append_right before List.mem_cons_self)
      (show Item.HasLetter specialLetters (.directive x) from (hspecial _ hx.conv_mem).1)
  cases item with
  | literal c hpercent hzero => exact hitem
  | directive y =>
    rcases hsplit _ hitem with hy | hy | hy
    · have hunknown := hx.before hfirst hy
      exact not_endsBefore hs hnull hopts hfits hunknown hknown (hends first y hunknown)
    · refine hstops ⟨first, .directive y, ?_, hy, hknown⟩
      rcases List.prefix_concat_iff.mp hfirst with hlast | hbefore
      · have hsame := (List.append_inj' hlast rfl).2
        cases hsame
        exact absurd hy (hspecial _ hx.conv_mem).2
      · exact hbefore
    · obtain ⟨other, hmem, hother, -⟩ := hnamed first _ (hfirst.trans hx.occurs) hy
      exact hknown other hmem hother

/-- A directive of a letter alone. -/
def plain (c : Char) (h : byteOf c ∈ allLetters.toList.map byteOf) : Directive allLetters :=
  ⟨[], byteOf c, List.forall_mem_nil _, h⟩

/-- Behind `%f`, the letter of `%p` is the last byte of the format. -/
theorem letters_end_iff_float :
    (formatting 32 ("%f%p".toList.map byteOf)).EndsBefore 0 4 := by
  let items : List (Item allLetters) :=
    [.directive (plain 'f' (by decide)), .directive (plain 'p' (by decide))]
  have hfloat : Item.HasLetter "eEfg" (.directive (plain 'f' (by decide))) := by decide
  refine (@letters_end_iff (formatting 32 ("%f%p".toList.map byteOf)) items 0
    ⟨by decide, by decide, by decide⟩ (by decide) (by decide)).1 (Or.inr ?_)
    [.directive (plain 'f' (by decide))] (plain 'p' (by decide))
    ⟨List.prefix_refl _, by decide, by decide⟩
  intro before x hx
  cases before with
  | nil =>
    obtain ⟨hhead, _⟩ := List.cons_prefix_cons.mp hx.occurs
    cases hhead
    exact absurd hx.conv_mem (by decide)
  | cons item before =>
    obtain ⟨hhead, _⟩ := List.cons_prefix_cons.mp hx.occurs
    exact ⟨[], item, List.cons_prefix_cons.mpr ⟨rfl, List.nil_prefix⟩, hhead ▸ hfloat,
      List.forall_mem_nil _⟩

/-- In `%p %d` the blank and the second percent sign belong to the first directive. -/
theorem blank_taken :
    ¬∀ (d : Display) (items : List (Item allLetters)) (argNum : Int),
      StringAt d.mem (d.arg argNum) (formatBytes items) → d.arg argNum ≠ 0 → 0 ≤ d.opts →
      ∀ before x, Unknown d items before x →
        d.EndsBefore argNum (formatBytes (before ++ [.directive x])).length := by
  intro hclaim
  obtain ⟨p, hp, hread⟩ := hclaim (formatting 32 ("%p %d".toList.map byteOf))
    [.directive (plain 'p' (by decide)), .literal (byteOf ' ') (by decide) (by decide),
      .directive (plain 'd' (by decide))] 0 ⟨by decide, by decide, by decide⟩ (by decide)
    (by decide) [] (plain 'p' (by decide)) ⟨⟨_, rfl⟩, by decide, by decide⟩
  have htaken : ((formatting 32 ("%p %d".toList.map byteOf)).displayFormat intMax 0).map
      (fun p => decide (.byte .directive 2 35 ∈ p.events)) = some true := by decide
  rw [hp, Option.map_some, Option.some.injEq, decide_eq_true_eq] at htaken
  exact hread 35 htaken

end Utrace
