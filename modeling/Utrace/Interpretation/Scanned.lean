import Mathlib.Data.Bool.AllAny
import Mathlib.Tactic.Linarith
import Utrace.Correctness.Strings

/-!
# What the scan of a format does

The scan takes a format byte by byte, in one of two loops. What it does over a text it has
passed is settled: the arguments it fetched, what it printed and which bytes it read. To pass
one text after another is to pass both joined, so every kind of byte needs one lemma.
-/

namespace Utrace

open Memory

namespace Access

/-- The number of an argument that is fetched. -/
def argNum? : Access → Option Int
  | .argument argNum => some argNum
  | .byte .. => none

/-- The index of a byte that the scan accesses. -/
def scanIndex? : Access → Option Nat
  | .byte .scan i _ | .byte .directive i _ => some i
  | _ => none

end Access

namespace Printed

/-- The arguments fetched. -/
def fetched (p : Printed Access) : List Int := p.events.filterMap Access.argNum?

/-- The bytes the scan accessed. -/
def scanned (p : Printed Access) : List Nat := p.events.filterMap Access.scanIndex?

/-- Fetches of calls in sequence are joined. -/
@[simp] theorem fetched_append (p q : Printed Access) :
    (p ++ q).fetched = p.fetched ++ q.fetched := List.filterMap_append

/-- Reads of the scan by calls in sequence are joined. -/
@[simp] theorem scanned_append (p q : Printed Access) :
    (p ++ q).scanned = p.scanned ++ q.scanned := List.filterMap_append

/-- Printing fetches nothing. -/
@[simp] theorem fetched_fprintf (text : List Char) : (fprintf text : Printed Access).fetched = [] :=
  rfl

/-- Printing scans nothing. -/
@[simp] theorem scanned_fprintf (text : List Char) : (fprintf text : Printed Access).scanned = [] :=
  rfl

/-- A fetch is one. -/
@[simp] theorem fetched_argument (argNum : Int) : (event (.argument argNum)).fetched = [argNum] :=
  rfl

/-- A fetch scans nothing. -/
@[simp] theorem scanned_argument (argNum : Int) : (event (.argument argNum)).scanned = [] := rfl

/-- An access to a block fetches nothing. -/
@[simp] theorem fetched_byte (site : Site) (i size : Nat) :
    (event (.byte site i size)).fetched = [] := rfl

/-- The outer loop scans the byte it reads. -/
@[simp] theorem scanned_scan (i size : Nat) : (event (.byte .scan i size)).scanned = [i] := rfl

/-- So does the inner loop. -/
@[simp] theorem scanned_directive (i size : Nat) :
    (event (.byte .directive i size)).scanned = [i] := rfl

/-- A display that touches its own block only. -/
def Apart (p : Printed Access) : Prop :=
  ∀ e ∈ p.events, e.argNum? = none ∧ e.scanIndex? = none

/-- What is apart from arguments and scans fetches nothing. -/
theorem Apart.fetched {p : Printed Access} (h : p.Apart) : p.fetched = [] :=
  List.filterMap_eq_nil_iff.mpr fun e he => (h e he).1

/-- It scans nothing either. -/
theorem Apart.scanned {p : Printed Access} (h : p.Apart) : p.scanned = [] :=
  List.filterMap_eq_nil_iff.mpr fun e he => (h e he).2

/-- Calls in sequence are apart if both are. -/
theorem Apart.append {p q : Printed Access} (hp : p.Apart) (hq : q.Apart) : (p ++ q).Apart :=
  List.forall_mem_append.mpr ⟨hp, hq⟩

/-- A call without accesses is apart. -/
theorem Apart.text {p : Printed Access} (h : p.events = []) : p.Apart := by
  rw [Apart, h]
  exact List.forall_mem_nil _

end Printed

/-! ## One argument -/

section Apart

open Printed

/-- Reading a character to display it is apart. -/
theorem apart_characters (i size : Nat) : (event (.byte .characters i size)).Apart :=
  List.forall_mem_singleton.mpr ⟨rfl, rfl⟩

/-- Displaying a character is apart. -/
theorem apart_displayChar (what : Int) : (displayChar what).Apart := .text (events_displayChar what)

/-- The stores of a copy are apart. -/
theorem apart_stores (size : Nat) (copy : List Byte) : (stores size copy).Apart := by
  intro e he
  obtain ⟨i, _, rfl⟩ := List.mem_map.mp he
  exact ⟨rfl, rfl⟩

/-- Displaying the characters of a string is apart. -/
theorem apart_showBytes (str1 : Nat → Byte) (size turns i : Nat) :
    (showBytes str1 size turns i).1.Apart := by
  induction turns generalizing i with
  | zero => exact .text rfl
  | succ turns ih =>
    unfold showBytes
    dsimp only
    split
    · exact ((apart_characters i size).append (apart_displayChar _)).append (ih (i + 1))
    · exact apart_characters i size

/-- Displaying the characters of a format is apart. -/
theorem apart_showFormat (str1 : Nat → Byte) (size : Nat) (bound : Int) (turns : Nat) (len : Int)
    (i : Nat) : (Display.showFormat str1 size bound turns len i).1.Apart := by
  induction turns generalizing len i with
  | zero => exact .text rfl
  | succ turns ih =>
    unfold Display.showFormat
    dsimp only
    split_ifs
    · exact ((apart_characters i size).append (apart_displayChar _)).append (ih _ (i + 1))
    · exact apart_characters i size
    · exact .text rfl

/-- Looking behind the characters is apart. -/
theorem apart_showCut (d : Display) (stringMaxlength : Int) (str1 : Nat → Byte) (size i : Nat) :
    (showCut d stringMaxlength str1 size i).Apart := by
  unfold showCut
  refine (apart_characters i size).append ?_
  split <;> exact .text rfl

end Apart

variable (d : Display) (stringMaxlength : Int)

/-- `display_string` fetches its own argument and no other. -/
theorem displayString_accesses (argNum : Int) :
    (d.displayString stringMaxlength argNum).fetched = [argNum] ∧
      (d.displayString stringMaxlength argNum).scanned = [] := by
  unfold Display.displayString
  dsimp only
  rw [Printed.fetched_append, Printed.scanned_append, Printed.fetched_argument,
    Printed.scanned_argument]
  split_ifs
  · exact ⟨rfl, rfl⟩
  · rw [Printed.Apart.fetched, Printed.Apart.scanned]
    · exact ⟨rfl, rfl⟩
    all_goals
      exact ((((apart_stores _ _).append (.text rfl)).append (apart_showBytes _ _ _ _)).append
        (.text rfl)).append (apart_showCut _ _ _ _ _)
  · exact ⟨rfl, rfl⟩

/-- Whatever a conversion asks for, one argument is fetched. -/
theorem displayAsked_accesses (argNum : Int) (c : Byte) :
    (d.displayAsked stringMaxlength argNum c).fetched = [argNum] ∧
      (d.displayAsked stringMaxlength argNum c).scanned = [] := by
  obtain ⟨hfetched, hscanned⟩ := displayString_accesses d stringMaxlength argNum
  have hchar := apart_displayChar (d.arg argNum).toInt
  unfold Display.displayAsked
  dsimp only
  split_ifs <;> simp [hfetched, hscanned, hchar.fetched, hchar.scanned]

/-! ## Passing a text -/

/-- Arguments in turn, from the one behind a number on. -/
def numbers (argNum : Int) (n : Nat) : List Int :=
  (List.range n).map fun j : Nat => argNum + 1 + (j : Int)

/-- The texts of arguments in turn, from the one behind a number on, for the conversions that
ask for them. -/
def Display.argumentsText (argNum : Int) : List Byte → List Char
  | [] => []
  | c :: asked =>
    (d.displayAsked stringMaxlength (argNum + 1) c).text ++ argumentsText (argNum + 1) asked

/-- Numbers behind a number, taken in two parts. -/
theorem numbers_add (argNum : Int) (k n : Nat) :
    numbers argNum (k + n) = numbers argNum k ++ numbers (argNum + k) n := by
  unfold numbers
  rw [List.range_add, List.map_append, List.map_map]
  congr 1
  apply List.map_congr_left
  intro j _
  rw [Function.comp_apply, Nat.cast_add]
  omega

/-- The first of the numbers behind a number. -/
theorem numbers_succ (argNum : Int) (n : Nat) :
    numbers argNum (n + 1) = (argNum + 1) :: numbers (argNum + 1) n := by
  rw [Nat.add_comm, numbers_add]
  simp [numbers]

/-- The texts of arguments, taken in two parts. -/
theorem argumentsText_append (argNum : Int) (asked more : List Byte) :
    d.argumentsText stringMaxlength argNum (asked ++ more) =
      d.argumentsText stringMaxlength argNum asked ++
        d.argumentsText stringMaxlength (argNum + asked.length) more := by
  induction asked generalizing argNum with
  | nil => simp [Display.argumentsText]
  | cons c asked ih =>
    have hnext : argNum + 1 + (asked.length : Int) = argNum + ((c :: asked).length : Nat) := by
      rw [List.length_cons]
      omega
    rw [List.cons_append, Display.argumentsText, Display.argumentsText, ih, hnext,
      List.append_assoc]

/-- The scan passes a text, starting and ending in one of its loops, and the conversions in the
text ask for arguments. -/
def Passes (size : Nat) (inside : Bool) (t : List Byte) (inside' : Bool) (asked : List Byte) :
    Prop :=
  ∀ (left i : Nat) (argNum : Int) (str1 : Nat → Byte), peek t.length str1 i = t →
    ∃ p : Printed Access,
      d.scanFormat stringMaxlength size (left + t.length) inside i argNum str1 =
        (d.scanFormat stringMaxlength size left inside' (i + t.length) (argNum + asked.length)
          str1).map (fun rest => p ++ rest) ∧
      p.text = d.argumentsText stringMaxlength argNum asked ∧
      p.fetched = numbers argNum asked.length ∧ ∀ k ∈ p.scanned, k < i + t.length

variable {d stringMaxlength} {size : Nat}

namespace Passes

/-- An empty text is passed. -/
theorem nil (inside : Bool) : Passes d stringMaxlength size inside [] inside [] := by
  intro left i argNum str1 _
  refine ⟨.nothing, ?_, rfl, rfl, List.forall_mem_nil _⟩
  simp only [List.length_nil, Nat.cast_zero, add_zero]
  cases d.scanFormat stringMaxlength size left inside i argNum str1 with
  | none => rfl
  | some p => rw [Option.map_some, Printed.nothing_append]

/-- One text after another. -/
theorem append {inside inside' inside'' : Bool} {t t' asked asked' : List Byte}
    (h : Passes d stringMaxlength size inside t inside' asked)
    (h' : Passes d stringMaxlength size inside' t' inside'' asked') :
    Passes d stringMaxlength size inside (t ++ t') inside'' (asked ++ asked') := by
  intro left i argNum str1 hcells
  rw [List.length_append, peek_add] at hcells
  obtain ⟨hfirst, hsecond⟩ := List.append_inj hcells (length_peek _ _ _)
  obtain ⟨p, hscan, htext, hfetched, hread⟩ := h (left + t'.length) i argNum str1 hfirst
  obtain ⟨p', hscan', htext', hfetched', hread'⟩ :=
    h' left (i + t.length) (argNum + asked.length) str1 hsecond
  have hbytes : left + (t ++ t').length = left + t'.length + t.length := by
    rw [List.length_append]
    omega
  have hindex : i + t.length + t'.length = i + (t ++ t').length := by
    rw [List.length_append]
    omega
  have hnumber : argNum + asked.length + asked'.length =
      argNum + ((asked ++ asked').length : Nat) := by
    rw [List.length_append, Nat.cast_add]
    omega
  refine ⟨p ++ p', ?_, ?_, ?_, ?_⟩
  · rw [hbytes, hscan, hscan', hindex, hnumber, Option.map_map]
    congr 1
    funext rest
    exact (Printed.append_assoc p p' rest).symm
  · rw [Printed.text_append, htext, htext', argumentsText_append]
  · rw [Printed.fetched_append, hfetched, hfetched', List.length_append, numbers_add]
  · rw [Printed.scanned_append, List.forall_mem_append]
    refine ⟨fun k hk => ?_, fun k hk => ?_⟩
    · exact lt_of_lt_of_le (hread k hk) (by rw [List.length_append]; omega)
    · exact lt_of_lt_of_eq (hread' k hk) hindex

/-- One byte. -/
theorem byte {inside inside' : Bool} {c : Byte} {asked : List Byte}
    (h : ∀ (left i : Nat) (argNum : Int) (str1 : Nat → Byte), str1 i = c →
      ∃ p : Printed Access,
        d.scanFormat stringMaxlength size (left + 1) inside i argNum str1 =
          (d.scanFormat stringMaxlength size left inside' (i + 1) (argNum + asked.length)
            str1).map (fun rest => p ++ rest) ∧
        p.text = d.argumentsText stringMaxlength argNum asked ∧
        p.fetched = numbers argNum asked.length ∧ p.scanned = [i]) :
    Passes d stringMaxlength size inside [c] inside' asked := by
  intro left i argNum str1 hcells
  obtain ⟨p, hscan, htext, hfetched, hread⟩ :=
    h left i argNum str1 (by simpa [peek] using hcells)
  refine ⟨p, hscan, htext, hfetched, ?_⟩
  rw [hread]
  exact List.forall_mem_singleton.mpr (Nat.lt_succ_self i)

/-- A character outside the directives. -/
theorem literal {c : Byte} (hc : c ≠ byteOf '%') (hne : c ≠ 0) :
    Passes d stringMaxlength size false [c] false [] := by
  refine byte fun left i argNum str1 hbyte => ⟨.event (.byte .scan i size), ?_, rfl, rfl, rfl⟩
  rw [Display.scanFormat, if_neg (by rw [hbyte]; exact hne), hbyte, decide_eq_false hc]
  simp

/-- The begin of a directive. -/
theorem percent : Passes d stringMaxlength size false [byteOf '%'] true [] := by
  refine byte fun left i argNum str1 hbyte => ⟨.event (.byte .scan i size), ?_, rfl, rfl, rfl⟩
  rw [Display.scanFormat, if_neg (by rw [hbyte]; decide), hbyte, decide_eq_true rfl]
  simp

/-- A directive that ends with a percent sign. -/
theorem closing : Passes d stringMaxlength size true [byteOf '%'] false [] := by
  refine byte fun left i argNum str1 hbyte =>
    ⟨.event (.byte .directive i size), ?_, rfl, rfl, rfl⟩
  rw [Display.scanFormat, if_pos (Or.inl hbyte)]
  simp

/-- The argument of a conversion, or of a `*`. -/
theorem fetching (i : Nat) (argNum : Int) (c : Byte) :
    let p := Printed.event (.byte .directive i size) ++
      d.displayAsked stringMaxlength (argNum + 1) c
    p.text = d.argumentsText stringMaxlength argNum [c] ∧ p.fetched = numbers argNum 1 ∧
      p.scanned = [i] := by
  obtain ⟨hfetched, hscanned⟩ := displayAsked_accesses d stringMaxlength (argNum + 1) c
  refine ⟨(List.append_nil _).symm, ?_, ?_⟩
  · rw [Printed.fetched_append, hfetched]
    simp [numbers]
  · rw [Printed.scanned_append, hscanned]
    rfl

/-- The letter of a conversion that has an argument. -/
theorem letter {c : Byte} (hc : c ∈ "diuoxXcs".toList.map byteOf) :
    Passes d stringMaxlength size true [c] false [c] := by
  have hletters : ∀ b ∈ "diuoxXcs".toList.map byteOf, ¬(b = byteOf '%' ∨ b = 0) :=
    List.all_iff_forall_prop.mp rfl
  have hother := hletters c hc
  refine byte fun left i argNum str1 hbyte =>
    ⟨_, ?_, @fetching d stringMaxlength size i argNum c⟩
  rw [Display.scanFormat, hbyte, if_neg hother, if_pos (List.contains_iff_mem.mpr hc)]
  rfl

/-- A width or a precision that is an argument. -/
theorem star : Passes d stringMaxlength size true [byteOf '*'] true [byteOf '*'] := by
  refine byte fun left i argNum str1 hbyte =>
    ⟨_, ?_, @fetching d stringMaxlength size i argNum (byteOf '*')⟩
  rw [Display.scanFormat, hbyte, if_neg (by decide), if_neg (by decide), if_neg (by decide),
    if_pos rfl]
  rfl

/-- Any other character inside a directive. -/
theorem other {c : Byte} (hc : c ∉ "%diuoxXcseEfg*".toList.map byteOf) (hne : c ≠ 0) :
    Passes d stringMaxlength size true [c] true [] := by
  refine byte fun left i argNum str1 hbyte =>
    ⟨.event (.byte .directive i size), ?_, rfl, rfl, rfl⟩
  have hclosing : ¬(c = byteOf '%' ∨ c = 0) := by
    rintro (rfl | rfl)
    · exact hc (by decide)
    · exact hne rfl
  have hletters : ∀ c ∈ "diuoxXcs".toList.map byteOf,
      c ∈ "%diuoxXcseEfg*".toList.map byteOf := List.all_iff_forall_prop.mp rfl
  have hfloats : ∀ c ∈ "eEfg".toList.map byteOf,
      c ∈ "%diuoxXcseEfg*".toList.map byteOf := List.all_iff_forall_prop.mp rfl
  have hstar : c ≠ byteOf '*' := by
    rintro rfl
    exact hc (by decide)
  have hletter : ¬("diuoxXcs".toList.map byteOf).contains c = true :=
    fun h => hc (hletters c (List.contains_iff_mem.mp h))
  have hfloat : ¬("eEfg".toList.map byteOf).contains c = true :=
    fun h => hc (hfloats c (List.contains_iff_mem.mp h))
  rw [Display.scanFormat, hbyte, if_neg hclosing, if_neg hletter, if_neg hfloat, if_neg hstar]
  simp

end Passes

/-! ## The ends of the scan -/

/-- The zero outside a directive. -/
theorem scan_end {left i : Nat} {argNum : Int} {str1 : Nat → Byte} (h : str1 i = 0) :
    d.scanFormat stringMaxlength size (left + 1) false i argNum str1 =
      some (.event (.byte .scan i size)) := by
  rw [Display.scanFormat, if_pos h]

/-- A floating-point conversion stores a zero behind its letter and ends the scan. -/
theorem scan_float {left i : Nat} {argNum : Int} {str1 : Nat → Byte}
    (h : str1 i ∈ "eEfg".toList.map byteOf) :
    d.scanFormat stringMaxlength size (left + 2) true i argNum str1 =
      some (.event (.byte .directive i size) ++ fprintf ", ...".toList ++
        .event (.byte .directive (i + 1) size) ++ .event (.byte .scan (i + 1) size)) := by
  have hclosing : ¬(str1 i = byteOf '%' ∨ str1 i = 0) := by
    revert h
    generalize str1 i = c
    revert c
    decide
  have hletter : ¬("diuoxXcs".toList.map byteOf).contains (str1 i) = true := by
    revert h
    generalize str1 i = c
    revert c
    decide
  rw [Display.scanFormat, if_neg hclosing, if_neg hletter, if_pos (List.contains_iff_mem.mpr h),
    scan_end (Function.update_self ..)]
  rfl

/-! ## The display of a format -/

namespace Display

/-- What `umovestr` copies of a format, up to its zero. -/
def copied (d : Display) (argNum : Int) : List Byte :=
  prefixOf d.mem (d.arg argNum) (d.opts + 1).toNat

/-- The block of the copy. -/
def formatBlock (d : Display) (argNum : Int) : Nat → Byte :=
  storedIn ((d.heap argNum).fresh (blockSize d.opts intMax))
    (umovestr d.mem (d.arg argNum) (minLength d.opts intMax + 1))

/-- `display_format` up to the scan, with a block. -/
def formatShown (d : Display) (argNum : Int) : Printed Access :=
  let size := blockSize d.opts intMax
  let length := minLength d.opts intMax
  let shown := showFormat (d.formatBlock argNum) size (length + 1) (length + 1).toNat 1 0
  Printed.event (.argument argNum) ++ stores size (umovestr d.mem (d.arg argNum) (length + 1)) ++
    fprintf ['"'] ++ shown.1 ++ fprintf ['"'] ++
    showCut d intMax (d.formatBlock argNum) size shown.2

/-- What `display_format` prints before it scans the directives. -/
def formatText (d : Display) (argNum : Int) : List Char :=
  if mallocs (blockSize d.opts intMax) then (d.formatShown argNum).text else "???".toList

end Display

/-- The block of a format is there exactly for a small `opt_s`. -/
theorem mallocs_iff (hopts : 0 ≤ d.opts) :
    mallocs (blockSize d.opts intMax) = true ↔ d.opts + 3 < 2 ^ 31 := by
  unfold mallocs blockSize intMax
  rw [decide_eq_true_eq, minLength_eq]
  omega

/-- Without a block nothing is scanned. -/
theorem displayFormat_of_large {argNum : Int} (hnull : d.arg argNum ≠ 0) (hopts : 0 ≤ d.opts)
    (hlarge : ¬d.opts + 3 < 2 ^ 31) :
    d.displayFormat intMax argNum =
      some (.event (.argument argNum) ++ fprintf (d.formatText argNum)) := by
  have hmalloc : ¬mallocs (blockSize d.opts intMax) = true := fun h =>
    hlarge ((mallocs_iff hopts).mp h)
  unfold Display.displayFormat Display.formatText
  dsimp only
  rw [if_neg hnull, if_neg hmalloc, if_neg hmalloc]

/-- Displaying the format itself fetches its own argument and scans nothing. -/
theorem formatShown_accesses (d : Display) (argNum : Int) :
    (d.formatShown argNum).fetched = [argNum] ∧ (d.formatShown argNum).scanned = [] := by
  have hshown := apart_showFormat (d.formatBlock argNum) (blockSize d.opts intMax)
  constructor
  · simp [Display.formatShown, (apart_stores _ _).fetched, (hshown _ _ _ _).fetched,
      (apart_showCut _ _ _ _ _).fetched]
  · simp [Display.formatShown, (apart_stores _ _).scanned, (hshown _ _ _ _).scanned,
      (apart_showCut _ _ _ _ _).scanned]

/-- With a block, the scan goes over the copy; behind the zero that ends it, there is a byte of
the block at least. -/
theorem displayFormat_eq {argNum : Int} (hopts : 0 ≤ d.opts) (hnull : d.arg argNum ≠ 0)
    (hfits : d.opts + 3 < 2 ^ 31) :
    ∃ (own : Printed Access) (size left : Nat) (str1 : Nat → Byte),
      StringAt str1 0 (d.copied argNum) ∧
      d.displayFormat intMax argNum =
        (d.scanFormat intMax size (left + 2 + (d.copied argNum).length) false 0 argNum
          str1).map (fun rest => own ++ rest) ∧
      own.text = d.formatText argNum ∧ own.fetched = [argNum] ∧ own.scanned = [] := by
  have hmalloc := (mallocs_iff hopts).mpr hfits
  have hlength : minLength d.opts intMax = d.opts := by
    rw [minLength_eq, intMax]
    omega
  have hcopy := stringAt_copy ((d.heap argNum).fresh (blockSize d.opts intMax)) d.mem
    (d.arg argNum) (minLength d.opts intMax + 1)
  have hbytes : (d.copied argNum).length + 2 ≤
      (d.heap argNum).mapped (blockSize d.opts intMax) := by
    have hsize : (blockSize d.opts intMax : Int) = d.opts + 3 := by
      rw [blockSize, hlength]
      omega
    have hle := length_prefixOf_le d.mem (d.arg argNum) (d.opts + 1).toNat
    have hmapped := (d.heap argNum).le_mapped (blockSize d.opts intMax)
    unfold Display.copied
    omega
  obtain ⟨left, hleft⟩ := Nat.exists_eq_add_of_le hbytes
  have hturns : (d.heap argNum).mapped (blockSize d.opts intMax) =
      left + 2 + (d.copied argNum).length := by omega
  refine ⟨d.formatShown argNum, blockSize d.opts intMax, left, d.formatBlock argNum, ?_, ?_, ?_,
    formatShown_accesses d argNum⟩
  · rw [hlength] at hcopy
    unfold Display.formatBlock
    rw [hlength]
    exact hcopy
  · unfold Display.displayFormat
    dsimp only
    rw [if_neg hnull, if_pos hmalloc, hturns]
    rfl
  · rw [Display.formatText, if_pos hmalloc]

end Utrace
