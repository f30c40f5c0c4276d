import Mathlib.Algebra.Order.Ring.Int
import Mathlib.Data.List.Basic
import Mathlib.Tactic.Common

/-!
# Printing with a count

A call that prints returns how many characters it printed, and its caller adds the results
up by hand; the results are taken for unbounded. Calls in sequence are appended: their results
are summed, their texts and whatever else they did are joined. The column of a text is what was
printed since its last newline; a call that counts right and prints no newline moves the column
by its result.
-/

namespace Utrace

variable {ε : Type*}

/-- What a call returned and printed, and the other things it did, in order. -/
structure Printed (ε : Type*) where
  ret : Int := 0
  text : List Char := []
  events : List ε := []
  deriving DecidableEq

namespace Printed

/-- A call that does nothing and returns zero. -/
def nothing : Printed ε := {}

/-- Two calls in sequence, with their results added up. -/
instance : Append (Printed ε) where
  append p q := ⟨p.ret + q.ret, p.text ++ q.text, p.events ++ q.events⟩

/-- Something done besides printing. -/
def event (e : ε) : Printed ε := { events := [e] }

/-- The results of two calls are added up. -/
@[simp] theorem ret_append (p q : Printed ε) : (p ++ q).ret = p.ret + q.ret := rfl

/-- Their texts are joined. -/
@[simp] theorem text_append (p q : Printed ε) : (p ++ q).text = p.text ++ q.text := rfl

/-- So is what else they did. -/
@[simp] theorem events_append (p q : Printed ε) : (p ++ q).events = p.events ++ q.events := rfl

/-- Doing nothing returns zero. -/
@[simp] theorem ret_nothing : (nothing : Printed ε).ret = 0 := rfl

/-- Doing nothing prints nothing. -/
@[simp] theorem text_nothing : (nothing : Printed ε).text = [] := rfl

/-- Doing nothing does nothing else. -/
@[simp] theorem events_nothing : (nothing : Printed ε).events = [] := rfl

/-- What is done besides printing counts nothing. -/
@[simp] theorem ret_event (e : ε) : (event e).ret = 0 := rfl

/-- It prints nothing. -/
@[simp] theorem text_event (e : ε) : (event e).text = [] := rfl

/-- It is what was done. -/
@[simp] theorem events_event (e : ε) : (event e).events = [e] := rfl

/-- A call is its result, its text and what else it did. -/
@[ext] theorem ext {p q : Printed ε} (hret : p.ret = q.ret) (htext : p.text = q.text)
    (hevents : p.events = q.events) : p = q := by
  cases p
  cases q
  cases hret
  cases htext
  cases hevents
  rfl

/-- Three calls in sequence may be joined in any order. -/
theorem append_assoc (p q r : Printed ε) : p ++ q ++ r = p ++ (q ++ r) := by
  ext1
  · exact add_assoc ..
  · exact List.append_assoc ..
  · exact List.append_assoc ..

/-- Nothing in front of a call changes nothing. -/
@[simp] theorem nothing_append (p : Printed ε) : nothing ++ p = p := by
  ext1
  · exact zero_add _
  · rfl
  · rfl

/-- The result is the number of characters printed, and no newline is among them. -/
structure Counts (p : Printed ε) : Prop where
  ret_eq : p.ret = p.text.length
  noNewline : '\n' ∉ p.text

/-- Doing nothing counts right. -/
theorem Counts.nothing : (nothing : Printed ε).Counts := ⟨rfl, List.not_mem_nil⟩

/-- So does what is done besides printing. -/
theorem Counts.event (e : ε) : (event e).Counts := ⟨rfl, List.not_mem_nil⟩

/-- Adding up keeps the count right. -/
theorem Counts.append {p q : Printed ε} (hp : p.Counts) (hq : q.Counts) : (p ++ q).Counts := by
  refine ⟨?_, ?_⟩
  · rw [ret_append, text_append, hp.ret_eq, hq.ret_eq, List.length_append]
    exact (Nat.cast_add ..).symm
  · rw [text_append, List.mem_append]
    exact not_or_intro hp.noNewline hq.noNewline

/-- A choice of calls that count right counts right. -/
theorem Counts.ite {c : Prop} [Decidable c] {p q : Printed ε} (hp : p.Counts) (hq : q.Counts) :
    (if c then p else q).Counts := by
  split
  · exact hp
  · exact hq

end Printed

/-! ## Calls that may not return -/

/-- A call that prints and changes a state, if it returns. -/
abbrev Printing (ε σ : Type*) := σ → Option (Printed ε × σ)

namespace Printing

variable {σ : Type*}

/-- A call that only prints. -/
def print (p : Printed ε) : Printing ε σ := fun s => some (p, s)

/-- Two calls in sequence. -/
def andThen (a b : Printing ε σ) : Printing ε σ := fun s =>
  (a s).bind fun first => (b first.2).map fun second => (first.1 ++ second.1, second.2)

/-- Calls in sequence are associative. -/
theorem andThen_assoc (a b c : Printing ε σ) :
    (a.andThen b).andThen c = a.andThen (b.andThen c) := by
  funext s
  unfold andThen
  cases a s with
  | none => rfl
  | some first =>
    dsimp only [Option.bind_some]
    cases b first.2 with
    | none => rfl
    | some second =>
      dsimp only [Option.bind_some, Option.map_some]
      cases c second.2 with
      | none => rfl
      | some third =>
        dsimp only [Option.map_some]
        rw [Printed.append_assoc]

/-- Whatever the call returns has a property. -/
def Always (P : Printed ε → Prop) (a : Printing ε σ) : Prop :=
  ∀ s r, a s = some r → P r.1

/-- A call that only prints always has the property of what it prints. -/
theorem always_print {P : Printed ε → Prop} {p : Printed ε} (h : P p) :
    (print p : Printing ε σ).Always P := by
  intro s r hr
  cases hr
  exact h

/-- Sequences are treated by what appending does to the properties. -/
theorem Always.andThen {P Q R : Printed ε → Prop} {a b : Printing ε σ} (ha : a.Always P)
    (hb : b.Always Q) (happend : ∀ p q, P p → Q q → R (p ++ q)) : (a.andThen b).Always R := by
  intro s r hr
  obtain ⟨first, hfirst, hmap⟩ := Option.bind_eq_some_iff.mp hr
  obtain ⟨second, hsecond, rfl⟩ := Option.map_eq_some_iff.mp hmap
  exact happend _ _ (ha _ _ hfirst) (hb _ _ hsecond)

end Printing

/-! ## Columns -/

/-- The number of characters since the last newline. -/
def column (text : List Char) : Nat := (text.reverse.takeWhile (· ≠ '\n')).length

/-- An empty text ends at the first column. -/
@[simp] theorem column_nil : column [] = 0 := rfl

/-- After a newline the column is zero. -/
theorem column_newline (text : List Char) : column (text ++ ['\n']) = 0 := by
  simp [column]

/-- Text without a newline moves the column by its length. -/
theorem column_append {text line : List Char} (h : '\n' ∉ line) :
    column (text ++ line) = column text + line.length := by
  have hall : ∀ c ∈ line.reverse, decide (c ≠ '\n') = true := by
    intro c hc
    rw [List.mem_reverse] at hc
    exact decide_eq_true fun heq => h (heq ▸ hc)
  unfold column
  rw [List.reverse_append, List.takeWhile_append_of_pos hall, List.length_append,
    List.length_reverse, Nat.add_comm]

/-- A call that counts right moves the column by its result. -/
theorem Printed.Counts.column_append {p : Printed ε} (h : p.Counts) (text : List Char) :
    (column (text ++ p.text) : Int) = column text + p.ret := by
  rw [Utrace.column_append h.noNewline, h.ret_eq]
  exact Nat.cast_add ..

end Utrace
