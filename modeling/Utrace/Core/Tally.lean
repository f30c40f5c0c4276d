import Mathlib.Algebra.BigOperators.Group.List.Basic
import Mathlib.Algebra.Order.Ring.Int
import Mathlib.Data.List.Induction
import Mathlib.Tactic.Common

/-!
# Tables that keep a tally, and digits that carry late

A step adds the value of a pair to what the table holds for its key and leaves the other
keys alone. After any sequence of pairs a lookup is then the fold over the values paired
with the key. Where such a fold keeps a digit that carries only past its radix, the digit
ends below the radix exactly where the sum is no positive multiple of it.
-/

namespace Utrace

/-! ## The values of one key -/

section Tally

variable {τ κ ν β : Type*} [DecidableEq κ]

/-- The values paired with a key, in their order. -/
def valuesOf (pairs : List (κ × ν)) (key : κ) : List ν :=
  (pairs.filter fun pair => pair.1 = key).map Prod.snd

/-- A further pair adds its value to those of its key. -/
theorem valuesOf_snoc (pairs : List (κ × ν)) (pair : κ × ν) (key : κ) :
    valuesOf (pairs ++ [pair]) key =
      if pair.1 = key then valuesOf pairs key ++ [pair.2] else valuesOf pairs key := by
  unfold valuesOf
  rw [List.filter_append, List.map_append]
  by_cases hkey : pair.1 = key
  · rw [if_pos hkey, List.filter_singleton, decide_eq_true hkey]
    rfl
  · rw [if_neg hkey, List.filter_singleton, decide_eq_false hkey]
    exact List.append_nil _

/-- A key has values exactly if it occurs. -/
theorem valuesOf_ne_nil_iff {pairs : List (κ × ν)} {key : κ} :
    valuesOf pairs key ≠ [] ↔ key ∈ pairs.map Prod.fst := by
  unfold valuesOf
  rw [ne_eq, List.map_eq_nil_iff, List.filter_eq_nil_iff, List.mem_map]
  push Not
  simp only [decide_eq_true_eq]

/-- Values may be changed before or after they are gathered. -/
theorem valuesOf_map {ν' : Type*} (f : ν → ν') (pairs : List (κ × ν)) (key : κ) :
    valuesOf (pairs.map fun pair => (pair.1, f pair.2)) key = (valuesOf pairs key).map f := by
  induction pairs using List.reverseRecOn with
  | nil => rfl
  | append_singleton pairs pair ih =>
    rw [List.map_append, List.map_singleton, valuesOf_snoc, valuesOf_snoc, ih]
    split
    · rw [List.map_append, List.map_singleton]
    · rfl

/-- A value of a key is in a pair with it. -/
theorem mem_of_mem_valuesOf {pairs : List (κ × ν)} {key : κ} {value : ν}
    (h : value ∈ valuesOf pairs key) : (key, value) ∈ pairs := by
  obtain ⟨pair, hpair, rfl⟩ := List.mem_map.mp h
  obtain ⟨hmem, hkey⟩ := List.mem_filter.mp hpair
  obtain rfl := of_decide_eq_true hkey
  exact hmem

/-- The values of all keys are the values of all pairs. -/
theorem sum_valuesOf (f : ν → Int) (pairs : List (κ × ν)) {keys : List κ} (hnodup : keys.Nodup)
    (hkeys : ∀ pair ∈ pairs, pair.1 ∈ keys) :
    (keys.map fun key => ((valuesOf pairs key).map f).sum).sum =
      (pairs.map fun pair => f pair.2).sum := by
  induction pairs using List.reverseRecOn with
  | nil => simp [valuesOf]
  | append_singleton pairs pair ih =>
    rw [List.forall_mem_append, List.forall_mem_singleton] at hkeys
    have hsplit : ∀ key, ((valuesOf (pairs ++ [pair]) key).map f).sum =
        ((valuesOf pairs key).map f).sum + if key = pair.1 then f pair.2 else 0 := by
      intro key
      rw [valuesOf_snoc]
      by_cases hkey : key = pair.1
      · rw [if_pos hkey.symm, if_pos hkey, List.map_append, List.sum_append, List.map_singleton,
          List.sum_singleton]
      · rw [if_neg (Ne.symm hkey), if_neg hkey, add_zero]
    -- The last pair adds to one key only.
    have hone : (keys.map fun key => if key = pair.1 then f pair.2 else 0).sum = f pair.2 := by
      rw [List.sum_map_ite_eq, hnodup.count, if_pos hkeys.2]
      simp
    rw [List.map_congr_left fun key _ => hsplit key, List.sum_map_add, ih hkeys.1, hone,
      List.map_append, List.sum_append, List.map_singleton, List.sum_singleton]

/-- What a step does to the lookups of a table: the value is added for its own key, from
`init` on when there is nothing yet. -/
def Tallies (lookup : τ → κ → Option β) (init : β) (add : β → ν → β) (step : τ → κ × ν → τ) :
    Prop :=
  ∀ table pair key, lookup (step table pair) key =
    if key = pair.1 then some (add ((lookup table key).getD init) pair.2) else lookup table key

/-- A lookup after a sequence of pairs, in a table that was empty. -/
theorem Tallies.lookup_foldl {lookup : τ → κ → Option β} {init : β} {add : β → ν → β}
    {step : τ → κ × ν → τ} (h : Tallies lookup init add step) {table : τ}
    (hempty : ∀ key, lookup table key = none) (pairs : List (κ × ν)) (key : κ) :
    lookup (pairs.foldl step table) key =
      if valuesOf pairs key = [] then none else some ((valuesOf pairs key).foldl add init) := by
  induction pairs using List.reverseRecOn with
  | nil => exact hempty key
  | append_singleton pairs pair ih =>
    rw [List.foldl_append, List.foldl_cons, List.foldl_nil, h, ih, valuesOf_snoc]
    by_cases hkey : key = pair.1
    · subst hkey
      rw [if_pos rfl, if_pos rfl, if_neg (List.concat_ne_nil _ _), List.foldl_append]
      by_cases hnil : valuesOf pairs pair.1 = []
      · rw [if_pos hnil, hnil]
        rfl
      · rw [if_neg hnil]
        rfl
    · rw [if_neg hkey, if_neg (Ne.symm hkey)]

end Tally

/-! ## A digit that carries late -/

/-- The digit a fold leaves that takes the radix off only when a sum is above it. -/
def lateDigit (radix : Int) (values : List Int) : Int :=
  values.foldl
    (fun digit value => if radix < digit + value then digit + (value - radix) else digit + value) 0

/-- A further value, and whether it carries. -/
theorem lateDigit_snoc (radix : Int) (values : List Int) (value : Int) :
    lateDigit radix (values ++ [value]) =
      if radix < lateDigit radix values + value then lateDigit radix values + (value - radix)
      else lateDigit radix values + value := by
  unfold lateDigit
  rw [List.foldl_append]
  rfl

/-- The digit and what was carried make up the sum; a null digit was never carried from. -/
theorem lateDigit_spec {radix : Int} (hradix : 0 < radix) {values : List Int}
    (h : ∀ value ∈ values, 0 ≤ value ∧ value < radix) :
    0 ≤ lateDigit radix values ∧ lateDigit radix values ≤ radix ∧
      ∃ carried : Int, 0 ≤ carried ∧ values.sum = lateDigit radix values + radix * carried ∧
        (lateDigit radix values = 0 → carried = 0) := by
  induction values using List.reverseRecOn with
  | nil => exact ⟨le_rfl, hradix.le, 0, le_rfl, by simp [lateDigit], fun _ => rfl⟩
  | append_singleton values value ih =>
    rw [List.forall_mem_append, List.forall_mem_singleton] at h
    obtain ⟨hvalues, hnonneg, hlt⟩ := h
    obtain ⟨hlow, hhigh, carried, hcarried, hsum, hzero⟩ := ih hvalues
    rw [lateDigit_snoc, List.sum_append, List.sum_singleton, hsum]
    by_cases hcarry : radix < lateDigit radix values + value
    · rw [if_pos hcarry]
      refine ⟨by omega, by omega, carried + 1, by omega, by rw [mul_add]; omega, ?_⟩
      intro hdigit
      omega
    · rw [if_neg hcarry]
      refine ⟨by omega, by omega, carried, hcarried, by omega, ?_⟩
      intro hdigit
      exact hzero (by omega)

/-- The digit is below the radix exactly where the sum is no positive multiple of it. -/
theorem lateDigit_lt_iff {radix : Int} (hradix : 0 < radix) {values : List Int}
    (h : ∀ value ∈ values, 0 ≤ value ∧ value < radix) :
    lateDigit radix values < radix ↔ ¬(0 < values.sum ∧ radix ∣ values.sum) := by
  obtain ⟨hlow, hhigh, carried, hcarried, hsum, hzero⟩ := lateDigit_spec hradix h
  constructor
  · rintro hlt ⟨hpos, hdvd⟩
    rw [hsum, Int.dvd_add_left (Int.dvd_mul_right radix carried)] at hdvd
    have hdigit := Int.eq_zero_of_dvd_of_nonneg_of_lt hlow hlt hdvd
    rw [hsum, hdigit, hzero hdigit, mul_zero, add_zero] at hpos
    exact lt_irrefl 0 hpos
  · intro hsums
    by_contra hge
    have hdigit : lateDigit radix values = radix := le_antisymm hhigh (not_lt.mp hge)
    refine hsums ⟨?_, ?_⟩
    · rw [hsum, hdigit]
      exact add_pos_of_pos_of_nonneg hradix (mul_nonneg hradix.le hcarried)
    · rw [hsum, hdigit]
      exact Int.dvd_add (Int.dvd_refl radix) (Int.dvd_mul_right radix carried)

end Utrace
