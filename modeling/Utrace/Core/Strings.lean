import Mathlib.Data.ENat.Lattice
import Mathlib.Data.List.TakeWhile
import Mathlib.Data.Nat.Cast.Basic
import Utrace.Core.Memory

/-!
# Strings in a memory

A string is the cells from its address on up to the first zero, which ends it. What a read
of a number of cells finds of it is the string, cut at that number.
-/

namespace Utrace.Memory

variable {α β : Type*} [AddMonoidWithOne α] [Zero β] [DecidableEq β]

omit [Zero β] [DecidableEq β] in
/-- A read may be done in two parts. -/
theorem peek_add (m : α → β) (a : α) (k n : Nat) :
    peek (k + n) m a = peek k m a ++ peek n m (a + (k : α)) := by
  unfold peek
  rw [List.range_add, List.map_append, List.map_map]
  congr 1
  apply List.map_congr_left
  intro j _
  rw [Function.comp_apply, Nat.cast_add, add_assoc]

omit [Zero β] [DecidableEq β] in
/-- A read finds the first cell and what a read behind it finds. -/
theorem peek_succ (m : α → β) (a : α) (n : Nat) :
    peek (n + 1) m a = m a :: peek n m (a + 1) := by
  rw [Nat.add_comm, peek_add, Nat.cast_one]
  simp [peek]

omit [Zero β] [DecidableEq β] in
/-- The beginning of what is read is what is read up to there. -/
theorem take_peek (m : α → β) (a : α) {k n : Nat} (h : k ≤ n) :
    (peek n m a).take k = peek k m a := by
  obtain ⟨d, rfl⟩ := Nat.exists_eq_add_of_le h
  rw [peek_add, List.take_append_of_le_length (length_peek k m a).ge,
    List.take_of_length_le (length_peek k m a).le]

omit [Zero β] [DecidableEq β] in
/-- Nothing is read at first. -/
@[simp] theorem peek_zero (m : α → β) (a : α) : peek 0 m a = [] := rfl

/-- The memory holds a string at an address, with the zero that ends it. -/
structure StringAt (m : α → β) (a : α) (s : List β) : Prop where
  noZero : (0 : β) ∉ s
  cells : peek s.length m a = s
  ended : m (a + (s.length : α)) = 0

omit [DecidableEq β] in
/-- An empty string is a zero. -/
theorem stringAt_nil {m : α → β} {a : α} : StringAt m a [] ↔ m a = 0 := by
  constructor
  · intro h
    simpa using h.ended
  · intro h
    exact ⟨List.not_mem_nil, rfl, by simpa using h⟩

omit [DecidableEq β] in
/-- A string is its first cell and the string behind it. -/
theorem stringAt_cons {m : α → β} {a : α} {c : β} {s : List β} :
    StringAt m a (c :: s) ↔ m a = c ∧ c ≠ 0 ∧ StringAt m (a + 1) s := by
  have hpeek := peek_succ m a s.length
  have hlast : m (a + ((s.length + 1 : Nat) : α)) = m (a + 1 + (s.length : α)) := by
    rw [Nat.add_comm, Nat.cast_add, Nat.cast_one, add_assoc]
  constructor
  · rintro ⟨hzero, hcells, hended⟩
    rw [List.length_cons, hpeek, List.cons.injEq] at hcells
    rw [List.length_cons, hlast] at hended
    exact ⟨hcells.1, fun h => hzero (h ▸ List.mem_cons_self),
      fun h => hzero (List.mem_cons_of_mem c h), hcells.2, hended⟩
  · rintro ⟨hc, hne, hzero, hcells, hended⟩
    refine ⟨List.not_mem_cons_of_ne_of_not_mem hne.symm hzero, ?_, ?_⟩
    · rw [List.length_cons, hpeek, hc, hcells]
    · rw [List.length_cons, hlast, hended]

omit [DecidableEq β] in
/-- A memory holds one string at an address. -/
theorem StringAt.unique {m : α → β} {a : α} {s t : List β} (h : StringAt m a s)
    (h' : StringAt m a t) : s = t := by
  induction s generalizing a t with
  | nil =>
    cases t with
    | nil => rfl
    | cons c t =>
      obtain ⟨hc, hne, -⟩ := stringAt_cons.mp h'
      exact absurd (hc.symm.trans (stringAt_nil.mp h)) hne
  | cons c s ih =>
    obtain ⟨hc, hne, hs⟩ := stringAt_cons.mp h
    cases t with
    | nil => exact absurd (hc.symm.trans (stringAt_nil.mp h')) hne
    | cons c' t =>
      obtain ⟨hc', -, ht⟩ := stringAt_cons.mp h'
      rw [ih hs ht, ← hc, hc']

omit [DecidableEq β] in
/-- The cells of its first part, and the string that is its second part. -/
theorem StringAt.append {m : α → β} {a : α} {s t : List β} (h : StringAt m a (s ++ t)) :
    peek s.length m a = s ∧ StringAt m (a + (s.length : α)) t := by
  have hcells := h.cells
  rw [List.length_append, peek_add] at hcells
  obtain ⟨hfirst, hsecond⟩ := List.append_inj hcells (length_peek _ _ _)
  have hended := h.ended
  rw [List.length_append, Nat.cast_add, ← add_assoc] at hended
  exact ⟨hfirst, fun hmem => h.noZero (List.mem_append_right s hmem), hsecond, hended⟩

/-- The cells up to a zero, or up to a number of them. -/
def prefixOf (m : α → β) (a : α) (n : Nat) : List β := (peek n m a).takeWhile (· ≠ 0)

/-- A beginning has its length at most. -/
theorem length_prefixOf_le (m : α → β) (a : α) (n : Nat) : (prefixOf m a n).length ≤ n :=
  (List.takeWhile_sublist _).length_le.trans (length_peek n m a).le

/-- It has no zero inside. -/
theorem noZero_prefixOf (m : α → β) (a : α) (n : Nat) : (0 : β) ∉ prefixOf m a n := by
  intro hmem
  have hnonzero := List.mem_takeWhile_imp hmem
  simp at hnonzero

/-- They are the cells from the address on. -/
theorem prefixOf_eq_peek (m : α → β) (a : α) (n : Nat) :
    prefixOf m a n = peek (prefixOf m a n).length m a := by
  have hprefix : prefixOf m a n <+: peek n m a := List.takeWhile_prefix _
  calc prefixOf m a n = (peek n m a).take (prefixOf m a n).length :=
        List.prefix_iff_eq_take.mp hprefix
    _ = peek (prefixOf m a n).length m a := take_peek m a (length_prefixOf_le m a n)

/-- Where fewer are read than asked for, a zero follows. -/
theorem zero_after_prefixOf {m : α → β} {a : α} {n : Nat} (h : (prefixOf m a n).length < n) :
    m (a + ((prefixOf m a n).length : α)) = 0 := by
  set k := (prefixOf m a n).length with hk
  obtain ⟨d, hd⟩ := Nat.exists_eq_add_of_lt h
  have hpeek : peek n m a = prefixOf m a n ++ m (a + (k : α)) :: peek d m (a + (k : α) + 1) :=
    calc peek n m a = peek (k + (d + 1)) m a := congrArg (peek · m a) hd
      _ = prefixOf m a n ++ m (a + (k : α)) :: peek d m (a + (k : α) + 1) := by
        rw [peek_add, peek_succ, hk, ← prefixOf_eq_peek]
  by_contra hne
  have hnonzero : ∀ c ∈ prefixOf m a n, decide (c ≠ 0) = true :=
    fun c hc => decide_eq_true fun heq => noZero_prefixOf m a n (heq ▸ hc)
  have hlonger : prefixOf m a n = prefixOf m a n ++
      m (a + (k : α)) :: (peek d m (a + (k : α) + 1)).takeWhile (· ≠ 0) :=
    calc prefixOf m a n = (peek n m a).takeWhile (· ≠ 0) := rfl
      _ = _ := by
        rw [hpeek, List.takeWhile_append_of_pos hnonzero,
          List.takeWhile_cons_of_pos (by simpa using hne)]
  exact absurd (List.self_eq_append_right.mp hlonger) (List.cons_ne_nil _ _)

/-- The distance from an address to the first zero at or after it, infinite if there is none. -/
noncomputable def zeroDistance (m : α → β) (a : α) : ℕ∞ := ⨅ (k : Nat) (_ : m (a + (k : α)) = 0), k

/-- The number of cells that are read is the smaller one of that distance and the number asked
for. -/
theorem length_prefixOf (m : α → β) (a : α) (n : Nat) :
    ((prefixOf m a n).length : ℕ∞) = min (zeroDistance m a) n := by
  apply le_antisymm
  · refine le_min (le_iInf₂ fun k hzero => ?_) (Nat.cast_le.mpr (length_prefixOf_le m a n))
    rw [Nat.cast_le]
    by_contra hlt
    have hcell : (prefixOf m a n)[k]? = some 0 := by
      rw [prefixOf_eq_peek, getElem?_peek m a (Nat.lt_of_not_le hlt), hzero]
    exact noZero_prefixOf m a n (List.mem_of_getElem? hcell)
  · rcases Nat.lt_or_ge (prefixOf m a n).length n with hlt | hge
    · exact (min_le_left _ _).trans (iInf₂_le (prefixOf m a n).length (zero_after_prefixOf hlt))
    · exact (min_le_right _ _).trans (Nat.cast_le.mpr hge)

/-- Of a string, its cells are read, up to that number. -/
theorem StringAt.prefixOf_eq {m : α → β} {a : α} {s : List β} (h : StringAt m a s) (n : Nat) :
    prefixOf m a n = s.take n := by
  have hnonzero : ∀ c ∈ s, decide (c ≠ 0) = true := fun c hc =>
    decide_eq_true fun heq => h.noZero (heq ▸ hc)
  unfold prefixOf
  rcases Nat.le_total n s.length with hn | hn
  · have hpeek : peek n m a = s.take n := by rw [← take_peek m a hn, h.cells]
    rw [hpeek]
    refine List.takeWhile_eq_self_iff.mpr fun c hc => hnonzero c (List.mem_of_mem_take hc)
  · obtain ⟨d, rfl⟩ := Nat.exists_eq_add_of_le hn
    rw [peek_add, h.cells, List.takeWhile_append_of_pos hnonzero, List.take_of_length_le hn]
    cases d with
    | zero => exact List.append_nil s
    | succ d =>
      rw [peek_succ, h.ended, List.takeWhile_cons_of_neg (by simp), List.append_nil]

end Utrace.Memory
