import Utrace.Interpretation.Shown

/-!
# Displayed strings

A string is shown up to the smaller of two bounds, one of which may come from a register of
the traced program. The block for its copy is three bytes longer than that bound, which is
enough unless the bound is the one negative number the sum takes to zero.
-/

namespace Utrace

open Memory

variable (d : Display)

/-- The `MIN` macro is the minimum. -/
theorem minLength_eq (opts stringMaxlength : Int) :
    minLength opts stringMaxlength = min opts stringMaxlength := by
  unfold minLength
  split <;> omega

/-- `display_string` counts right, whatever it meets. -/
theorem counts_displayString (stringMaxlength argNum : Int) :
    (d.displayString stringMaxlength argNum).Counts := by
  unfold Display.displayString
  refine .append (.event _) (.ite (counts_fprintf (by decide))
    (.ite ?_ (counts_fprintf (by decide))))
  exact ((((counts_stores _ _).append (counts_fprintf (by decide))).append
    (counts_showBytes _ _ _)).append (counts_fprintf (by decide))).append (counts_showCut ..)

/-- What is printed of a copy: all of it but one byte behind the bound, which tells whether
the string goes on. -/
theorem text_displayString {stringMaxlength argNum : Int} (hnull : d.arg argNum ≠ 0)
    (hmalloc : mallocs (blockSize d.opts stringMaxlength) = true) {m : Nat}
    (hm : minLength d.opts stringMaxlength = m) {t : List Byte}
    (ht : t = prefixOf d.mem (d.arg argNum) (m + 1)) :
    (d.displayString stringMaxlength argNum).text =
      '"' :: displayedText (t.take m) ++
        '"' :: (if m < t.length ∧ d.opts ≤ stringMaxlength then "...".toList else []) := by
  have hcopy := stringAt_copy ((d.heap argNum).fresh (blockSize d.opts stringMaxlength)) d.mem
    (d.arg argNum) (m + 1)
  have hlen : ((m : Int) + 1).toNat = m + 1 := rfl
  rw [hlen, ← ht] at hcopy
  have hle : t.length ≤ m + 1 := ht ▸ length_prefixOf_le d.mem (d.arg argNum) (m + 1)
  obtain ⟨htext, hend⟩ := showBytes_spec (blockSize d.opts stringMaxlength) m hcopy
  rw [Nat.zero_add] at hend
  have hcut : storedIn ((d.heap argNum).fresh (blockSize d.opts stringMaxlength))
      (umovestr d.mem (d.arg argNum) (m + 1)) (min m t.length) ≠ 0 ↔ m < t.length := by
    rw [stringAt_ne_zero_iff hcopy (Nat.min_le_right m t.length)]
    omega
  unfold Display.displayString
  dsimp only
  rw [if_neg hnull, if_pos hmalloc, hm, Int.toNat_natCast, hend]
  simp only [Printed.text_append, Printed.text_event, text_stores, text_fprintf, htext, showCut,
    hcut, List.nil_append]
  split <;> simp

/-- For every string, every `opt_s` and every cap that is not negative: `display_string`
prints a quote, the bytes of the string up to the smaller of the two, and a quote; dots
follow exactly when the string is longer and `opt_s` is no larger than the cap. It returns
the number of characters printed. -/
theorem string_shown {stringMaxlength argNum : Int} {s : List Byte}
    (hs : StringAt d.mem (d.arg argNum) s) (hnull : d.arg argNum ≠ 0) (hopts : 0 ≤ d.opts)
    (hfits : d.opts + 3 < 2 ^ 31) (hmax : 0 ≤ stringMaxlength) :
    let m := (min d.opts stringMaxlength).toNat
    let shown := d.displayString stringMaxlength argNum
    shown.text = '"' :: displayedText (s.take m) ++
        '"' :: (if m < s.length ∧ d.opts ≤ stringMaxlength then "...".toList else []) ∧
      shown.ret = shown.text.length := by
  intro m shown
  have hm : minLength d.opts stringMaxlength = m := by
    rw [minLength_eq, Int.toNat_of_nonneg (by omega)]
  have hmalloc : mallocs (blockSize d.opts stringMaxlength) = true := by
    unfold mallocs blockSize
    rw [decide_eq_true_eq, minLength_eq]
    omega
  refine ⟨?_, (counts_displayString d stringMaxlength argNum).ret_eq⟩
  have htext := text_displayString d hnull hmalloc hm rfl
  have hlength : m < (s.take (m + 1)).length ↔ m < s.length := by
    rw [List.length_take]
    omega
  rw [hs.prefixOf_eq, List.take_take, Nat.min_eq_left (Nat.le_succ m)] at htext
  simp only [hlength] at htext
  exact htext

/-- A heap of zeros that ends where its blocks end. -/
def zeroHeap : Heap := ⟨fun _ _ => 0, id, fun _ => Nat.le_refl _⟩

/-- A thread whose first argument is a count, and whose other arguments point to a string. -/
def counting (opts : Int) (count : BitVec 32) (s : List Byte) : Display where
  opts := opts
  arg argNum := if argNum = 0 then count else 0x5000
  mem addr := s.getD (addr - 0x5000).toNat 0
  heap _ := zeroHeap

/-- Three bytes of `ab\cd`, with `-s 3`; the third is escaped. -/
theorem string_shown_cut :
    ((counting 3 0 ("ab\\cd".toList.map byteOf)).displayString intMax 1).text =
        "\"ab\\\\\"...".toList ∧
      ((counting 3 0 ("ab\\cd".toList.map byteOf)).displayString intMax 1).ret = 9 := by
  obtain ⟨htext, hret⟩ := @string_shown (counting 3 0 ("ab\\cd".toList.map byteOf)) intMax 1
    ("ab\\cd".toList.map byteOf) ⟨by decide, by decide, by decide⟩ (by decide) (by decide)
    (by decide) (by decide)
  have hshown : ((counting 3 0 ("ab\\cd".toList.map byteOf)).displayString intMax 1).text =
      "\"ab\\\\\"...".toList := by
    rw [htext]
    decide
  exact ⟨hshown, by rw [hret, hshown]; rfl⟩

/-! ## The block -/

/-- An access to a block lies inside it. -/
def Access.Inside : Access → Prop
  | .argument _ => True
  | .byte _ index size => index < size

/-- The accesses to a block that is as long as `malloc` was asked for. -/
theorem inside_of_mallocs {stringMaxlength argNum : Int}
    (hmalloc : mallocs (blockSize d.opts stringMaxlength) = true)
    (hlow : -2 ≤ minLength d.opts stringMaxlength)
    (hhigh : minLength d.opts stringMaxlength < 2 ^ 31) :
    ∀ e ∈ (d.displayString stringMaxlength argNum).events, e.Inside := by
  have hsize : (blockSize d.opts stringMaxlength : Int) =
      minLength d.opts stringMaxlength + 3 := by
    unfold mallocs at hmalloc
    unfold blockSize at hmalloc ⊢
    rw [decide_eq_true_eq] at hmalloc
    omega
  have hcopy := stringAt_copy ((d.heap argNum).fresh (blockSize d.opts stringMaxlength)) d.mem
    (d.arg argNum) (minLength d.opts stringMaxlength + 1)
  have hlength := length_umovestr_le d.mem (d.arg argNum) (minLength d.opts stringMaxlength + 1)
  obtain ⟨_, hend⟩ := showBytes_spec (blockSize d.opts stringMaxlength)
    (minLength d.opts stringMaxlength).toNat hcopy
  have hread := events_showBytes (blockSize d.opts stringMaxlength)
    (minLength d.opts stringMaxlength).toNat hcopy
  rw [Nat.zero_add] at hend hread
  unfold Display.displayString
  dsimp only
  rw [if_pos hmalloc, hend]
  intro e he
  rw [Printed.events_append, Printed.events_event, List.singleton_append, List.mem_cons] at he
  rcases he with rfl | he
  · trivial
  split at he
  · cases he
  simp only [Printed.events_append, events_fprintf, List.append_nil, List.mem_append] at he
  rcases he with (he | he) | he
  · obtain ⟨i, hi, rfl⟩ := List.mem_map.mp he
    rw [List.mem_range] at hi
    change i < _
    omega
  · obtain ⟨k, rfl, hk⟩ := hread e he
    change k < _
    omega
  · have he : e = .byte .characters (min (minLength d.opts stringMaxlength).toNat
        (prefixOf d.mem (d.arg argNum) (minLength d.opts stringMaxlength + 1).toNat).length)
        (blockSize d.opts stringMaxlength) := by
      unfold showCut at he
      rw [Printed.events_append] at he
      split at he <;> simpa using he
    rw [he]
    change _ < _
    omega

/-- The zero behind the copy is stored whatever the size of the block is. -/
theorem store_mem_displayString {stringMaxlength argNum : Int} (hnull : d.arg argNum ≠ 0)
    (hmalloc : mallocs (blockSize d.opts stringMaxlength) = true) :
    .byte .umovestr 0 (blockSize d.opts stringMaxlength) ∈
      (d.displayString stringMaxlength argNum).events := by
  have hpos : 0 < (umovestr d.mem (d.arg argNum)
      (minLength d.opts stringMaxlength + 1)).length := by
    rw [umovestr_eq, List.length_append, List.length_singleton]
    omega
  unfold Display.displayString
  dsimp only
  rw [if_neg hnull, if_pos hmalloc]
  simp only [Printed.events_append, List.mem_append]
  exact Or.inr (Or.inl (Or.inl (Or.inl (Or.inl
    (List.mem_map.mpr ⟨0, List.mem_range.mpr hpos, rfl⟩)))))

/-- Without a block nothing but the argument is read. -/
theorem inside_of_not_mallocs {stringMaxlength argNum : Int}
    (h : d.arg argNum = 0 ∨ mallocs (blockSize d.opts stringMaxlength) = false) :
    ∀ e ∈ (d.displayString stringMaxlength argNum).events, e.Inside := by
  have hevents : (d.displayString stringMaxlength argNum).events = [.argument argNum] := by
    unfold Display.displayString
    dsimp only
    rcases h with hnull | hmalloc
    · rw [if_pos hnull]
      rfl
    · rw [if_neg (ne_true_of_eq_false hmalloc)]
      split <;> rfl
  rw [hevents]
  exact List.forall_mem_singleton.mpr trivial

/-- For every `opt_s` that is not negative and every 32-bit count: the accesses of
`display_stringN` lie inside the block, and `string_maxlength` is `INT_MAX` again, exactly when
the count is not -3 or the string is null. -/
theorem accesses_inside_iff (hopts : 0 ≤ d.opts) (arg2 argNum : Int) :
    ((∀ e ∈ (d.displayStringN arg2 argNum).1.events, e.Inside) ∧
        (d.displayStringN arg2 argNum).2 = intMax) ↔
      d.arg argNum = 0 ∨ (d.arg (arg2 - 1)).toInt ≠ -3 := by
  have hlow := BitVec.le_toInt (d.arg (arg2 - 1))
  have hhigh := BitVec.toInt_lt (x := d.arg (arg2 - 1))
  set count := (d.arg (arg2 - 1)).toInt with hcount
  have hevents : (∀ e ∈ (d.displayStringN arg2 argNum).1.events, e.Inside) ↔
      ∀ e ∈ (d.displayString count argNum).events, e.Inside := by
    change (∀ e ∈ _ :: (d.displayString count argNum).events, e.Inside) ↔ _
    rw [List.forall_mem_cons]
    exact and_iff_right trivial
  rw [hevents]
  constructor
  · rintro ⟨h, _⟩
    by_contra hnot
    rw [not_or, not_not] at hnot
    have hsize : blockSize d.opts count = 0 := by
      rw [blockSize, minLength_eq]
      omega
    have hmalloc : mallocs (blockSize d.opts count) = true := by rw [hsize]; decide
    have hinside := h _ (store_mem_displayString d hnot.1 hmalloc)
    change 0 < blockSize d.opts count at hinside
    omega
  · intro h
    refine ⟨?_, rfl⟩
    by_cases hblock : d.arg argNum ≠ 0 ∧ mallocs (blockSize d.opts count) = true
    · obtain ⟨hnull, hmalloc⟩ := hblock
      have hne := h.resolve_left hnull
      refine inside_of_mallocs d hmalloc ?_ ?_
      · unfold mallocs blockSize at hmalloc
        rw [decide_eq_true_eq, minLength_eq] at hmalloc
        rw [minLength_eq]
        omega
      · rw [minLength_eq]
        omega
    · refine inside_of_not_mallocs d ?_
      by_cases hnull : d.arg argNum = 0
      · exact Or.inl hnull
      · exact Or.inr (eq_false_of_ne_true fun hmalloc => hblock ⟨hnull, hmalloc⟩)

/-- A count of 2. -/
theorem accesses_inside_iff_two :
    (∀ e ∈ ((counting 32 2 ("abc".toList.map byteOf)).displayStringN 1 1).1.events, e.Inside) ∧
      ((counting 32 2 ("abc".toList.map byteOf)).displayStringN 1 1).2 = intMax :=
  (accesses_inside_iff (counting 32 2 ("abc".toList.map byteOf)) (by decide) 1 1).mpr
    (Or.inr (by decide))

/-- A count of -3: the block has no byte for the zero. -/
theorem zero_stored_outside :
    ¬∀ (d : Display) (arg2 argNum : Int), 0 ≤ d.opts → d.opts ≤ intMax - 3 →
      (∀ e ∈ (d.displayStringN arg2 argNum).1.events, e.Inside) ∧
        (d.displayStringN arg2 argNum).2 = intMax := by
  intro hclaim
  have hinside := (hclaim (counting 32 (-3) ("abc".toList.map byteOf)) 1 1 (by decide)
    (by decide)).1 (.byte .umovestr 0 0) (by decide)
  exact absurd hinside (Nat.lt_irrefl 0)

end Utrace
