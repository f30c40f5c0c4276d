import Utrace.Interpretation.Scanned

/-!
# Where the scan of a format ends

The loop inside a directive stops at the zero behind the copy, and the loop around it then
steps over that zero. The scan ends there as long as the copy does not stop inside a directive,
and goes on behind it whenever the copy does.
-/

namespace Utrace

open Memory

/-- A text that does not stop inside a directive; the flag tells whether it begins inside one.
Nothing counts behind a floating-point conversion. -/
inductive DirectivesClosed : Bool → List Byte → Prop
  | nil : DirectivesClosed false []
  | literal {c : Byte} {t : List Byte} (hc : c ≠ byteOf '%') (ht : DirectivesClosed false t) :
      DirectivesClosed false (c :: t)
  | percent {t : List Byte} (ht : DirectivesClosed true t) :
      DirectivesClosed false (byteOf '%' :: t)
  | letter {c : Byte} {t : List Byte} (hc : c ∈ "%diuoxXcs".toList.map byteOf)
      (ht : DirectivesClosed false t) : DirectivesClosed true (c :: t)
  | float {c : Byte} {t : List Byte} (hc : c ∈ "eEfg".toList.map byteOf) :
      DirectivesClosed true (c :: t)
  | other {c : Byte} {t : List Byte} (hc : c ∉ "%diuoxXcseEfg".toList.map byteOf)
      (ht : DirectivesClosed true t) : DirectivesClosed true (c :: t)

variable {d : Display} {stringMaxlength : Int} {size : Nat}

/-! ## A copy that does not stop inside a directive -/

variable (d stringMaxlength size) in
/-- The scan over a text ends, and reads no byte behind the zero. -/
def Stays (inside : Bool) (t : List Byte) : Prop :=
  ∀ (left i : Nat) (argNum : Int) (str1 : Nat → Byte), StringAt str1 i t →
    ∃ p, d.scanFormat stringMaxlength size (left + 2 + t.length) inside i argNum str1 = some p ∧
      ∀ k ∈ p.scanned, k ≤ i + t.length

/-- What is done over the first byte is done in front of the rest. -/
theorem Stays.cons {inside inside' : Bool} {c : Byte} {t asked : List Byte}
    (hc : Passes d stringMaxlength size inside [c] inside' asked)
    (ht : Stays d stringMaxlength size inside' t) :
    Stays d stringMaxlength size inside (c :: t) := by
  intro left i argNum str1 hcopy
  obtain ⟨hbyte, _, hrest⟩ := stringAt_cons.mp hcopy
  obtain ⟨p, hscan, _, _, hread⟩ :=
    hc (left + 2 + t.length) i argNum str1 (by simpa [peek] using hbyte)
  obtain ⟨rest, hscan', hread'⟩ := ht left (i + 1) (argNum + asked.length) str1 hrest
  refine ⟨p ++ rest, ?_, ?_⟩
  · rw [List.length_cons, ← Nat.add_assoc]
    refine hscan.trans ?_
    rw [List.length_singleton, hscan']
    rfl
  · rw [Printed.scanned_append, List.forall_mem_append]
    refine ⟨fun k hk => ?_, fun k hk => ?_⟩
    · have hlt := hread k hk
      rw [List.length_singleton] at hlt
      omega
    · have hle := hread' k hk
      rw [List.length_cons]
      omega

/-- Inside a directive, other characters are passed. -/
theorem passes_other {c : Byte} (hc : c ∉ "%diuoxXcseEfg".toList.map byteOf) (hne : c ≠ 0) :
    ∃ asked, Passes d stringMaxlength size true [c] true asked := by
  by_cases hstar : c = byteOf '*'
  · rw [hstar]
    exact ⟨_, .star⟩
  · have hall : ∀ b ∈ "%diuoxXcseEfg*".toList.map byteOf,
        b = byteOf '*' ∨ b ∈ "%diuoxXcseEfg".toList.map byteOf :=
      List.all_iff_forall_prop.mp rfl
    exact ⟨_, .other (fun h => (hall c h).elim hstar hc) hne⟩

/-- A letter that ends it is passed. -/
theorem passes_letter {c : Byte} (hc : c ∈ "%diuoxXcs".toList.map byteOf) :
    ∃ asked, Passes d stringMaxlength size true [c] false asked := by
  have hall : ∀ b ∈ "%diuoxXcs".toList.map byteOf,
      b = byteOf '%' ∨ b ∈ "diuoxXcs".toList.map byteOf := List.all_iff_forall_prop.mp rfl
  rcases hall c hc with rfl | hletter
  · exact ⟨_, .closing⟩
  · exact ⟨_, .letter hletter⟩

/-- Induction on how the text is put together. -/
theorem stays_of_directivesClosed {inside : Bool} {t : List Byte}
    (h : DirectivesClosed inside t) (ht : 0 ∉ t) : Stays d stringMaxlength size inside t := by
  induction h with
  | nil =>
    intro left i argNum str1 hcopy
    exact ⟨_, scan_end (stringAt_nil.mp hcopy), List.forall_mem_singleton.mpr le_rfl⟩
  | literal hc _ ih =>
    rw [List.mem_cons, not_or] at ht
    exact .cons (.literal hc (Ne.symm ht.1)) (ih ht.2)
  | percent _ ih => exact .cons .percent (ih fun h => ht (List.mem_cons_of_mem _ h))
  | letter hc _ ih =>
    obtain ⟨asked, hpasses⟩ := passes_letter hc
    exact .cons hpasses (ih fun h => ht (List.mem_cons_of_mem _ h))
  | @float c t hc =>
    intro left i argNum str1 hcopy
    rw [← (stringAt_cons.mp hcopy).1] at hc
    have hturns : left + 2 + (c :: t).length = left + t.length + 1 + 2 := by
      rw [List.length_cons]
      omega
    rw [hturns]
    exact ⟨_, scan_float hc, by simp⟩
  | other hc _ ih =>
    rw [List.mem_cons, not_or] at ht
    obtain ⟨asked, hpasses⟩ := passes_other hc (Ne.symm ht.1)
    exact .cons hpasses (ih ht.2)

/-! ## A copy that stops inside a directive -/

variable (d stringMaxlength size) in
/-- The scan over a text, if it ends at all, reads the byte behind the zero. -/
def Leaves (inside : Bool) (t : List Byte) : Prop :=
  ∀ (left i : Nat) (argNum : Int) (str1 : Nat → Byte) (p : Printed Access), StringAt str1 i t →
    d.scanFormat stringMaxlength size left inside i argNum str1 = some p →
    i + t.length + 1 ∈ p.scanned

/-- A character that is passed, and a text that leaves. -/
theorem Leaves.cons {inside inside' : Bool} {c : Byte} {t asked : List Byte}
    (hc : Passes d stringMaxlength size inside [c] inside' asked)
    (ht : Leaves d stringMaxlength size inside' t) :
    Leaves d stringMaxlength size inside (c :: t) := by
  intro left i argNum str1 p hcopy hscan
  obtain ⟨hbyte, _, hrest⟩ := stringAt_cons.mp hcopy
  cases left with
  | zero => cases hscan
  | succ left =>
    obtain ⟨q, hstep, _, _, _⟩ := hc left i argNum str1 (by simpa [peek] using hbyte)
    obtain ⟨rest, hrest', rfl⟩ := Option.map_eq_some_iff.mp (hstep.symm.trans hscan)
    have hread := ht left (i + 1) _ str1 rest hrest hrest'
    rw [Printed.scanned_append, List.mem_append, List.length_cons]
    right
    convert hread using 1
    omega

/-- A text whose last directive is open leaves. -/
theorem leaves_of_not_directivesClosed {inside : Bool} {t : List Byte}
    (h : ¬DirectivesClosed inside t) (ht : 0 ∉ t) : Leaves d stringMaxlength size inside t := by
  induction t generalizing inside with
  | nil =>
    intro left i argNum str1 p hcopy hscan
    cases inside with
    | false => exact absurd .nil h
    | true =>
      cases left with
      | zero => cases hscan
      | succ left =>
        -- The inner loop ends at the zero, and the outer one steps over it.
        rw [Display.scanFormat, if_pos (Or.inr (stringAt_nil.mp hcopy))] at hscan
        obtain ⟨rest, hrest, rfl⟩ := Option.map_eq_some_iff.mp hscan
        cases left with
        | zero => cases hrest
        | succ left =>
          rw [Display.scanFormat] at hrest
          split at hrest
          · cases hrest
            exact List.mem_cons_of_mem _ List.mem_cons_self
          · obtain ⟨rest', _, rfl⟩ := Option.map_eq_some_iff.mp hrest
            exact List.mem_cons_of_mem _ List.mem_cons_self
  | cons c t ih =>
    rw [List.mem_cons, not_or] at ht
    cases inside with
    | false =>
      by_cases hc : c = byteOf '%'
      · subst hc
        exact .cons .percent (ih (fun hclosed => h (.percent hclosed)) ht.2)
      · exact .cons (.literal hc (Ne.symm ht.1)) (ih (fun hclosed => h (.literal hc hclosed)) ht.2)
    | true =>
      by_cases hletter : c ∈ "%diuoxXcs".toList.map byteOf
      · obtain ⟨asked, hpasses⟩ := passes_letter hletter
        exact .cons hpasses (ih (fun hclosed => h (.letter hletter hclosed)) ht.2)
      by_cases hfloat : c ∈ "eEfg".toList.map byteOf
      · exact absurd (.float hfloat) h
      have hother : c ∉ "%diuoxXcseEfg".toList.map byteOf := by
        have hall : ∀ b ∈ "%diuoxXcseEfg".toList.map byteOf,
            b ∈ "%diuoxXcs".toList.map byteOf ∨ b ∈ "eEfg".toList.map byteOf :=
          List.all_iff_forall_prop.mp rfl
        exact fun hmem => (hall c hmem).elim hletter hfloat
      obtain ⟨asked, hpasses⟩ := passes_other hother (Ne.symm ht.1)
      exact .cons hpasses (ih (fun hclosed => h (.other hother hclosed)) ht.2)

/-- For every format and every `opt_s` that is not negative: the display ends, and the scan
reads no byte of the copy behind the zero, exactly when there is no copy or the copy does not
stop inside a directive. -/
theorem scan_stays_iff (hopts : 0 ≤ d.opts) (argNum : Int) :
    (∃ p, d.displayFormat intMax argNum = some p ∧
        ∀ k ∈ p.scanned, k ≤ (d.copied argNum).length) ↔
      d.arg argNum = 0 ∨ intMax < d.opts + 3 ∨ DirectivesClosed false (d.copied argNum) := by
  have hzero : 0 ∉ d.copied argNum := noZero_prefixOf d.mem _ _
  by_cases hnull : d.arg argNum = 0
  · have hformat : d.displayFormat intMax argNum =
        some (.event (.argument argNum) ++ fprintf "NULL".toList) := by
      unfold Display.displayFormat
      exact if_pos hnull
    exact iff_of_true ⟨_, hformat, List.forall_mem_nil _⟩ (Or.inl hnull)
  by_cases hfits : d.opts + 3 < 2 ^ 31
  · obtain ⟨own, size, left, str1, hcopy, hformat, _, _, hown⟩ :=
      displayFormat_eq hopts hnull hfits
    have hblock : ¬intMax < d.opts + 3 := by
      unfold intMax
      omega
    rw [or_iff_right hnull, or_iff_right hblock, hformat]
    constructor
    · rintro ⟨p, hp, hread⟩
      by_contra hclosed
      obtain ⟨rest, hscan, rfl⟩ := Option.map_eq_some_iff.mp hp
      have hmem := leaves_of_not_directivesClosed hclosed hzero _ _ _ _ _ hcopy hscan
      rw [Printed.scanned_append, hown, List.nil_append] at hread
      have hle := hread _ hmem
      omega
    · intro hclosed
      obtain ⟨rest, hscan, hread⟩ :=
        stays_of_directivesClosed hclosed hzero left 0 argNum str1 hcopy
      refine ⟨own ++ rest, by rw [hscan]; rfl, ?_⟩
      rw [Printed.scanned_append, hown, List.nil_append]
      simpa using hread
  · have hlarge : intMax < d.opts + 3 := by
      unfold intMax
      omega
    exact iff_of_true ⟨_, displayFormat_of_large hnull hopts hfits, List.forall_mem_nil _⟩
      (Or.inr (Or.inl hlarge))

/-- A thread whose first argument points to a format, and whose others are -1. -/
def formatting (opts : Int) (s : List Byte) : Display where
  opts := opts
  arg argNum := if argNum = 0 then 0x5000 else 0xFFFFFFFF
  mem addr := s.getD (addr - 0x5000).toNat 0
  heap _ := zeroHeap

/-- A format that is cut behind a directive. -/
theorem scan_stays_iff_cut :
    ∃ p, (formatting 1 ("%d%s".toList.map byteOf)).displayFormat intMax 0 = some p ∧
      ∀ k ∈ p.scanned, k ≤ ((formatting 1 ("%d%s".toList.map byteOf)).copied 0).length :=
  (@scan_stays_iff (formatting 1 ("%d%s".toList.map byteOf)) (by decide) 0).mpr
    (Or.inr (Or.inr (.percent (.letter (by decide) .nil))))

/-- A percent sign alone: the zero is at index 1, and the byte at index 2 is read. -/
theorem zero_stepped_over :
    ¬∀ (d : Display) (argNum : Int), 0 ≤ d.opts →
      ∃ p, d.displayFormat intMax argNum = some p ∧
        ∀ k ∈ p.scanned, k ≤ (d.copied argNum).length := by
  intro hclaim
  obtain ⟨p, hp, hread⟩ := hclaim (formatting 32 ("%".toList.map byteOf)) 0 (by decide)
  have hscanned : ((formatting 32 ("%".toList.map byteOf)).displayFormat intMax 0).map
      Printed.scanned = some [0, 1, 2] := by decide
  rw [hp, Option.map_some, Option.some.injEq] at hscanned
  have hle := hread 2 (by rw [hscanned]; decide)
  exact absurd hle (by decide)

end Utrace
