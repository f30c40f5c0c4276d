import Utrace.Interpretation.Signature
import Utrace.Native.ArgSig

/-!
# Where `start_of_arg_sig` is in the string

The characters in front of `pos`, read backwards, are what the search over lists has left.
Every loop ends: `strlen` comes closer to the terminating zero with every turn, the others come
closer to `str`.
-/

namespace Utrace

namespace StrPtr

variable (str : StrPtr) {s : Reading} {k : Nat}

/-- The characters in front of a position. -/
def before (k : Nat) : List Char := (List.range k).map fun i : Nat => str.cells i

/-- The string. -/
def text : List Char := str.before str.len

/-- The text before a place is as long as its offset. -/
@[simp] theorem length_before (k : Nat) : (str.before k).length = k := by simp [before]

/-- The last character before the next place. -/
theorem reverse_before_succ (k : Nat) :
    (str.before (k + 1)).reverse = str.cells k :: (str.before k).reverse := by
  rw [before, List.range_succ, List.map_append, List.reverse_append]
  rfl

/-- Positions in the string or of its terminating zero. -/
def Inside (reads : List Int) : Prop := ∀ p ∈ reads, 0 ≤ p ∧ p ≤ str.len

/-- `pos` is a position in the string, or that of the zero, and all those read are. -/
structure Points (s : Reading) (k : Nat) : Prop where
  pos : s.pos = k
  le : k ≤ str.len
  inside : str.Inside s.reads

variable {str}

namespace Points

/-- Reading a character stays at its place. -/
theorem read (h : str.Points s k) : str.Points s.read k where
  pos := h.pos
  le := h.le
  inside := List.forall_mem_cons.mpr ⟨by have hpos := h.pos; have hle := h.le; omega, h.inside⟩

/-- A step back. -/
theorem back (h : str.Points s (k + 1)) : str.Points (s.move (-1)) k where
  pos := by
    have hpos := h.pos
    change s.pos + -1 = k
    omega
  le := (Nat.le_succ k).trans h.le
  inside := h.inside

/-- A step forth. -/
theorem forth (h : str.Points s k) (hlt : k < str.len) : str.Points (s.move 1) (k + 1) where
  pos := by
    have hpos := h.pos
    change s.pos + 1 = _
    omega
  le := hlt
  inside := h.inside

end Points

/-! ## The loops inside -/

/-- `strlen` goes on to the next position, or it is at the terminating zero. -/
theorem strlenTurn_spec (s : Reading) (hs : ∃ k, str.Points s k) :
    ∃ next, strlenTurn str.cells s = some next ∧ next.elim
      (fun s' => (∃ k, str.Points s' k) ∧ str.len - s'.pos.toNat < str.len - s.pos.toNat)
      (fun s' => str.Points s' str.len) := by
  obtain ⟨k, hk⟩ := hs
  have hpos := hk.pos
  rcases hk.le.lt_or_eq with hlt | rfl
  · have hchar : str.cells s.pos ≠ '\x00' := hk.pos ▸ str.noZero k hlt
    have hforth := hk.read.forth hlt
    have hpos' := hforth.pos
    exact ⟨.inl (s.read.move 1), by rw [strlenTurn, if_neg hchar], ⟨k + 1, hforth⟩, by omega⟩
  · have hchar : str.cells s.pos = '\x00' := hk.pos ▸ str.ended
    exact ⟨.inr s.read, by rw [strlenTurn, if_pos hchar], hk.read⟩

/-- `strlen` ends at the terminating zero. -/
theorem loop_strlenTurn {turns : Nat} {reads : List Int} (hreads : str.Inside reads)
    (hturns : str.len < turns) :
    ∃ s, loop (strlenTurn str.cells) turns ⟨0, reads⟩ = some s ∧ str.Points s str.len := by
  have hstart : str.Points ⟨0, reads⟩ 0 := ⟨rfl, Nat.zero_le _, hreads⟩
  exact exists_loop_eq _ _ (fun s : Reading => str.len - s.pos.toNat) strlenTurn_spec
    (s := ⟨0, reads⟩) ⟨0, hstart⟩ (by simpa using hturns)

variable (str) in
/-- Going back from one position to another, the search finds what it would have found. -/
def Passed (k k' : Nat) : Prop :=
  k' ≤ k ∧ ∀ stacked, argSigLoop stacked (str.before (k + 1)).reverse =
    argSigLoop stacked (str.before (k' + 1)).reverse

/-- A character that is no parenthesis is passed over. -/
theorem Passed.back {k k' : Nat} (h : str.Passed k (k' + 1))
    (hchar : str.cells ((k' + 1 : Nat) : Int) ≠ ')' ∧ str.cells ((k' + 1 : Nat) : Int) ≠ '(') :
    str.Passed k k' := by
  refine ⟨(Nat.le_succ k').trans h.1, fun stacked => ?_⟩
  rw [h.2, reverse_before_succ, argSigLoop, if_neg hchar.1, if_neg hchar.2]

/-- The loop inside goes back by one character, or it is at a parenthesis or at the start. -/
theorem backTurn_spec (s : Reading) (hs : ∃ k', str.Points s k' ∧ str.Passed k k') :
    ∃ next, backTurn str.cells s = some next ∧ next.elim
      (fun s' => (∃ k', str.Points s' k' ∧ str.Passed k k') ∧ s'.pos.toNat < s.pos.toNat)
      (fun s' => ∃ k', str.Points s' k' ∧ str.Passed k k' ∧
        (k' = 0 ∨ str.cells k' = ')' ∨ str.cells k' = '(')) := by
  obtain ⟨k', hk', hpassed⟩ := hs
  have hpos := hk'.pos
  cases k' with
  | zero =>
    refine ⟨.inr s, ?_, 0, hk', hpassed, Or.inl rfl⟩
    rw [backTurn, if_neg (by omega)]
  | succ k' =>
    rw [backTurn, if_pos (by omega), hpos]
    by_cases hchar : str.cells ((k' + 1 : Nat) : Int) ≠ ')' ∧
        str.cells ((k' + 1 : Nat) : Int) ≠ '('
    · have hback := hk'.read.back
      have hpos' := hback.pos
      exact ⟨.inl (s.read.move (-1)), by rw [if_pos hchar], ⟨k', hback, hpassed.back hchar⟩,
        by omega⟩
    · refine ⟨.inr s.read, by rw [if_neg hchar], k' + 1, hk'.read, hpassed, Or.inr ?_⟩
      rw [not_and_or, not_not, not_not] at hchar
      exact hchar

/-- It goes back to a parenthesis or to the start. -/
theorem loop_backTurn {turns k : Nat} (hs : str.Points s k) (hturns : k < turns) :
    ∃ s', loop (backTurn str.cells) turns s = some s' ∧
      ∃ k', str.Points s' k' ∧ str.Passed k k' ∧
        (k' = 0 ∨ str.cells k' = ')' ∨ str.cells k' = '(') := by
  have hstart : str.Passed k k := ⟨le_rfl, fun _ => rfl⟩
  exact exists_loop_eq _ _ (fun s : Reading => s.pos.toNat) backTurn_spec ⟨k, hs, hstart⟩
    (by rw [hs.pos]; exact hturns)

/-! ## The loop over the parentheses -/

/-- As many characters are left as there are parentheses to match. -/
theorem le_length_of_argSigLoop {stacked : Int} {left : List Char} {tmp : Nat}
    (h : argSigLoop stacked left = some tmp) : stacked ≤ left.length := by
  induction left generalizing stacked with
  | nil => cases h
  | cons c left ih =>
    rw [argSigLoop] at h
    rw [List.length_cons]
    split at h
    · have hle := ih h
      omega
    · split at h
      · split at h
        · have hle := ih h
          omega
        · omega
      · have hle := ih h
        omega

variable (str) in
/-- The loop is at a position from where the search still finds what it is to find. There are
no more parentheses to match than characters behind the position. -/
structure Searches (s : Reading × BitVec 32) (k : Nat) : Prop where
  points : str.Points s.1 k
  nonneg : 0 ≤ s.2.toInt
  le : s.2.toInt ≤ str.len - k
  same : argSigLoop s.2.toInt (str.before k).reverse = startOfArgSig str.text

variable (str) in
/-- What is returned is what the search over lists finds. -/
structure Returns (r : Found) : Prop where
  ret : r.ret = (startOfArgSig str.text).map fun tmp : Nat => (tmp : Int)
  inside : str.Inside r.reads

/-- One is one as a machine integer. -/
theorem toInt_one : (1 : BitVec 32).toInt = 1 := rfl

/-- One more parenthesis to match. Where `stacked` overflows, the string is too short for all
of them to be matched. -/
theorem whileStacked_add {stacked : BitVec 32} (hs : str.Points s k) (hnonneg : 0 ≤ stacked.toInt)
    (hle : stacked.toInt + 1 ≤ str.len - k)
    (hsame : argSigLoop (stacked.toInt + 1) (str.before k).reverse = startOfArgSig str.text) :
    (whileStacked s (stacked + 1)).elim (fun s' => s'.1 = s ∧ str.Searches s' k) str.Returns := by
  have hhigh := BitVec.toInt_lt (x := stacked)
  have hfits := str.fits
  rw [whileStacked]
  by_cases hmax : stacked.toInt + 1 < 2 ^ 31
  · have hadd : (stacked + 1).toInt = stacked.toInt + 1 := by
      rw [BitVec.toInt_add, toInt_one]
      exact Int.bmod_eq_of_le (by omega) (by omega)
    rw [if_pos (by omega)]
    exact ⟨rfl, hs, by rw [hadd]; omega, by rw [hadd]; exact hle, by rw [hadd]; exact hsame⟩
  · have hmax' : stacked.toInt = 2 ^ 31 - 1 := by omega
    have hadd : (stacked + 1).toInt = -2 ^ 31 := by
      rw [BitVec.toInt_add, hmax']
      rfl
    have hne : stacked + 1 ≠ 0 := by
      intro h
      rw [h] at hadd
      exact absurd hadd (by decide)
    have hnone : startOfArgSig str.text = none := by
      rw [← hsame, Option.eq_none_iff_forall_ne_some]
      intro tmp htmp
      have hlength := le_length_of_argSigLoop htmp
      rw [List.length_reverse, length_before] at hlength
      omega
    rw [if_neg (by rw [hadd]; decide), if_neg hne]
    exact ⟨by rw [hnone]; rfl, hs.inside⟩

/-- One parenthesis less to match, or none. -/
theorem whileStacked_sub {stacked : BitVec 32} (hs : str.Points s k) (hnonneg : 0 ≤ stacked.toInt)
    (hle : stacked.toInt ≤ str.len - k)
    (hsame : (if 0 < stacked.toInt - 1 then argSigLoop (stacked.toInt - 1) (str.before k).reverse
      else if stacked.toInt - 1 = 0 then some k else none) = startOfArgSig str.text) :
    (whileStacked s (stacked - 1)).elim (fun s' => s'.1 = s ∧ str.Searches s' k) str.Returns := by
  have hhigh := BitVec.toInt_lt (x := stacked)
  have hsub : (stacked - 1).toInt = stacked.toInt - 1 := by
    rw [BitVec.toInt_sub, toInt_one]
    exact Int.bmod_eq_of_le (by omega) (by omega)
  have hzero : stacked - 1 = 0 ↔ stacked.toInt - 1 = 0 := by
    rw [← hsub, ← BitVec.toInt_inj]
    rfl
  rw [whileStacked, hsub]
  by_cases hmore : 0 < stacked.toInt - 1
  · rw [if_pos hmore] at hsame ⊢
    exact ⟨rfl, hs, by rw [hsub]; omega, by rw [hsub]; omega, by rw [hsub]; exact hsame⟩
  · rw [if_neg hmore] at hsame ⊢
    refine ⟨?_, hs.inside⟩
    rw [← hsame]
    by_cases hlast : stacked.toInt - 1 = 0
    · rw [if_pos hlast, if_pos (hzero.mpr hlast), hs.pos]
      rfl
    · rw [if_neg hlast, if_neg (hlast ∘ hzero.mp)]
      rfl

/-- A turn that stays at its place leaves less to search. -/
theorem less_of_kept {next : (Reading × BitVec 32) ⊕ Found} {left : Nat}
    (h : next.elim (fun s' => s'.1 = s ∧ str.Searches s' k) str.Returns)
    (hless : s.pos.toNat < left) :
    next.elim (fun s' => (∃ k, str.Searches s' k) ∧ s'.1.pos.toNat < left) str.Returns := by
  cases next with
  | inl s' => exact ⟨⟨k, h.2⟩, h.1 ▸ hless⟩
  | inr r => exact h

/-- A turn leads to a position further left from where the search goes on, or to the result. -/
theorem argSigTurn_spec {turns : Nat} {s : Reading × BitVec 32} (hs : str.Searches s k)
    (hturns : str.len < turns) :
    ∃ next, argSigTurn str.cells turns s = some next ∧ next.elim
      (fun s' => (∃ k', str.Searches s' k') ∧ s'.1.pos.toNat < s.1.pos.toNat) str.Returns := by
  have hpos := hs.points.pos
  have hle := hs.le
  have hsame := hs.same
  rw [argSigTurn]
  cases k with
  | zero =>
    have hstart : (s.1.move (-1)).pos < 0 := by
      change s.1.pos + -1 < 0
      omega
    refine ⟨.inr ⟨none, s.1.reads⟩, if_pos hstart, ?_, hs.points.inside⟩
    rw [← hsame]
    rfl
  | succ k =>
    have hback := hs.points.back
    have hlower : k < turns := hback.le.trans_lt hturns
    obtain ⟨s', hloop, k', hk', ⟨hle', hpassed⟩, hchar⟩ := loop_backTurn hback hlower
    rw [if_neg (by rw [hback.pos]; omega), hloop, Option.map_some, hk'.pos]
    rw [hpassed, reverse_before_succ, argSigLoop] at hsame
    have hless : s'.pos.toNat < s.1.pos.toNat := by
      have hpos' := hk'.pos
      omega
    by_cases hclose : str.cells k' = ')'
    · rw [if_pos hclose] at hsame ⊢
      have hkept := whileStacked_add hk'.read hs.nonneg (by omega) hsame
      exact ⟨_, rfl, less_of_kept hkept hless⟩
    · rw [if_neg hclose] at hsame ⊢
      by_cases hopen : str.cells k' = '('
      · rw [if_pos hopen] at hsame ⊢
        rw [List.length_reverse, length_before] at hsame
        have hkept := whileStacked_sub hk'.read hs.nonneg (by omega) hsame
        exact ⟨_, rfl, less_of_kept hkept hless⟩
      · -- The first character of the string is no parenthesis.
        rw [if_neg hopen] at hsame ⊢
        have hfirst : k' = 0 := hchar.resolve_right fun h => h.elim hclose hopen
        subst hfirst
        refine ⟨_, rfl, ?_, hk'.read.inside⟩
        rw [← hsame]
        rfl

variable (str) in
/-- `start_of_arg_sig` ends, reads inside the string only, and returns what the search over
lists finds. -/
theorem startOfArgSigWithin_returns {turns : Nat} (hturns : str.len < turns) :
    ∃ r, startOfArgSigWithin str.cells turns = some r ∧ str.Returns r := by
  have hnothing : str.Inside [] := fun p hp => by cases hp
  obtain ⟨length, hlength, hpoints⟩ := loop_strlenTurn hnothing hturns
  have hpos := hpoints.pos
  rw [startOfArgSigWithin, hlength, Option.bind_some]
  by_cases hempty : length.pos = 0
  · refine ⟨⟨none, length.reads⟩, if_pos hempty, ?_, hpoints.inside⟩
    have hlen : str.len = 0 := by omega
    rw [text, hlen]
    rfl
  · obtain ⟨s, hs, hpoints'⟩ := loop_strlenTurn hpoints.inside hturns
    have hsearches : str.Searches (s, 0) str.len := ⟨hpoints', le_rfl, by simp, rfl⟩
    have hleft : s.pos.toNat < turns := by
      have hpos' := hpoints'.pos
      omega
    rw [if_neg hempty, hs, Option.bind_some]
    exact exists_loop_eq (fun s => ∃ k, str.Searches s k) str.Returns (fun s => s.1.pos.toNat)
      (fun s ⟨k, hk⟩ => argSigTurn_spec hk hturns) ⟨str.len, hsearches⟩ hleft

end StrPtr

end Utrace
