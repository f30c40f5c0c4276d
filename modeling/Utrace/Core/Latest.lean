import Mathlib.Data.List.Induction
import Mathlib.Tactic.Common

/-!
# The latest item, and where it comes from

Sources come one after the other and each yields some items. The latest item of a kind is
told together with the position of its source. Two ways to take the items out of the sources
have the same latest item, from the same source, exactly when they agree on the last source
that yields one either way.
-/

namespace Utrace

variable {γ β : Type*} {p : β → Bool} {items items' later : List β}

/-- The last item of a kind. -/
def latest (p : β → Bool) (items : List β) : Option β := items.reverse.find? p

/-- The latest of a longer list. -/
theorem latest_append (p : β → Bool) (items later : List β) :
    latest p (items ++ later) = (latest p later).or (latest p items) := by
  unfold latest
  rw [List.reverse_append, List.find?_append]

/-- It is in the list and has the property. -/
theorem latest_mem {b : β} (h : latest p items = some b) : b ∈ items ∧ p b := by
  refine ⟨?_, List.find?_some h⟩
  rw [← List.mem_reverse]
  exact List.mem_of_find?_eq_some h

/-- The items of all sources, with the positions of the sources. -/
def placed (parts : γ → List β) : Nat → List γ → List (β × Nat)
  | _, [] => []
  | k, x :: xs => (parts x).map (·, k) ++ placed parts (k + 1) xs

variable {parts parts' : γ → List β} {k n : Nat} {xs : List γ} {x : γ}

/-- Parts keep their places in a longer list. -/
theorem placed_append (parts : γ → List β) (k : Nat) (xs ys : List γ) :
    placed parts k (xs ++ ys) = placed parts k xs ++ placed parts (k + xs.length) ys := by
  induction xs generalizing k with
  | nil => rfl
  | cons x xs ih =>
    have hk : k + 1 + xs.length = k + (x :: xs).length := by
      rw [List.length_cons]
      omega
    rw [List.cons_append, placed, placed, ih, hk, List.append_assoc]

/-- Their places are inside it. -/
theorem lt_of_mem_placed {b : β × Nat} (h : b ∈ placed parts k xs) : b.2 < k + xs.length := by
  induction xs generalizing k with
  | nil => cases h
  | cons x xs ih =>
    rw [List.length_cons]
    rcases List.mem_append.mp h with hx | hxs
    · obtain ⟨_, _, rfl⟩ := List.mem_map.mp hx
      omega
    · have hlt := ih hxs
      omega

/-- The latest of placed items. -/
theorem latest_map (p : β → Bool) (items : List β) (n : Nat) :
    latest (p ∘ Prod.fst) (items.map (·, n)) = (latest p items).map (·, n) := by
  unfold latest
  rw [← List.map_reverse, List.find?_map]
  rfl

/-- A projection of a search is a search in the projection. -/
theorem map_latest (p : β → Bool) (items : List (β × Nat)) :
    (latest (p ∘ Prod.fst) items).map Prod.fst = latest p (items.map Prod.fst) := by
  unfold latest
  rw [← List.map_reverse, List.find?_map]

/-- The source yields an item of the kind, one way or the other. -/
def Yields (p : β → Bool) (parts parts' : γ → List β) (x : γ) : Prop :=
  latest p (parts x) ≠ none ∨ latest p (parts' x) ≠ none

/-- On the last source that yields an item of the kind either way, both ways have the same
latest one. -/
def AgreeLast (p : β → Bool) (parts parts' : γ → List β) (xs : List γ) : Prop :=
  ∀ before x after, xs = before ++ x :: after → Yields p parts parts' x →
    (∀ y ∈ after, ¬Yields p parts parts' y) → latest p (parts x) = latest p (parts' x)

/-- The last source yields nothing of the kind. -/
theorem agreeLast_snoc_of_silent (hx : ¬Yields p parts parts' x) :
    AgreeLast p parts parts' (xs ++ [x]) ↔ AgreeLast p parts parts' xs := by
  constructor
  · intro h before y after hxs hy hafter
    refine h before y (after ++ [x]) (by simp [hxs]) hy fun z hz => ?_
    rcases List.mem_append.mp hz with hz | hz
    · exact hafter z hz
    · rw [List.mem_singleton.mp hz]
      exact hx
  · intro h before y after hxs hy hafter
    rcases List.eq_nil_or_concat after with rfl | ⟨after, z, rfl⟩
    · have hlast := List.append_inj_right' hxs rfl
      cases hlast
      exact (hx hy).elim
    · have hsplit : xs ++ [x] = (before ++ y :: after) ++ [z] := by
        rw [hxs]
        simp
      have hinit := List.append_inj_left' hsplit rfl
      exact h before y after hinit hy fun w hw => hafter w (by simp [hw])

/-- The last source yields something of the kind. -/
theorem agreeLast_snoc_of_yields (hx : Yields p parts parts' x) :
    AgreeLast p parts parts' (xs ++ [x]) ↔ latest p (parts x) = latest p (parts' x) := by
  constructor
  · intro h
    apply h xs x [] rfl hx
    intro y hy
    cases hy
  · intro h before y after hxs hy hafter
    rcases List.eq_nil_or_concat after with rfl | ⟨after, z, rfl⟩
    · have hlast := List.append_inj_right' hxs rfl
      cases hlast
      exact h
    · have hsplit : xs ++ [x] = (before ++ y :: after) ++ [z] := by
        rw [hxs]
        simp
      have hlast := List.append_inj_right' hsplit rfl
      cases hlast
      exact (hafter x (by simp) hx).elim

/-- Both ways have the same latest item, from the same source, exactly when they agree on the
last source that yields one. -/
theorem latest_placed_eq_iff :
    latest (p ∘ Prod.fst) (placed parts k xs) = latest (p ∘ Prod.fst) (placed parts' k xs) ↔
      AgreeLast p parts parts' xs := by
  induction xs using List.reverseRecOn with
  | nil =>
    refine iff_of_true rfl ?_
    intro before x after hxs
    simp at hxs
  | append_singleton xs x ih =>
    have hsplit : ∀ parts : γ → List β, latest (p ∘ Prod.fst) (placed parts k (xs ++ [x])) =
        ((latest p (parts x)).map (·, k + xs.length)).or
          (latest (p ∘ Prod.fst) (placed parts k xs)) := by
      intro parts
      have hone : placed parts (k + xs.length) [x] = (parts x).map (·, k + xs.length) :=
        List.append_nil _
      rw [placed_append, latest_append, hone, latest_map]
    have hearlier : ∀ parts (b : β), latest (p ∘ Prod.fst) (placed parts k xs) ≠
        some (b, k + xs.length) := by
      intro parts b h
      have hlt := lt_of_mem_placed (latest_mem h).1
      exact Nat.lt_irrefl _ hlt
    rw [hsplit, hsplit]
    by_cases hx : Yields p parts parts' x
    · rw [agreeLast_snoc_of_yields hx]
      cases h : latest p (parts x) with
      | none =>
        cases h' : latest p (parts' x) with
        | none => exact absurd hx (not_or.mpr ⟨not_not.mpr h, not_not.mpr h'⟩)
        | some b' => exact iff_of_false (hearlier parts b') (by simp)
      | some b =>
        cases h' : latest p (parts' x) with
        | none => exact iff_of_false (fun heq => hearlier parts' b heq.symm) (by simp)
        | some b' => simp
    · rw [agreeLast_snoc_of_silent hx, ← ih]
      obtain ⟨h, h'⟩ := not_or.mp hx
      rw [not_not.mp h, not_not.mp h']
      rfl

end Utrace
