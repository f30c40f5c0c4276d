import Utrace.Core.Memory
import Mathlib.Data.Nat.Cast.Basic

/-!
# Overlays

Some cells from an address on are given new values, and all others keep theirs. Overlays that
share no cell do not disturb each other, and one that puts the old values back undoes another.
A word that is read, changed at its front and written back is an overlay as well.
-/

namespace Utrace.Memory

variable {α β : Type*} [AddMonoidWithOne α] [DecidableEq α]

/-- The memory with `n` new values from `a` on. -/
def overlay (m : α → β) (a : α) (f : Nat → β) : Nat → α → β
  | 0 => m
  | n + 1 => Function.update (overlay m a f n) (a + (n : α)) (f n)

variable {m m' : α → β} {a b : α} {f g : Nat → β} {n k : Nat}

/-- Outside the range the memory is as it was. -/
theorem overlay_of_ne {x : α} (h : ∀ j < n, x ≠ a + (j : α)) : overlay m a f n x = m x := by
  induction n with
  | zero => rfl
  | succ n ih =>
    rw [overlay, Function.update_of_ne (h n (Nat.lt_succ_self n))]
    exact ih fun j hj => h j (Nat.lt_succ_of_lt hj)

/-- Inside the range the overlay's own values are read. -/
theorem overlay_at (hinj : Set.InjOn (fun j : Nat => a + (j : α)) {j | j < n}) {j : Nat}
    (hj : j < n) : overlay m a f n (a + (j : α)) = f j := by
  induction n with
  | zero => cases hj
  | succ n ih =>
    rw [overlay]
    by_cases hlast : j = n
    · rw [hlast, Function.update_self]
    · have hne : a + (j : α) ≠ a + (n : α) := fun heq =>
        hlast (hinj hj (Nat.lt_succ_self n) heq)
      rw [Function.update_of_ne hne]
      exact ih (hinj.mono fun i hi => Nat.lt_succ_of_lt hi) (by omega)

/-- An overlay in two parts. -/
theorem overlay_add (m : α → β) (a : α) (f : Nat → β) (n k : Nat) :
    overlay m a f (n + k) =
      overlay (overlay m a f n) (a + (n : α)) (fun j => f (n + j)) k := by
  induction k with
  | zero => rfl
  | succ k ih => rw [← Nat.add_assoc, overlay, ih, overlay, Nat.cast_add, add_assoc]

/-- Only the values inside the range matter. -/
theorem overlay_congr (h : ∀ j < n, f j = g j) : overlay m a f n = overlay m a g n := by
  induction n with
  | zero => rfl
  | succ n ih =>
    rw [overlay, overlay, ih fun j hj => h j (Nat.lt_succ_of_lt hj), h n (Nat.lt_succ_self n)]

/-- A cell of the overlay does not depend on what was there. -/
theorem overlay_update {x : α} (h : ∀ j < n, x ≠ a + (j : α)) (v : β) :
    overlay (Function.update m x v) a f n = Function.update (overlay m a f n) x v := by
  induction n with
  | zero => rfl
  | succ n ih =>
    rw [overlay, overlay, ih fun j hj => h j (Nat.lt_succ_of_lt hj),
      Function.update_comm (h n (Nat.lt_succ_self n))]

/-- Overlays without a common cell commute. -/
theorem overlay_comm (h : ∀ i < n, ∀ j < k, a + (i : α) ≠ b + (j : α)) :
    overlay (overlay m a f n) b g k = overlay (overlay m b g k) a f n := by
  induction n with
  | zero => rfl
  | succ n ih =>
    rw [overlay, overlay, overlay_update (h n (Nat.lt_succ_self n)),
      ih fun i hi => h i (Nat.lt_succ_of_lt hi)]

/-- An overlay with the values of another memory shows them. -/
theorem overlay_of_agree (h : ∀ j < n, f j = m' (a + (j : α))) {x : α}
    (hx : ∃ j < n, x = a + (j : α)) : overlay m a f n x = m' x := by
  induction n with
  | zero =>
    obtain ⟨j, hj, _⟩ := hx
    cases hj
  | succ n ih =>
    rw [overlay]
    by_cases hlast : x = a + (n : α)
    · rw [hlast, Function.update_self]
      exact h n (Nat.lt_succ_self n)
    · rw [Function.update_of_ne hlast]
      obtain ⟨j, hj, rfl⟩ := hx
      have hne : j ≠ n := fun heq => hlast (heq ▸ rfl)
      exact ih (fun j hj => h j (Nat.lt_succ_of_lt hj)) ⟨j, by omega, rfl⟩

/-- Putting back what was there. -/
theorem overlay_restore (m : α → β) (a : α) (f : Nat → β) (n : Nat) :
    overlay (overlay m a f n) a (fun j => m (a + (j : α))) n = m := by
  funext x
  by_cases hx : ∃ j < n, x = a + (j : α)
  · exact overlay_of_agree (fun _ _ => rfl) hx
  · push Not at hx
    rw [overlay_of_ne hx, overlay_of_ne hx]

/-- Writing back a word just read, with its first bytes replaced. -/
theorem poke_eq_overlay {w t : Nat} {bytes : List β}
    (hinj : Set.InjOn (fun j : Nat => a + (j : α)) {j | j < w}) (ht : t ≤ w)
    (hlength : bytes.length = w)
    (hbytes : ∀ j < w, bytes[j]? = some (if j < t then f j else m (a + (j : α)))) :
    poke m a bytes = overlay m a f t := by
  have hinj' : Set.InjOn (fun j : Nat => a + (j : α)) {j | j < 0 + bytes.length} := by
    rw [Nat.zero_add, hlength]
    exact hinj
  funext x
  by_cases hx : ∃ j < w, x = a + (j : α)
  · obtain ⟨j, hj, rfl⟩ := hx
    have hpoke := pokeFrom_at m a 0 bytes hinj' j _ (hbytes j hj)
    rw [Nat.zero_add] at hpoke
    rw [poke, hpoke]
    by_cases hfirst : j < t
    · rw [if_pos hfirst, overlay_at (hinj.mono fun i hi => Nat.lt_of_lt_of_le hi ht) hfirst]
    · rw [if_neg hfirst, overlay_of_ne]
      intro i hi heq
      have hij : j = i := hinj hj (Nat.lt_of_lt_of_le hi ht) heq
      exact hfirst (hij ▸ hi)
  · push Not at hx
    rw [poke, overlay_of_ne fun j hj => hx j (Nat.lt_of_lt_of_le hj ht)]
    refine pokeFrom_of_ne m a 0 bytes x fun j _ hj => hx j ?_
    rwa [Nat.zero_add, hlength] at hj

end Utrace.Memory
