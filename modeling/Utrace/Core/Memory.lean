import Mathlib.Logic.Function.Basic
import Mathlib.Data.Nat.Cast.Defs
import Mathlib.Data.Set.Function
import Mathlib.Tactic.Common

/-!
# Byte memory read and written a word at a time

A memory is a function from addresses. A word access at `a` touches the cells
`a + 0, …, a + (w - 1)`; addresses may wrap around as long as those cells are
distinct. Writing back a word whose other bytes were just read changes one cell.
-/

namespace Utrace.Memory

variable {α β : Type*} [Add α] [NatCast α] [DecidableEq α]

/-- The word of `w` cells at `a`, in memory order. -/
def peek (w : Nat) (m : α → β) (a : α) : List β :=
  (List.range w).map fun j : Nat => m (a + (j : α))

/-- Write the cells of a word at `a`, in memory order, starting at offset `k`. -/
def pokeFrom (m : α → β) (a : α) : Nat → List β → α → β
  | _, [] => m
  | k, b :: bs => pokeFrom (Function.update m (a + (k : α)) b) a (k + 1) bs

/-- Write the cells of a word at `a`. -/
def poke (m : α → β) (a : α) (bs : List β) : α → β := pokeFrom m a 0 bs

omit [DecidableEq α] in
/-- A peek reads `w` cells. -/
@[simp] theorem length_peek (w : Nat) (m : α → β) (a : α) : (peek w m a).length = w := by
  simp [peek]

omit [DecidableEq α] in
/-- The `j`-th cell read is the one at `a + j`. -/
theorem getElem?_peek {w : Nat} (m : α → β) (a : α) {j : Nat} (hj : j < w) :
    (peek w m a)[j]? = some (m (a + (j : α))) := by
  simp [peek, hj]

/-- A word write leaves every cell outside its offsets alone. -/
theorem pokeFrom_of_ne (m : α → β) (a : α) (k : Nat) (bs : List β) (x : α)
    (h : ∀ j, k ≤ j → j < k + bs.length → x ≠ a + (j : α)) : pokeFrom m a k bs x = m x := by
  induction bs generalizing m k with
  | nil => rfl
  | cons b bs ih =>
    rw [pokeFrom, ih _ (k + 1)]
    · exact Function.update_of_ne (h k le_rfl (by simp)) _ _
    · intro j hj hl
      exact h j (by omega) (by simp only [List.length_cons]; omega)

/-- A word write stores each of its bytes, when its offsets name distinct cells. -/
theorem pokeFrom_at (m : α → β) (a : α) (k : Nat) (bs : List β)
    (hinj : Set.InjOn (fun j : Nat => a + (j : α)) {j | j < k + bs.length}) (i : Nat)
    (b : β) (hb : bs[i]? = some b) : pokeFrom m a k bs (a + ((k + i : Nat) : α)) = b := by
  induction bs generalizing m k i with
  | nil => simp at hb
  | cons c bs ih =>
    have hlen : k + (c :: bs).length = (k + 1) + bs.length := by
      simp only [List.length_cons]; omega
    rw [pokeFrom]
    cases i with
    | zero =>
      have hcb : c = b := by simpa using hb
      rw [pokeFrom_of_ne, Nat.add_zero, hcb]
      · exact Function.update_self _ _ _
      · intro j hj hl he
        have := hinj (by simp only [Set.mem_ofPred_eq]; omega)
          (by simp only [Set.mem_ofPred_eq]; omega) he
        omega
    | succ i =>
      have hrest := ih (Function.update m (a + (k : α)) c) (k + 1) (hlen ▸ hinj) i
        (by simpa using hb)
      rw [← hrest]
      congr 3
      omega

/-- Writing back the word just read with byte `i` replaced changes cell `a + i` only. -/
theorem poke_set_peek (m : α → β) (a : α) {w : Nat}
    (hinj : Set.InjOn (fun j : Nat => a + (j : α)) {j | j < w}) {i : Nat} (hi : i < w) (b : β) :
    poke m a ((peek w m a).set i b) = Function.update m (a + (i : α)) b := by
  have hinj' : Set.InjOn (fun j : Nat => a + (j : α))
      {j | j < 0 + ((peek w m a).set i b).length} := by simpa using hinj
  funext x
  by_cases hx : ∃ j, j < w ∧ x = a + (j : α)
  · obtain ⟨j, hj, rfl⟩ := hx
    by_cases hji : j = i
    · subst hji
      have hget : ((peek w m a).set j b)[j]? = some b := by simp [hj]
      have hpoke := pokeFrom_at m a 0 _ hinj' j b hget
      rw [Nat.zero_add] at hpoke
      rw [poke, hpoke, Function.update_self]
    · have hne : a + (j : α) ≠ a + (i : α) := fun he => hji (hinj hj hi he)
      have hget : ((peek w m a).set i b)[j]? = some (m (a + (j : α))) := by
        rw [List.getElem?_set_ne (Ne.symm hji), getElem?_peek m a hj]
      have hpoke := pokeFrom_at m a 0 _ hinj' j _ hget
      rw [Nat.zero_add] at hpoke
      rw [poke, hpoke, Function.update_of_ne hne]
  · have hout : ∀ j, j < w → x ≠ a + (j : α) := fun j hj he => hx ⟨j, hj, he⟩
    rw [poke, pokeFrom_of_ne, Function.update_of_ne (hout i hi)]
    intro j _ hj
    exact hout j (by simpa using hj)

end Utrace.Memory
