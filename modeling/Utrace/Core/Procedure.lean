import Mathlib.Tactic.Common

/-!
# Procedures and the partial functions they refine

A procedure reads and writes a state and may stop with an error, and what it wrote until then
stays written. It refines a partial function on other states where both stop with the same
error, or both end and their last states are related. An invariant of the procedure holds in
either case, so it is kept apart from that relation.
-/

namespace Utrace

variable {σ υ υ' ε α β : Type}

/-- A procedure with a state, an error and a result. -/
abbrev Procedure (σ ε α : Type) := ExceptT ε (StateM σ) α

namespace Procedure

variable {m : Procedure σ ε α} {k : α → Procedure σ ε β} {s : σ}

/-- The result and the last state of a procedure. -/
def ending (m : Procedure σ ε α) (s : σ) : Except ε α × σ := m.run.run s

/-- Reading the state. -/
@[simp] theorem ending_get_bind (k : σ → Procedure σ ε β) (s : σ) :
    (get >>= k).ending s = (k s).ending s := rfl

/-- Changing it. -/
@[simp] theorem ending_modify_bind (f : σ → σ) (k : Unit → Procedure σ ε β) (s : σ) :
    (modify f >>= k).ending s = (k ()).ending (f s) := rfl

/-- The outcome of a function that may stop. -/
def lift : Except ε α → Procedure σ ε α
  | .ok a => pure a
  | .error e => throw e

/-- A sequence stops where its first part does, or ends as its second part. -/
theorem ending_bind (m : Procedure σ ε α) (k : α → Procedure σ ε β) (s : σ) :
    (m >>= k).ending s =
      match m.ending s with
      | (.ok a, t) => (k a).ending t
      | (.error e, t) => (.error e, t) := by
  change ExceptT.bindCont k (m.ending s).1 (m.ending s).2 = _
  rcases m.ending s with ⟨_ | _, _⟩ <;> rfl

/-- What is left of a sequence whose first part ended. -/
theorem ending_bind_of_ok {a : α} {t : σ} (h : m.ending s = (.ok a, t)) :
    (m >>= k).ending s = (k a).ending t := by
  rw [ending_bind, h]

end Procedure

/-- An ending that keeps the invariant, and the outcome of a function it goes with. -/
structure Refined (inv : σ → Prop) (rel : α → σ → υ → Prop) (p : Except ε α × σ)
    (r : Except ε υ) : Prop where
  /-- The invariant holds of the last state. -/
  inv : inv p.2
  /-- Both stop with the same error, or the last states are related. -/
  rel : match p.1, r with
    | .ok a, .ok u => rel a p.2 u
    | .error e, .error e' => e = e'
    | _, _ => False

namespace Refined

variable {inv : σ → Prop} {rel rel' : α → σ → υ → Prop} {m : Procedure σ ε α} {s : σ}
  {p : Except ε α × σ} {r : Except ε υ}

/-- Both return. -/
theorem ok {a : α} {u : υ} (hinv : inv s) (hrel : rel a s u) :
    Refined inv rel (.ok a, s) (.ok u : Except ε υ) := ⟨hinv, hrel⟩

/-- Both fail alike. -/
theorem error {e : ε} (hinv : inv s) :
    Refined inv rel (.error e, s) (.error e : Except ε υ) := ⟨hinv, rfl⟩

/-- A relation may be weakened. -/
theorem mono (h : Refined inv rel p r) (hrel : ∀ a s u, rel a s u → rel' a s u) :
    Refined inv rel' p r := by
  refine ⟨h.inv, ?_⟩
  rcases p with ⟨_ | a, t⟩ <;> cases r with
  | error e => exact h.rel
  | ok u => first | exact hrel a t u h.rel | exact h.rel

/-- Sequences refine sequences. -/
theorem bind {rel' : β → σ → υ' → Prop} {k : α → Procedure σ ε β} {g : υ → Except ε υ'}
    (h : Refined inv rel (m.ending s) r)
    (hk : ∀ a t u, inv t → rel a t u → Refined inv rel' ((k a).ending t) (g u)) :
    Refined inv rel' ((m >>= k).ending s) (r.bind g) := by
  obtain ⟨hinv, hrel⟩ := h
  rw [Procedure.ending_bind]
  rcases hm : m.ending s with ⟨e | a, t⟩ <;> rw [hm] at hinv hrel <;> cases r with
  | error e' => first | exact ⟨hinv, hrel⟩ | exact hrel.elim
  | ok u => first | exact hk a t u hinv hrel | exact hrel.elim

/-- A function that cannot stop comes last. -/
theorem map {rel' : β → σ → υ' → Prop} {k : α → Procedure σ ε β} {g : υ → υ'}
    (h : Refined inv rel (m.ending s) r)
    (hk : ∀ a t u, inv t → rel a t u →
      Refined inv rel' ((k a).ending t) (.ok (g u) : Except ε υ')) :
    Refined inv rel' ((m >>= k).ending s) (r.map g) := by
  have hmap : r.map g = r.bind fun u => .ok (g u) := by
    cases r <;> rfl
  rw [hmap]
  exact h.bind hk

/-- A function on both sides. -/
theorem lift {rel' : β → σ → υ' → Prop} {e : Except ε α} {k : α → Procedure σ ε β}
    {g : α → Except ε υ'} (hinv : inv s)
    (hk : ∀ a, e = .ok a → Refined inv rel' ((k a).ending s) (g a)) :
    Refined inv rel' ((Procedure.lift e >>= k).ending s) (e.bind g) := by
  cases e with
  | error e => exact error hinv
  | ok a => exact hk a rfl

/-- Where the function does not stop, neither does the procedure. -/
theorem exists_of_ok {u : υ} (h : Refined inv rel p (.ok u)) :
    ∃ a t, p = (.ok a, t) ∧ inv t ∧ rel a t u := by
  obtain ⟨hinv, hrel⟩ := h
  rcases p with ⟨e | a, t⟩
  · exact hrel.elim
  · exact ⟨a, t, rfl, hinv, hrel⟩

end Refined

end Utrace
