import Mathlib.Data.Fintype.Card
import Mathlib.Logic.Function.Basic

/-!
# Names in slots

A finite array holds names, and one value marks the slots that are free. It holds a set of
names when exactly these stand in it, each in one slot. A name enters at a free slot and leaves
by freeing its own; no other slot changes.
-/

namespace Utrace

variable {ι α : Type*} {free : α} {names names' : ι → α} {held : Finset α}

/-- The slots hold exactly the names of the set, and each of them once. -/
structure Slotted (free : α) (names : ι → α) (held : Finset α) : Prop where
  /-- No name stands in two slots. -/
  once : ∀ i j, names i = names j → names i ≠ free → i = j
  /-- The names that are there. -/
  mem_iff : ∀ name, name ≠ free → (name ∈ held ↔ ∃ i, names i = name)
  /-- The mark is not a name. -/
  free_notMem : free ∉ held

namespace Slotted

/-- At first every slot is free. -/
theorem empty (h : ∀ i, names i = free) : Slotted free names ∅ := by
  refine ⟨fun i j _ hi => (hi (h i)).elim, fun name hname => ?_, Finset.notMem_empty _⟩
  refine iff_of_false (Finset.notMem_empty _) ?_
  rintro ⟨i, rfl⟩
  exact hname (h i)

/-- A name of the set has one slot. -/
theorem existsUnique (h : Slotted free names held) {name : α} (hname : name ∈ held) :
    ∃! i, names i = name := by
  have hne : name ≠ free := by
    rintro rfl
    exact h.free_notMem hname
  obtain ⟨i, rfl⟩ := (h.mem_iff name hne).mp hname
  exact ⟨i, rfl, fun j hj => h.once j i hj (hj ▸ hne)⟩

/-- Where no slot is free there are as many names as slots. -/
theorem card_le_of_full [Fintype ι] (h : Slotted free names held) (hfull : ∀ i, names i ≠ free) :
    Fintype.card ι ≤ held.card := by
  apply Finset.card_le_card_of_injOn names
  · intro i _
    exact (h.mem_iff _ (hfull i)).mpr ⟨i, rfl⟩
  · intro i _ j _ hij
    exact h.once i j hij (hfull i)

variable [DecidableEq α] {name : α} {k : ι}

/-- A new name is put into a free slot. -/
theorem fill (h : Slotted free names held) (hname : name ≠ free) (hfree : names k = free)
    (hnew : ∀ i, names i ≠ name) (hk : names' k = name) (hother : ∀ i, i ≠ k → names' i = names i) :
    Slotted free names' (insert name held) := by
  refine ⟨fun i j hij hi => ?_, fun other hne => ?_, fun hmem => ?_⟩
  · by_cases hik : i = k <;> by_cases hjk : j = k
    · rw [hik, hjk]
    · rw [hik, hk, hother j hjk] at hij
      exact (hnew j hij.symm).elim
    · rw [hjk, hk, hother i hik] at hij
      exact (hnew i hij).elim
    · rw [hother i hik] at hi hij
      rw [hother j hjk] at hij
      exact h.once i j hij hi
  · rw [Finset.mem_insert, h.mem_iff other hne]
    constructor
    · rintro (rfl | ⟨i, rfl⟩)
      · exact ⟨k, hk⟩
      · refine ⟨i, hother i ?_⟩
        rintro rfl
        exact hne hfree
    · rintro ⟨i, rfl⟩
      by_cases hik : i = k
      · exact Or.inl (hik ▸ hk)
      · exact Or.inr ⟨i, (hother i hik).symm⟩
  · rcases Finset.mem_insert.mp hmem with heq | hheld
    · exact hname heq.symm
    · exact h.free_notMem hheld

/-- The slot of a name is freed. -/
theorem clear (h : Slotted free names held) (hslot : names k = name) (hk : names' k = free)
    (hother : ∀ i, i ≠ k → names' i = names i) :
    Slotted free names' (held.erase name) := by
  have hkeep : ∀ i, names' i ≠ free → i ≠ k := by
    rintro i hi rfl
    exact hi hk
  refine ⟨fun i j hij hi => ?_, fun other hne => ?_, fun hmem => ?_⟩
  · have hik := hkeep i hi
    have hjk := hkeep j (hij ▸ hi)
    rw [hother i hik] at hi hij
    rw [hother j hjk] at hij
    exact h.once i j hij hi
  · rw [Finset.mem_erase, h.mem_iff other hne]
    constructor
    · rintro ⟨hdiff, i, rfl⟩
      refine ⟨i, hother i ?_⟩
      rintro rfl
      exact hdiff hslot
    · rintro ⟨i, rfl⟩
      have hik := hkeep i hne
      refine ⟨fun heq => hik (h.once i k ?_ ?_), i, (hother i hik).symm⟩
      · rw [hslot, ← heq, hother i hik]
      · rw [← hother i hik]
        exact hne
  · exact h.free_notMem (Finset.mem_of_mem_erase hmem)

/-- A name that has no slot is not in the set. -/
theorem erase_of_forall_ne (h : Slotted free names held) (hname : name ≠ free)
    (hnone : ∀ i, names i ≠ name) : held.erase name = held := by
  apply Finset.erase_eq_of_notMem
  rw [h.mem_iff name hname]
  rintro ⟨i, hi⟩
  exact hnone i hi

end Slotted

end Utrace
