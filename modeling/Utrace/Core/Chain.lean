import Mathlib.Data.List.Nodup
import Mathlib.Logic.Function.Basic
import Mathlib.Tactic.Common

/-!
# Unlinking records from a chain

A link is the variable that points to the first record, or the field of a record that points to
the next one. The loop below goes from link to link and takes records out by writing the link
that points to them; only such links change.
-/

namespace Utrace

variable {ρ : Type*} [DecidableEq ρ]

/-- What every link points to; `none` names the variable, and is the null pointer. -/
abbrev Links (ρ : Type*) := Option ρ → Option ρ

/-- The records found from a link on. -/
def Links.Chain (links : Links ρ) : Option ρ → List ρ → Prop
  | link, [] => links link = none
  | link, p :: ps => links link = some p ∧ Links.Chain links (some p) ps

/-- Unlink the records that are not kept, for as many turns as are left. -/
def unlink (keep : ρ → Bool) : Nat → Links ρ → Option ρ → Option (Links ρ)
  | 0, _, _ => none
  | turns + 1, links, link =>
    match links link with
    | none => some links
    | some p =>
      if keep p then unlink keep turns links (some p)
      else unlink keep turns (Function.update links link (links (some p))) link

omit [DecidableEq ρ] in
/-- A chain does not depend on links outside it. -/
theorem Links.Chain.congr {links links' : Links ρ} {link : Option ρ} {ps : List ρ}
    (h : links.Chain link ps) (heq : ∀ l ∈ link :: ps.map some, links' l = links l) :
    links'.Chain link ps := by
  induction ps generalizing link with
  | nil => exact (heq link (by simp)).trans h
  | cons p ps ih =>
    obtain ⟨hlink, hrest⟩ := h
    refine ⟨(heq link (by simp)).trans hlink, ih hrest fun l hl => heq l ?_⟩
    rw [List.map_cons]
    exact List.mem_cons_of_mem link hl

/-- The loop ends after one turn more than there are records, and leaves those that are kept;
links that were not passed stay as they were. -/
theorem unlink_eq_some (keep : ρ → Bool) {links : Links ρ} {link : Option ρ} {ps : List ρ}
    {turns : Nat} (h : links.Chain link ps) (hnodup : (link :: ps.map some).Nodup)
    (hturns : ps.length < turns) :
    ∃ links', unlink keep turns links link = some links' ∧
      links'.Chain link (ps.filter keep) ∧
      ∀ l ∉ link :: ps.map some, links' l = links l := by
  induction ps generalizing links link turns with
  | nil =>
    obtain ⟨turns, rfl⟩ := Nat.exists_eq_add_of_lt hturns
    have hnone : links link = none := h
    refine ⟨links, ?_, hnone, fun _ _ => rfl⟩
    simp [unlink, hnone]
  | cons p ps ih =>
    obtain ⟨turns, rfl⟩ : ∃ n, turns = n + 1 := ⟨turns - 1, by omega⟩
    obtain ⟨hlink, hrest⟩ := h
    rw [List.map_cons] at hnodup
    obtain ⟨hout, hnodup'⟩ := List.nodup_cons.mp hnodup
    have hleft : ps.length < turns := by
      rw [List.length_cons] at hturns
      omega
    unfold unlink
    rw [hlink]
    dsimp only
    by_cases hkeep : keep p = true
    · rw [if_pos hkeep, List.filter_cons_of_pos hkeep]
      obtain ⟨links', hrun, hchain, hframe⟩ := ih hrest hnodup' hleft
      refine ⟨links', hrun, ⟨(hframe link hout).trans hlink, hchain⟩, fun l hl => ?_⟩
      exact hframe l fun hmem => hl (List.mem_cons_of_mem link hmem)
    · rw [if_neg hkeep, List.filter_cons_of_neg hkeep]
      -- The link now points behind the record that was taken out.
      have hnext : Links.Chain (Function.update links link (links (some p))) link ps := by
        cases ps with
        | nil =>
          have hend : links (some p) = none := hrest
          exact (Function.update_self ..).trans hend
        | cons q ps =>
          refine ⟨(Function.update_self ..).trans hrest.1, hrest.2.congr fun l hl => ?_⟩
          refine Function.update_of_ne (fun heq => hout ?_) ..
          rw [← heq]
          exact List.mem_cons_of_mem _ hl
      have hnodupLink : (link :: ps.map some).Nodup :=
        List.nodup_cons.mpr ⟨fun hmem => hout (List.mem_cons_of_mem _ hmem),
          (List.nodup_cons.mp hnodup').2⟩
      obtain ⟨links', hrun, hchain, hframe⟩ := ih hnext hnodupLink hleft
      refine ⟨links', hrun, hchain, fun l hl => ?_⟩
      rw [List.map_cons] at hl
      have hne : l ≠ link := fun heq => hl (heq ▸ List.mem_cons_self)
      rw [hframe l, Function.update_of_ne hne]
      intro hmem
      rcases List.mem_cons.mp hmem with heq | hmem
      · exact hne heq
      · exact hl (List.mem_cons_of_mem _ (List.mem_cons_of_mem _ hmem))

variable {α : Type*}

/-- The chain from the variable on holds some values, each in a record of its own. -/
def Links.Holds (links : Links ρ) (record : ρ → α) (values : List α) : Prop :=
  ∃ ps : List ρ, links.Chain none ps ∧ ps.Nodup ∧ ps.map record = values

/-- Unlinking ends, and the chain holds the values that are kept, in their order. -/
theorem Links.Holds.unlink {links : Links ρ} {record : ρ → α} {values : List α}
    (h : links.Holds record values) (keep : α → Bool) :
    ∃ turns links', Utrace.unlink (fun p => keep (record p)) turns links none = some links' ∧
      links'.Holds record (values.filter keep) := by
  obtain ⟨ps, hchain, hnodup, rfl⟩ := h
  have hlinks : (none :: ps.map some).Nodup :=
    List.nodup_cons.mpr ⟨by simp, hnodup.map fun _ _ => Option.some.inj⟩
  obtain ⟨links', hrun, hchain', _⟩ := unlink_eq_some (fun p => keep (record p)) hchain hlinks
    (Nat.lt_succ_self _)
  refine ⟨_, links', hrun, _, hchain', hnodup.filter _, ?_⟩
  rw [List.filter_map]
  rfl

end Utrace
