import Mathlib.Data.List.Nodup
import Mathlib.Logic.Function.Basic
import Utrace.Core.Loop

/-!
# Linked lists in a heap

A heap holds the blocks in use, by their addresses. The nodes of a linked list are found from a
link on, each holding the link to the next one; the null pointer ends the list. The loops below
follow the links and stop at an address that holds no block. They end after one turn more than
there are nodes, whatever else is in the heap.
-/

namespace Utrace

variable {ρ β σ : Type*}

/-- The nodes found from a link on, with their addresses. -/
def Linked (next : β → Option ρ) (heap : ρ → Option β) : Option ρ → List (ρ × β) → Prop
  | link, [] => link = none
  | link, n :: ns => link = some n.1 ∧ heap n.1 = some n.2 ∧ Linked next heap (next n.2) ns

namespace Linked

variable {next : β → Option ρ} {heap heap' : ρ → Option β} {link : Option ρ}
  {nodes : List (ρ × β)}

/-- A linked list does not depend on the blocks outside it. -/
theorem congr (h : Linked next heap link nodes)
    (heq : ∀ p ∈ nodes.map Prod.fst, heap' p = heap p) : Linked next heap' link nodes := by
  induction nodes generalizing link with
  | nil => exact h
  | cons n ns ih =>
    obtain ⟨hlink, hblock, hrest⟩ := h
    rw [List.map_cons, List.forall_mem_cons] at heq
    exact ⟨hlink, heq.1.trans hblock, ih hrest heq.2⟩

/-- Each node is in the heap. -/
theorem mem (h : Linked next heap link nodes) {n : ρ × β} (hn : n ∈ nodes) :
    heap n.1 = some n.2 := by
  induction nodes generalizing link with
  | nil => cases hn
  | cons m ns ih =>
    rcases List.mem_cons.mp hn with rfl | hn
    · exact h.2.1
    · exact ih h.2.2 hn

/-! ## Following the links -/

/-- One turn of `while (entry && entry->next) entry = entry->next`. -/
def lastTurn (next : β → Option ρ) (heap : ρ → Option β) (entry : Option ρ) :
    Option (Option ρ ⊕ Option ρ) :=
  match entry with
  | none => some (.inr none)
  | some p => (heap p).map fun e =>
    match next e with
    | none => .inr (some p)
    | some q => .inl (some q)

/-- The last node is found, or the list is empty. -/
theorem loop_lastTurn (h : Linked next heap link nodes) {turns : Nat}
    (hturns : nodes.length < turns) :
    loop (lastTurn next heap) turns link = some (nodes.getLast?.map Prod.fst) := by
  induction nodes generalizing link turns with
  | nil =>
    obtain ⟨turns, rfl⟩ := Nat.exists_eq_add_of_lt hturns
    rw [h]
    exact loop_inr rfl _
  | cons n ns ih =>
    obtain ⟨turns, rfl⟩ : ∃ m, turns = m + 1 := ⟨turns - 1, by omega⟩
    obtain ⟨rfl, hblock, hrest⟩ := h
    cases ns with
    | nil =>
      apply loop_inr
      rw [lastTurn, hblock, Option.map_some, show next n.2 = none from hrest]
      rfl
    | cons m ms =>
      have hturn : lastTurn next heap (some n.1) = some (.inl (next n.2)) := by
        rw [lastTurn, hblock, Option.map_some, hrest.1]
      rw [List.length_cons] at hturns
      rw [loop_inl hturn, ih hrest (by omega), List.getLast?_cons_cons]

/-- One turn of a search; a node is passed over or is the one looked for. -/
def findTurn (next : β → Option ρ) (found : β → Bool) (heap : ρ → Option β) (entry : Option ρ) :
    Option (Option ρ ⊕ Option ρ) :=
  match entry with
  | none => some (.inr none)
  | some p => (heap p).map fun e => if found e then .inr (some p) else .inl (next e)

/-- The first node that passes the test is found. -/
theorem loop_findTurn (found : β → Bool) (h : Linked next heap link nodes) {turns : Nat}
    (hturns : nodes.length < turns) :
    loop (findTurn next found heap) turns link =
      some ((nodes.find? fun n => found n.2).map Prod.fst) := by
  induction nodes generalizing link turns with
  | nil =>
    obtain ⟨turns, rfl⟩ := Nat.exists_eq_add_of_lt hturns
    rw [h]
    exact loop_inr rfl _
  | cons n ns ih =>
    obtain ⟨turns, rfl⟩ : ∃ m, turns = m + 1 := ⟨turns - 1, by omega⟩
    obtain ⟨rfl, hblock, hrest⟩ := h
    rw [List.length_cons] at hturns
    by_cases hfound : found n.2 = true
    · rw [List.find?_cons_of_pos (p := fun n : ρ × β => found n.2) hfound]
      apply loop_inr
      rw [findTurn, hblock, Option.map_some, if_pos hfound]
      rfl
    · have hturn : findTurn next found heap (some n.1) = some (.inl (next n.2)) := by
        rw [findTurn, hblock, Option.map_some, if_neg hfound]
      rw [List.find?_cons_of_neg (p := fun n : ρ × β => found n.2) hfound, loop_inl hturn,
        ih hrest (by omega)]

/-- One turn of a visit; the callback may fail, and then the visit has no outcome. -/
def visitTurn (next : β → Option ρ) (func : β → σ → Option σ) (heap : ρ → Option β)
    (s : Option ρ × σ) : Option (Option ρ × σ ⊕ σ) :=
  match s.1 with
  | none => some (.inr s.2)
  | some p => (heap p).bind fun e => (func e s.2).map fun data => .inl (next e, data)

/-- The callback sees every node in turn. -/
theorem loop_visitTurn (func : β → σ → Option σ) (h : Linked next heap link nodes) {turns : Nat}
    (hturns : nodes.length < turns) (data : σ) :
    loop (visitTurn next func heap) turns (link, data) =
      nodes.foldlM (fun data n => func n.2 data) data := by
  induction nodes generalizing link turns data with
  | nil =>
    obtain ⟨turns, rfl⟩ := Nat.exists_eq_add_of_lt hturns
    rw [h]
    exact loop_inr rfl _
  | cons n ns ih =>
    obtain ⟨turns, rfl⟩ : ∃ m, turns = m + 1 := ⟨turns - 1, by omega⟩
    obtain ⟨rfl, hblock, hrest⟩ := h
    rw [List.length_cons] at hturns
    rw [List.foldlM_cons]
    cases hdata : func n.2 data with
    | none =>
      simp [loop, visitTurn, hblock, hdata]
    | some data' =>
      have hturn : visitTurn next func heap (some n.1, data) = some (.inl (next n.2, data')) := by
        simp [visitTurn, hblock, hdata]
      rw [loop_inl hturn, ih hrest (by omega)]
      rfl

/-- A visit of several lists in turn sees the nodes of all of them. -/
theorem foldlM_loop_visitTurn {ι : Type*} {is : List ι} {links : ι → Option ρ}
    {nodes : ι → List (ρ × β)} (func : β → σ → Option σ)
    (h : ∀ i ∈ is, Linked next heap (links i) (nodes i)) {turns : Nat}
    (hturns : ∀ i ∈ is, (nodes i).length < turns) (data : σ) :
    is.foldlM (fun data i => loop (visitTurn next func heap) turns (links i, data)) data =
      (is.flatMap nodes).foldlM (fun data n => func n.2 data) data := by
  induction is generalizing data with
  | nil => rfl
  | cons i is ih =>
    rw [List.forall_mem_cons] at h hturns
    rw [List.foldlM_cons, List.flatMap_cons, List.foldlM_append, loop_visitTurn func h.1 hturns.1]
    congr 1
    ext1 data'
    exact ih h.2 hturns.2 data'

/-! ## Growing and freeing a list -/

section

variable [DecidableEq ρ]

/-- A block outside the list may be written. -/
theorem update (h : Linked next heap link nodes) {p : ρ} (hp : p ∉ nodes.map Prod.fst)
    (b : Option β) : Linked next (Function.update heap p b) link nodes := by
  apply h.congr
  intro q hq
  rw [Function.update_of_ne]
  rintro rfl
  exact hp hq

/-- The last node is linked to another list. -/
theorem link_last {n : ρ × β} {rest : List (ρ × β)} {last : β}
    (h : Linked next heap link (nodes ++ [n])) (hrest : Linked next heap (next last) rest)
    (hnodup : ((nodes ++ [n]).map Prod.fst).Nodup) (hn : n.1 ∉ rest.map Prod.fst) :
    Linked next (Function.update heap n.1 (some last)) link (nodes ++ (n.1, last) :: rest) := by
  induction nodes generalizing link with
  | nil => exact ⟨h.1, Function.update_self .., hrest.update hn _⟩
  | cons m ns ih =>
    obtain ⟨hlink, hblock, htail⟩ := h
    rw [List.cons_append, List.map_cons, List.nodup_cons] at hnodup
    refine ⟨hlink, ?_, ih htail hnodup.2⟩
    rw [Function.update_of_ne _ _ heap, hblock]
    rintro heq
    apply hnodup.1
    rw [heq, List.map_append, List.mem_append]
    exact Or.inr (List.mem_singleton_self _)

/-- One turn of a loop that frees the nodes; a block is free only once. -/
def freeTurn (next : β → Option ρ) (s : Option ρ × (ρ → Option β)) :
    Option (Option ρ × (ρ → Option β) ⊕ (ρ → Option β)) :=
  match s.1 with
  | none => some (.inr s.2)
  | some p => (s.2 p).map fun e => .inl (next e, Function.update s.2 p none)

/-- A heap without some of its blocks. -/
def without (heap : ρ → Option β) (ps : List ρ) : ρ → Option β :=
  fun p => if p ∈ ps then none else heap p

/-- All the nodes are freed and nothing else is. -/
theorem loop_freeTurn (h : Linked next heap link nodes) (hnodup : (nodes.map Prod.fst).Nodup)
    {turns : Nat} (hturns : nodes.length < turns) :
    loop (freeTurn next) turns (link, heap) = some (without heap (nodes.map Prod.fst)) := by
  induction nodes generalizing heap link turns with
  | nil =>
    obtain ⟨turns, rfl⟩ := Nat.exists_eq_add_of_lt hturns
    rw [h]
    exact loop_inr rfl _
  | cons n ns ih =>
    obtain ⟨turns, rfl⟩ : ∃ m, turns = m + 1 := ⟨turns - 1, by omega⟩
    obtain ⟨rfl, hblock, hrest⟩ := h
    rw [List.map_cons, List.nodup_cons] at hnodup
    rw [List.length_cons] at hturns
    have hturn : freeTurn next (some n.1, heap) =
        some (.inl (next n.2, Function.update heap n.1 none)) := by
      simp [freeTurn, hblock]
    rw [loop_inl hturn, ih (hrest.update hnodup.1 none) hnodup.2 (by omega)]
    congr 1
    ext1 p
    rw [without, without, List.map_cons]
    by_cases hp : p = n.1
    · rw [hp, Function.update_self, if_pos List.mem_cons_self, ite_self]
    · rw [Function.update_of_ne hp]
      simp only [List.mem_cons, hp, false_or]

/-- A record that is freed is gone. -/
theorem without_of_mem {ps : List ρ} {p : ρ} (h : p ∈ ps) : without heap ps p = none := if_pos h

/-- The others stay. -/
theorem without_of_notMem {ps : List ρ} {p : ρ} (h : p ∉ ps) : without heap ps p = heap p :=
  if_neg h

/-- Where nothing is freed, all stay. -/
theorem without_nil (heap : ρ → Option β) : without heap [] = heap := by
  ext1 p
  exact if_neg List.not_mem_nil

/-- Records may be freed one after another. -/
theorem without_without (heap : ρ → Option β) (ps qs : List ρ) :
    without (without heap ps) qs = without heap (ps ++ qs) := by
  ext1 p
  by_cases hp : p ∈ ps <;> by_cases hq : p ∈ qs <;> simp [without, hp, hq]

/-- Several lists without a common node are freed in turn. -/
theorem foldlM_loop_freeTurn {ι : Type*} {is : List ι} {links : ι → Option ρ}
    {nodes : ι → List (ρ × β)} (h : ∀ i ∈ is, Linked next heap (links i) (nodes i))
    (hnodup : ((is.flatMap nodes).map Prod.fst).Nodup) {turns : Nat}
    (hturns : ∀ i ∈ is, (nodes i).length < turns) :
    is.foldlM (fun heap i => loop (freeTurn next) turns (links i, heap)) heap =
      some (without heap ((is.flatMap nodes).map Prod.fst)) := by
  induction is generalizing heap with
  | nil =>
    rw [List.foldlM_nil, List.flatMap_nil, List.map_nil, without_nil]
    rfl
  | cons i is ih =>
    rw [List.forall_mem_cons] at h hturns
    rw [List.flatMap_cons, List.map_append, List.nodup_append'] at hnodup
    obtain ⟨hfirst, hrest, hdisjoint⟩ := hnodup
    rw [List.foldlM_cons, loop_freeTurn h.1 hfirst hturns.1]
    -- The other lists do not notice.
    have hothers : ∀ j ∈ is, Linked next (without heap ((nodes i).map Prod.fst)) (links j)
        (nodes j) := by
      intro j hj
      apply (h.2 j hj).congr
      intro p hp
      apply without_of_notMem
      intro hmem
      apply hdisjoint hmem
      obtain ⟨n, hn, rfl⟩ := List.mem_map.mp hp
      exact List.mem_map_of_mem (List.mem_flatMap.mpr ⟨j, hj, hn⟩)
    rw [List.flatMap_cons, List.map_append, ← without_without]
    exact ih hothers hrest hturns.2

end

end Linked

end Utrace
