import Utrace.Interpretation.Words

/-!
# A lifted trap leaves no trace

For any size of a word and any length of the trap: planting changes the bytes of the trap and no
others, and lifting puts them back, whatever happened to other breakpoints in between, even to
some in the same words.
-/

namespace Utrace

open Memory

variable {ι α : Type*} [DecidableEq ι] [AddMonoidWithOne α] [DecidableEq α] {arch : Arch}

/-- A call for one of many breakpoints; a byte that was never saved holds `unset`. -/
inductive PlantCall (ι : Type*) where
  | enable (i : ι)
  | disable (i : ι) (unset : Byte)

/-- The breakpoint a call is for. -/
def PlantCall.index : PlantCall ι → ι
  | enable i | disable i _ => i

/-- A memory, and breakpoints in it. -/
structure Planting (ι α : Type*) where
  mem : α → Byte
  sbps : ι → Breakpoint α

/-- One call. -/
def Planting.call (arch : Arch) (s : Planting ι α) : PlantCall ι → Planting ι α
  | .enable i =>
    let planted := enableBreakpoint arch s.mem (s.sbps i)
    ⟨planted.1, Function.update s.sbps i planted.2⟩
  | .disable i unset => { s with mem := disableBreakpoint arch unset s.mem (s.sbps i) }

/-- The ranges of two breakpoints do not overlap. -/
def Breakpoint.Apart (arch : Arch) (sbp sbp' : Breakpoint α) : Prop :=
  ∀ i < arch.breakpointLength, ∀ j < arch.breakpointLength,
    sbp.addr + (i : α) ≠ sbp'.addr + (j : α)

/-- A breakpoint elsewhere saves the same bytes. -/
theorem saving_overlay {sbp other : Breakpoint α} (hapart : sbp.Apart arch other)
    (mem : α → Byte) (f : Nat → Byte) :
    other.saving (overlay mem sbp.addr f arch.breakpointLength) arch.breakpointLength =
      other.saving mem arch.breakpointLength := by
  refine congrArg (fun g => { other with origValue := g }) (funext fun k => ?_)
  split
  · rename_i hk
    rw [overlay_of_ne fun i hi heq => hapart i hi k hk heq.symm]
  · rfl

/-- The state in which a trap is planted beside the one in which it is not: its bytes are those
of the memory at the start, under the trap. -/
structure Shadowed (arch : Arch) (mem : α → Byte) (sbp : Breakpoint α) (s s' : Planting ι α) :
    Prop where
  mem_eq : s.mem =
    overlay s'.mem sbp.addr (fun k => arch.breakInsn.getD k 0) arch.breakpointLength
  sbps_eq : s.sbps = s'.sbps
  kept : ∀ k < arch.breakpointLength, s'.mem (sbp.addr + (k : α)) = mem (sbp.addr + (k : α))

/-- A call for a breakpoint elsewhere does not see the trap. -/
theorem Shadowed.call {mem : α → Byte} {sbp : Breakpoint α} {s s' : Planting ι α}
    (h : Shadowed arch mem sbp s s') (hfits : arch.Fits α) (hlong : 0 < arch.sizeofLong)
    {call : PlantCall ι} (hapart : sbp.Apart arch (s'.sbps call.index)) :
    Shadowed arch mem sbp (s.call arch call) (s'.call arch call) := by
  have hkept : ∀ f, ∀ k < arch.breakpointLength,
      overlay s'.mem (s'.sbps call.index).addr f arch.breakpointLength (sbp.addr + (k : α)) =
        mem (sbp.addr + (k : α)) := by
    intro f k hk
    rw [overlay_of_ne fun j hj heq => hapart k hk j hj heq, h.kept k hk]
  cases call with
  | enable i =>
    have hsaved := saving_overlay hapart s'.mem fun k => arch.breakInsn.getD k 0
    simp only [PlantCall.index] at hsaved
    unfold Planting.call
    dsimp only
    rw [enableBreakpoint_eq hfits hlong, enableBreakpoint_eq hfits hlong, h.sbps_eq, h.mem_eq,
      hsaved]
    exact ⟨overlay_comm hapart, rfl, hkept _⟩
  | disable i unset =>
    unfold Planting.call
    dsimp only
    rw [disableBreakpoint_eq hfits hlong, disableBreakpoint_eq hfits hlong, h.sbps_eq, h.mem_eq]
    exact ⟨overlay_comm hapart, rfl, hkept _⟩

/-- No call moves a breakpoint. -/
theorem addr_call (hfits : arch.Fits α) (hlong : 0 < arch.sizeofLong) (s : Planting ι α)
    (call : PlantCall ι) (i : ι) : ((s.call arch call).sbps i).addr = (s.sbps i).addr := by
  cases call with
  | enable j =>
    unfold Planting.call
    dsimp only
    rw [enableBreakpoint_eq hfits hlong, Function.update_apply]
    split
    · rename_i heq
      rw [heq]
      rfl
    · rfl
  | disable j unset => rfl

/-- Calls on other breakpoints keep what one breakpoint shadows. -/
theorem Shadowed.calls {mem : α → Byte} {sbp : Breakpoint α} {s s' : Planting ι α}
    (h : Shadowed arch mem sbp s s') (hfits : arch.Fits α) (hlong : 0 < arch.sizeofLong)
    {calls : List (PlantCall ι)}
    (hapart : ∀ call ∈ calls, sbp.Apart arch (s'.sbps call.index)) :
    Shadowed arch mem sbp (calls.foldl (Planting.call arch) s)
      (calls.foldl (Planting.call arch) s') := by
  induction calls generalizing s s' with
  | nil => exact h
  | cons call calls ih =>
    refine ih (h.call hfits hlong (hapart call List.mem_cons_self)) fun other hother => ?_
    unfold Breakpoint.Apart
    rw [addr_call hfits hlong]
    exact hapart other (List.mem_cons_of_mem call hother)

/-- For every size of a word, every length and pattern of the trap, every memory and address:
planting saves the bytes of the trap, puts the trap in their place and leaves every other byte
alone. Lifting restores the memory, also after any calls for breakpoints elsewhere: what is left
is then what these calls alone would have made of the memory. -/
theorem planting_undone (hfits : arch.Fits α) (hlong : 1 ≤ arch.sizeofLong)
    (hinsn : arch.breakInsn.length = arch.breakpointLength) (mem : α → Byte)
    (sbp : Breakpoint α) :
    let planted := enableBreakpoint arch mem sbp
    (∀ k < arch.breakpointLength,
        planted.2.origValue k = some (mem (sbp.addr + (k : α))) ∧
          arch.breakInsn[k]? = some (planted.1 (sbp.addr + (k : α)))) ∧
      (∀ a, (∀ k < arch.breakpointLength, a ≠ sbp.addr + (k : α)) → planted.1 a = mem a) ∧
      (∀ unset, disableBreakpoint arch unset planted.1 planted.2 = mem) ∧
      ∀ (others : ι → Breakpoint α) (calls : List (PlantCall ι)) (unset : Byte),
        (∀ call ∈ calls, sbp.Apart arch (others call.index)) →
        let s := calls.foldl (Planting.call arch) ⟨planted.1, others⟩
        let s' := calls.foldl (Planting.call arch) ⟨mem, others⟩
        disableBreakpoint arch unset s.mem planted.2 = s'.mem ∧ s.sbps = s'.sbps ∧
          ∀ k < arch.breakpointLength, s'.mem (sbp.addr + (k : α)) = mem (sbp.addr + (k : α)) := by
  intro planted
  have hplanted : planted = (overlay mem sbp.addr (fun k => arch.breakInsn.getD k 0)
      arch.breakpointLength, sbp.saving mem arch.breakpointLength) :=
    enableBreakpoint_eq hfits hlong mem sbp
  have hsaved : ∀ k < arch.breakpointLength,
      planted.2.origValue k = some (mem (sbp.addr + (k : α))) := by
    intro k hk
    rw [hplanted]
    exact if_pos hk
  -- Lifting puts the saved bytes back over any memory.
  have hlift : ∀ unset m, disableBreakpoint arch unset m planted.2 =
      overlay m sbp.addr (fun k => mem (sbp.addr + (k : α))) arch.breakpointLength := by
    intro unset m
    have haddr : planted.2.addr = sbp.addr := by rw [hplanted]; rfl
    rw [disableBreakpoint_eq hfits hlong, haddr]
    refine overlay_congr fun k hk => ?_
    rw [hsaved k hk]
    rfl
  have hinj : Set.InjOn (fun j : Nat => sbp.addr + (j : α)) {j | j < arch.breakpointLength} :=
    (hfits sbp.addr).mono fun j hj => Nat.lt_of_lt_of_le hj (arch.breakpointLength_le hlong)
  refine ⟨fun k hk => ⟨hsaved k hk, ?_⟩, fun a ha => ?_, fun unset => ?_, ?_⟩
  · rw [hplanted]
    dsimp only
    rw [overlay_at hinj hk, List.getD_eq_getElem?_getD, List.getElem?_eq_getElem (hinsn ▸ hk)]
    rfl
  · rw [hplanted]
    exact overlay_of_ne ha
  · rw [hlift, hplanted]
    exact overlay_restore mem sbp.addr _ _
  · intro others calls unset hapart s s'
    have hstart : Shadowed arch mem sbp (⟨planted.1, others⟩ : Planting ι α) ⟨mem, others⟩ :=
      ⟨congrArg Prod.fst hplanted, rfl, fun _ _ => rfl⟩
    have hend : Shadowed arch mem sbp s s' := hstart.calls hfits hlong hapart
    refine ⟨?_, hend.sbps_eq, hend.kept⟩
    rw [hlift, hend.mem_eq, overlay_congr fun k hk => (hend.kept k hk).symm]
    exact overlay_restore s'.mem sbp.addr _ _

/-- A trap of two bytes at 3, and another at 5 in the same words. -/
theorem planting_undone_two :
    let arch : Arch := ⟨4, 2, [0x4e, 0x4f]⟩
    let planted := enableBreakpoint arch (fun _ : Int => 0x90) ⟨3, fun _ => none, 1⟩
    let s := Planting.call arch (⟨planted.1, fun _ => ⟨5, fun _ => none, 1⟩⟩ : Planting Unit Int)
      (.enable ())
    disableBreakpoint arch 0 s.mem planted.2 3 = 0x90 := by
  intro arch planted s
  have hapart : ∀ call ∈ [PlantCall.enable ()],
      Breakpoint.Apart arch (⟨3, fun _ => none, 1⟩ : Breakpoint Int) ⟨5, fun _ => none, 1⟩ := by
    intro _ _ i hi j hj
    have hi : i < 2 := hi
    have hj : j < 2 := hj
    simp only [ne_eq]
    omega
  obtain ⟨_, _, _, hcalls⟩ := @planting_undone Unit Int _ _ _ arch (fits_of_charZero arch)
    (by decide) rfl (fun _ => 0x90) ⟨3, fun _ => none, 1⟩
  obtain ⟨hmem, _, hkept⟩ := hcalls (fun _ => ⟨5, fun _ => none, 1⟩) [.enable ()] 0 hapart
  have hbyte := hkept 0 (by decide)
  rw [← hmem] at hbyte
  exact hbyte

end Utrace
