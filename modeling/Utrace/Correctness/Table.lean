import Mathlib.Data.List.Induction
import Utrace.Native.Dict

/-!
# A table is the list of the pairs entered

For any hash and any comparison under which equal keys have equal hashes, a table filled
by `dict_enter` answers like the list of the pairs entered, in their order, and a visit
of the whole table meets every pair of that list once.
-/

namespace Utrace

universe w

variable {κ ν σ : Type*}

/-- `dict_enter` for each pair in turn. -/
def dictEnterAll (d : Dict κ ν) (pairs : List (κ × ν)) : Dict κ ν :=
  pairs.foldl (fun d pair => dictEnter d pair.1 pair.2) d

/-- One more pair is entered last. -/
theorem dictEnterAll_snoc (d : Dict κ ν) (pairs : List (κ × ν)) (pair : κ × ν) :
    dictEnterAll d (pairs ++ [pair]) = dictEnter (dictEnterAll d pairs) pair.1 pair.2 := by
  unfold dictEnterAll
  rw [List.foldl_append, List.foldl_cons, List.foldl_nil]

/-- The two functions of a table are those it was made with. -/
theorem functions_dictEnterAll (d : Dict κ ν) (pairs : List (κ × ν)) :
    (dictEnterAll d pairs).key2hash = d.key2hash ∧ (dictEnterAll d pairs).keyCmp = d.keyCmp := by
  induction pairs using List.reverseRecOn with
  | nil => exact ⟨rfl, rfl⟩
  | append_singleton pairs pair ih =>
    rw [dictEnterAll_snoc]
    exact ih

/-- The pair an entry was entered as. -/
def DictEntry.pair (e : DictEntry κ ν) : κ × ν := (e.key, e.value)

/-- The chains hold the pairs entered, in an order of their own. -/
theorem entries_dictEnterAll_perm (key2hash : κ → BitVec 32) (keyCmp : κ → κ → BitVec 32)
    (pairs : List (κ × ν)) :
    ((dictEnterAll (dictInit key2hash keyCmp) pairs).entries.map DictEntry.pair).Perm pairs := by
  induction pairs using List.reverseRecOn with
  | nil => simp [dictEnterAll]
  | append_singleton pairs pair ih =>
    rw [dictEnterAll_snoc]
    have hentered := (entries_dictEnter_perm
      (dictEnterAll (dictInit key2hash keyCmp) pairs) pair.1 pair.2).map DictEntry.pair
    have hcons := hentered.trans (ih.cons pair)
    exact hcons.trans (List.perm_append_singleton pair pairs).symm

/-- A lookup finds the first pair entered whose key compares equal. -/
theorem dictFindEntry_dictEnterAll {key2hash : κ → BitVec 32} {keyCmp : κ → κ → BitVec 32}
    (hhash : ∀ k k', keyCmp k k' = 0 → key2hash k = key2hash k') (pairs : List (κ × ν))
    (key : κ) :
    dictFindEntry (dictEnterAll (dictInit key2hash keyCmp) pairs) key =
      (pairs.find? fun pair => keyCmp key pair.1 = 0).map Prod.snd := by
  induction pairs using List.reverseRecOn with
  | nil => exact dictFindEntry_dictInit key2hash keyCmp key
  | append_singleton pairs pair ih =>
    obtain ⟨hkey2hash, hkeyCmp⟩ :=
      functions_dictEnterAll (dictInit key2hash keyCmp : Dict κ ν) pairs
    have hcompatible : (dictEnterAll (dictInit key2hash keyCmp) pairs).Compatible := by
      unfold Dict.Compatible
      rw [hkey2hash, hkeyCmp]
      exact hhash
    rw [dictEnterAll_snoc, dictFindEntry_dictEnter_of_compatible hcompatible, ih, hkeyCmp,
      List.find?_append, Option.map_or]
    congr 1
    change (if keyCmp key pair.1 = 0 then _ else _) = _
    by_cases hcmp : keyCmp key pair.1 = 0
    · rw [if_pos hcmp, List.find?_cons_of_pos (by simpa using hcmp), Option.map_some]
    · rw [if_neg hcmp, List.find?_cons_of_neg (by simpa using hcmp), List.find?_nil,
        Option.map_none]

/-- The data a visit ends with is the fold of the callback over the entries. -/
theorem data_applyChain (func : κ → ν → σ → ν × σ) (es : List (DictEntry κ ν)) (data : σ) :
    (applyChain func es data).2 =
      (es.map DictEntry.pair).foldl (fun data pair => (func pair.1 pair.2 data).2) data := by
  induction es generalizing data with
  | nil => rfl
  | cons e es ih =>
    rw [applyChain, List.map_cons, List.foldl_cons]
    exact ih _

/-- For every hash and comparison with equal hashes on keys that compare equal, and every
sequence of pairs entered in a fresh table: a lookup returns the value of the first pair
whose key compares equal to the key looked up, and nothing when there is none; and every
visit calls its callback on the same permutation of the pairs, once for each. -/
theorem table_refines_pairs {key2hash : κ → BitVec 32} {keyCmp : κ → κ → BitVec 32}
    (hhash : ∀ k k', keyCmp k k' = 0 → key2hash k = key2hash k') (pairs : List (κ × ν)) :
    (∀ key, dictFindEntry (dictEnterAll (dictInit key2hash keyCmp) pairs) key =
      (pairs.find? fun pair => keyCmp key pair.1 = 0).map Prod.snd) ∧
    ∃ visited : List (κ × ν), visited.Perm pairs ∧
      ∀ (σ : Type w) (func : κ → ν → σ → ν × σ) (data : σ),
        (dictApplyToAll (dictEnterAll (dictInit key2hash keyCmp) pairs) func data).2 =
          visited.foldl (fun data pair => (func pair.1 pair.2 data).2) data := by
  refine ⟨dictFindEntry_dictEnterAll hhash pairs,
    _, entries_dictEnterAll_perm key2hash keyCmp pairs, ?_⟩
  intro σ func data
  have hvisit := congrArg Prod.snd (applyBuckets_flatten func
    (dictEnterAll (dictInit key2hash keyCmp) pairs).buckets data)
  exact hvisit.trans (data_applyChain func _ data)

/-- Three pairs in one chain, two of them under the same key. -/
theorem table_refines_pairs_chain :
    (∀ key : Nat, dictFindEntry (dictEnterAll (dictInit (fun k => BitVec.ofNat 32 (997 * k))
        fun k k' => if k = k' then 0 else 1) [(1, "a"), (2, "b"), (1, "c")]) key =
      ([(1, "a"), (2, "b"), (1, "c")].find? fun pair => (if key = pair.1 then (0 : BitVec 32)
        else 1) = 0).map Prod.snd) ∧
    ∃ visited : List (Nat × String), visited.Perm [(1, "a"), (2, "b"), (1, "c")] ∧
      ∀ (σ : Type) (func : Nat → String → σ → String × σ) (data : σ),
        (dictApplyToAll (dictEnterAll (dictInit (fun k => BitVec.ofNat 32 (997 * k))
          fun k k' => if k = k' then 0 else 1) [(1, "a"), (2, "b"), (1, "c")]) func data).2 =
          visited.foldl (fun data pair => (func pair.1 pair.2 data).2) data := by
  refine table_refines_pairs (fun k k' h => ?_) [(1, "a"), (2, "b"), (1, "c")]
  have heq : k = k' := by
    by_contra hne
    simp [hne] at h
  rw [heq]

end Utrace
