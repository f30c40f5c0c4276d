import Mathlib.Data.List.Nodup
import Mathlib.Logic.Function.Basic
import Mathlib.Tactic.Common

/-!
# The chained hash table of `dict.c`

Entries are appended to the chain their hash selects and are never removed; a
lookup walks one chain. The values are pointers in the source: writing through
the pointer a lookup returned is `dictUpdate`. A chain only ever holds entries of
its own hash, so lookups may be read off the list of all entries.
-/

namespace Utrace

/-- `DICTTABLESIZE`. -/
def dictTableSize : Nat := 997

/-- `struct dict_entry`; the chain is a list. -/
structure DictEntry (κ ν : Type*) where
  hash : BitVec 32
  key : κ
  value : ν

/-- `struct dict`, with the placement of every entry in the chain of its hash. -/
structure Dict (κ ν : Type*) where
  buckets : List (List (DictEntry κ ν))
  key2hash : κ → BitVec 32
  keyCmp : κ → κ → BitVec 32
  /-- `buckets[DICTTABLESIZE]`. -/
  size : buckets.length = dictTableSize
  /-- Every entry carries the hash of its key and sits in the chain that hash selects. -/
  placed : ∀ i es, buckets[i]? = some es → ∀ e ∈ es,
    e.hash = key2hash e.key ∧ e.hash.toNat % dictTableSize = i

variable {κ ν σ : Type*}

/-- `dict_init`. -/
def dictInit (key2hash : κ → BitVec 32) (keyCmp : κ → κ → BitVec 32) : Dict κ ν where
  buckets := List.replicate dictTableSize []
  key2hash := key2hash
  keyCmp := keyCmp
  size := List.length_replicate
  placed i es h e he := by
    obtain ⟨_, rfl⟩ := by simpa only [List.getElem?_replicate, Option.ite_none_right_eq_some,
      Option.some.injEq] using h
    exact absurd he List.not_mem_nil

/-- `bucketpos`: the chain a key belongs to. -/
def Dict.bucketpos (d : Dict κ ν) (key : κ) : Nat := (d.key2hash key).toNat % dictTableSize

/-- The two tests of the lookup loop: equal hashes, then `key_cmp` returning zero. -/
def Dict.same (d : Dict κ ν) (key : κ) (e : DictEntry κ ν) : Bool :=
  d.key2hash key == e.hash && d.keyCmp key e.key == 0

/-- The chain a lookup of the key walks. -/
def Dict.chain (d : Dict κ ν) (key : κ) : List (DictEntry κ ν) :=
  d.buckets.getD (d.bucketpos key) []

/-- `dict_find_entry`. -/
def dictFindEntry (d : Dict κ ν) (key : κ) : Option ν :=
  ((d.chain key).find? (d.same key)).map (·.value)

/-- All entries, in the order `dict_apply_to_all` visits them. -/
def Dict.entries (d : Dict κ ν) : List (DictEntry κ ν) := d.buckets.flatten

/-- The part of an entry that never changes after `dict_enter`. -/
def DictEntry.slot (e : DictEntry κ ν) : BitVec 32 × κ := (e.hash, e.key)

/-- Placement only reads hashes and keys. -/
theorem placed_of_slots {key2hash : κ → BitVec 32} {bs bs' : List (List (DictEntry κ ν))}
    (hslots : bs'.map (List.map DictEntry.slot) = bs.map (List.map DictEntry.slot))
    (h : ∀ i es, bs[i]? = some es → ∀ e ∈ es,
      e.hash = key2hash e.key ∧ e.hash.toNat % dictTableSize = i) :
    ∀ i es, bs'[i]? = some es → ∀ e ∈ es,
      e.hash = key2hash e.key ∧ e.hash.toNat % dictTableSize = i := by
  intro i es' hes' e' he'
  have hget : (bs.map (List.map DictEntry.slot))[i]? = some (es'.map DictEntry.slot) := by
    rw [← hslots, List.getElem?_map, hes', Option.map_some]
  rw [List.getElem?_map, Option.map_eq_some_iff] at hget
  obtain ⟨es, hes, hmap⟩ := hget
  have hmem : e'.slot ∈ es.map DictEntry.slot := hmap ▸ List.mem_map_of_mem he'
  obtain ⟨e, he, hslot⟩ := List.mem_map.mp hmem
  have hplaced := h i es hes e he
  have hh : e.hash = e'.hash := congrArg Prod.fst hslot
  have hk : e.key = e'.key := congrArg Prod.snd hslot
  rwa [hh, hk] at hplaced

/-- `dict_enter`: the new entry goes to the end of its chain. -/
def dictEnter (d : Dict κ ν) (key : κ) (value : ν) : Dict κ ν where
  buckets := d.buckets.modify (d.bucketpos key) (· ++ [⟨d.key2hash key, key, value⟩])
  key2hash := d.key2hash
  keyCmp := d.keyCmp
  size := by rw [List.length_modify, d.size]
  placed i es h e he := by
    rw [List.getElem?_modify, Option.map_eq_map, Option.map_eq_some_iff] at h
    obtain ⟨es₀, hes₀, rfl⟩ := h
    by_cases hi : d.bucketpos key = i
    · rw [if_pos hi, List.mem_append, List.mem_singleton] at he
      rcases he with he | rfl
      · exact d.placed i es₀ hes₀ e he
      · exact ⟨rfl, hi⟩
    · rw [if_neg hi] at he
      exact d.placed i es₀ hes₀ e he

/-- Rewrite the value of the first entry that passes a test. -/
def updateFirst (p : DictEntry κ ν → Bool) (f : ν → ν) :
    List (DictEntry κ ν) → List (DictEntry κ ν)
  | [] => []
  | e :: es => if p e then { e with value := f e.value } :: es else e :: updateFirst p f es

/-- Changing a value keeps the slots of a chain. -/
@[simp] theorem slot_updateFirst (p : DictEntry κ ν → Bool) (f : ν → ν)
    (es : List (DictEntry κ ν)) :
    (updateFirst p f es).map DictEntry.slot = es.map DictEntry.slot := by
  induction es with
  | nil => rfl
  | cons e es ih => by_cases h : p e = true <;> simp [updateFirst, h, ih, DictEntry.slot]

/-- Write through the pointer that `dict_find_entry` returned for the key. -/
def dictUpdate (d : Dict κ ν) (key : κ) (f : ν → ν) : Dict κ ν where
  buckets := d.buckets.modify (d.bucketpos key) (updateFirst (d.same key) f)
  key2hash := d.key2hash
  keyCmp := d.keyCmp
  size := by rw [List.length_modify, d.size]
  placed := by
    refine placed_of_slots ?_ d.placed
    apply List.ext_getElem?
    intro i
    rw [List.getElem?_map, List.getElem?_modify, List.getElem?_map]
    by_cases hi : d.bucketpos key = i
    · simp [hi, Function.comp_def]
    · simp [hi]

/-- The callback applied along one chain; it may rewrite the value it points to. -/
def applyChain (func : κ → ν → σ → ν × σ) :
    List (DictEntry κ ν) → σ → List (DictEntry κ ν) × σ
  | [], data => ([], data)
  | e :: es, data =>
    let called := func e.key e.value data
    let rest := applyChain func es called.2
    ({ e with value := called.1 } :: rest.1, rest.2)

/-- The outer loop of `dict_apply_to_all`, over the chains. -/
def applyBuckets (func : κ → ν → σ → ν × σ) :
    List (List (DictEntry κ ν)) → σ → List (List (DictEntry κ ν)) × σ
  | [], data => ([], data)
  | es :: bs, data =>
    let first := applyChain func es data
    let rest := applyBuckets func bs first.2
    (first.1 :: rest.1, rest.2)

/-- Visiting a chain keeps its slots. -/
@[simp] theorem slot_applyChain (func : κ → ν → σ → ν × σ) (es : List (DictEntry κ ν))
    (data : σ) : (applyChain func es data).1.map DictEntry.slot = es.map DictEntry.slot := by
  induction es generalizing data with
  | nil => rfl
  | cons e es ih => simp [applyChain, ih, DictEntry.slot]

/-- Visiting the buckets keeps the slots of each. -/
theorem slot_applyBuckets (func : κ → ν → σ → ν × σ) (bs : List (List (DictEntry κ ν)))
    (data : σ) : (applyBuckets func bs data).1.map (List.map DictEntry.slot) =
      bs.map (List.map DictEntry.slot) := by
  induction bs generalizing data with
  | nil => rfl
  | cons es bs ih => simp [applyBuckets, ih]

/-- `dict_apply_to_all`, returning the table with the rewritten values. -/
def dictApplyToAll (d : Dict κ ν) (func : κ → ν → σ → ν × σ) (data : σ) : Dict κ ν × σ :=
  let applied := applyBuckets func d.buckets data
  ({ buckets := applied.1
     key2hash := d.key2hash
     keyCmp := d.keyCmp
     size := by
      have h := congrArg List.length (slot_applyBuckets func d.buckets data)
      simpa [d.size] using h
     placed := placed_of_slots (slot_applyBuckets func d.buckets data) d.placed },
   applied.2)

/-! ## Lookups -/

/-- Only the chain of the key can hold an entry that passes the lookup's tests. -/
theorem Dict.bucket_of_same {d : Dict κ ν} {key : κ} {i : Nat} {es : List (DictEntry κ ν)}
    (hes : d.buckets[i]? = some es) {e : DictEntry κ ν} (he : e ∈ es)
    (hs : d.same key e = true) : i = d.bucketpos key := by
  obtain ⟨_, hi⟩ := d.placed i es hes e he
  simp only [Dict.same, Bool.and_eq_true, beq_iff_eq] at hs
  rw [← hi, ← hs.1, Dict.bucketpos]

private theorem find?_flatten_eq {p : DictEntry κ ν → Bool} {bs : List (List (DictEntry κ ν))}
    {pos : Nat} (h : ∀ i es, bs[i]? = some es → ∀ e ∈ es, p e = true → i = pos) :
    bs.flatten.find? p = (bs.getD pos []).find? p := by
  induction bs generalizing pos with
  | nil => rfl
  | cons es bs ih =>
    rw [List.flatten_cons, List.find?_append]
    cases pos with
    | zero =>
      have hrest : bs.flatten.find? p = none := by
        rw [List.find?_eq_none]
        intro e he hp
        obtain ⟨es', hes', hmem⟩ := List.mem_flatten.mp he
        obtain ⟨i, hi⟩ := List.mem_iff_getElem?.mp hes'
        exact absurd (h (i + 1) es' (by simpa using hi) e hmem hp) (by omega)
      rw [hrest, Option.or_none]
      rfl
    | succ pos =>
      have hfirst : es.find? p = none := by
        rw [List.find?_eq_none]
        intro e he hp
        exact absurd (h 0 es rfl e he hp) (by omega)
      rw [hfirst, Option.none_or, ih, List.getD_cons_succ]
      intro i es' hes' e he hp
      have := h (i + 1) es' (by simpa using hes') e he hp
      omega

/-- Walking one chain finds the same entry as searching the whole table. -/
theorem dictFindEntry_eq_find? (d : Dict κ ν) (key : κ) :
    dictFindEntry d key = (d.entries.find? (d.same key)).map (·.value) := by
  rw [dictFindEntry, Dict.chain, Dict.entries,
    find?_flatten_eq fun i es hes e he hs => Dict.bucket_of_same hes he hs]

/-- The comparison of a table is exact: zero precisely on equal keys. -/
def Dict.Exact (d : Dict κ ν) : Prop := ∀ k k', d.keyCmp k k' = 0 ↔ k = k'

/-- With an exact comparison, the tests of the lookup loop single out the key itself. -/
theorem Dict.same_iff {d : Dict κ ν} (hd : d.Exact) {key : κ} {e : DictEntry κ ν}
    (he : e ∈ d.entries) : d.same key e = true ↔ key = e.key := by
  obtain ⟨es, hes, hmem⟩ := List.mem_flatten.mp he
  obtain ⟨i, hi⟩ := List.mem_iff_getElem?.mp hes
  have hhash := (d.placed i es hi e hmem).1
  simp only [Dict.same, Bool.and_eq_true, beq_iff_eq, hd key e.key, hhash]
  exact ⟨And.right, fun h => ⟨congrArg d.key2hash h, h⟩⟩

/-- A value found is that of an entry with the key. -/
theorem dictFindEntry_eq_some {d : Dict κ ν} (hd : d.Exact) {key : κ} {v : ν}
    (h : dictFindEntry d key = some v) : ∃ e ∈ d.entries, e.key = key ∧ e.value = v := by
  rw [dictFindEntry_eq_find?, Option.map_eq_some_iff] at h
  obtain ⟨e, he, rfl⟩ := h
  have hmem := List.mem_of_find?_eq_some he
  exact ⟨e, hmem, ((Dict.same_iff hd hmem).mp (List.find?_some he)).symm, rfl⟩

/-- Nothing is found exactly if no entry has the key. -/
theorem dictFindEntry_eq_none_iff {d : Dict κ ν} (hd : d.Exact) {key : κ} :
    dictFindEntry d key = none ↔ ∀ e ∈ d.entries, e.key ≠ key := by
  rw [dictFindEntry_eq_find?, Option.map_eq_none_iff, List.find?_eq_none]
  constructor
  · intro h e he hk
    exact h e he ((Dict.same_iff hd he).mpr hk.symm)
  · intro h e he hs
    exact h e he ((Dict.same_iff hd he).mp hs).symm

/-- Nothing is found in a new table. -/
@[simp] theorem dictFindEntry_dictInit (key2hash : κ → BitVec 32)
    (keyCmp : κ → κ → BitVec 32) (key : κ) :
    dictFindEntry (dictInit key2hash keyCmp : Dict κ ν) key = none := by
  rw [dictFindEntry_eq_find?]
  simp [Dict.entries, dictInit]

/-- A new table has no entries. -/
@[simp] theorem entries_dictInit (key2hash : κ → BitVec 32) (keyCmp : κ → κ → BitVec 32) :
    (dictInit key2hash keyCmp : Dict κ ν).entries = [] := by
  simp [Dict.entries, dictInit]

/-! ## Lookups after a change of the table -/

/-- The chain of a key after another entry was appended to some chain. -/
theorem chain_dictEnter (d : Dict κ ν) (key : κ) (value : ν) (key' : κ) :
    (dictEnter d key value).chain key' =
      if d.bucketpos key = d.bucketpos key' then
        d.chain key' ++ [⟨d.key2hash key, key, value⟩] else d.chain key' := by
  have hpos : d.bucketpos key' < d.buckets.length := by
    rw [d.size]
    exact Nat.mod_lt _ (by decide)
  change (d.buckets.modify _ _).getD (d.bucketpos key') [] = _
  simp only [Dict.chain, List.getD_eq_getElem?_getD, List.getElem?_modify, Option.map_eq_map,
    List.getElem?_eq_getElem hpos, Option.map_some, Option.getD_some]

/-- Keys that compare equal have equal hashes. -/
def Dict.Compatible (d : Dict κ ν) : Prop :=
  ∀ k k', d.keyCmp k k' = 0 → d.key2hash k = d.key2hash k'

/-- An exact comparison goes with every hash. -/
theorem Dict.Exact.compatible {d : Dict κ ν} (hd : d.Exact) : d.Compatible :=
  fun k k' h => congrArg d.key2hash ((hd k k').mp h)

/-- A lookup after `dict_enter`: entries already present come first in their chain. -/
theorem dictFindEntry_dictEnter_of_compatible {d : Dict κ ν} (hd : d.Compatible) (key : κ)
    (value : ν) (key' : κ) :
    dictFindEntry (dictEnter d key value) key' =
      (dictFindEntry d key').or (if d.keyCmp key' key = 0 then some value else none) := by
  have hsame : (dictEnter d key value).same key' = d.same key' := rfl
  rw [dictFindEntry, hsame, chain_dictEnter]
  by_cases hpos : d.bucketpos key = d.bucketpos key'
  · rw [if_pos hpos, List.find?_append, Option.map_or]
    congr 1
    by_cases hk : d.keyCmp key' key = 0
    · simp [Dict.same, hk, hd key' key hk]
    · have hs : d.same key' ⟨d.key2hash key, key, value⟩ = false := by
        simp only [Dict.same, beq_eq_false_iff_ne.mpr hk, Bool.and_false]
      simp only [List.find?_singleton, hs, hk, if_false, Bool.false_eq_true, Option.map_none]
  · have hk : d.keyCmp key' key ≠ 0 := fun h =>
      hpos (by rw [Dict.bucketpos, Dict.bucketpos, hd key' key h])
    rw [if_neg hpos, if_neg hk, Option.or_none]
    rfl

/-- With an exact comparison the new entry answers to its own key alone. -/
theorem dictFindEntry_dictEnter {d : Dict κ ν} [DecidableEq κ] (hd : d.Exact) (key : κ)
    (value : ν) (key' : κ) :
    dictFindEntry (dictEnter d key value) key' =
      (dictFindEntry d key').or (if key' = key then some value else none) := by
  rw [dictFindEntry_dictEnter_of_compatible hd.compatible]
  simp only [hd key' key]

private theorem perm_flatten_modify {es : List (List (DictEntry κ ν))} {i : Nat}
    (hi : i < es.length) (e : DictEntry κ ν) :
    (es.modify i (· ++ [e])).flatten.Perm (e :: es.flatten) := by
  induction es generalizing i with
  | nil => simp at hi
  | cons bs es ih =>
    cases i with
    | zero =>
      simp only [List.modify_zero_cons, List.flatten_cons, List.append_assoc,
        List.singleton_append]
      exact List.perm_middle
    | succ i =>
      simp only [List.modify_succ_cons, List.flatten_cons]
      exact ((ih (by simpa using hi)).append_left bs).trans List.perm_middle

/-- `dict_enter` adds one entry to the table. -/
theorem entries_dictEnter_perm (d : Dict κ ν) (key : κ) (value : ν) :
    (dictEnter d key value).entries.Perm (⟨d.key2hash key, key, value⟩ :: d.entries) :=
  perm_flatten_modify (by rw [d.size]; exact Nat.mod_lt _ (by decide)) _

/-- The chain of a key after a write through the pointer to another key's value. -/
theorem chain_dictUpdate (d : Dict κ ν) (key : κ) (f : ν → ν) (key' : κ) :
    (dictUpdate d key f).chain key' =
      if d.bucketpos key = d.bucketpos key' then updateFirst (d.same key) f (d.chain key')
      else d.chain key' := by
  have hpos : d.bucketpos key' < d.buckets.length := by
    rw [d.size]
    exact Nat.mod_lt _ (by decide)
  change (d.buckets.modify _ _).getD (d.bucketpos key') [] = _
  simp only [Dict.chain, List.getD_eq_getElem?_getD, List.getElem?_modify, Option.map_eq_map,
    List.getElem?_eq_getElem hpos, Option.map_some, Option.getD_some]

private theorem find?_updateFirst_self {q : DictEntry κ ν → Bool} {f : ν → ν}
    (hq : ∀ e v, q { e with value := v } = q e) (es : List (DictEntry κ ν)) :
    (updateFirst q f es).find? q = (es.find? q).map fun e => { e with value := f e.value } := by
  induction es with
  | nil => rfl
  | cons e es ih => by_cases h : q e = true <;> simp [updateFirst, h, hq, ih]

private theorem find?_updateFirst_ne {p q : DictEntry κ ν → Bool} {f : ν → ν}
    (hp : ∀ e v, p { e with value := v } = p e) (hne : ∀ e, q e = true → p e = false)
    (es : List (DictEntry κ ν)) : (updateFirst q f es).find? p = es.find? p := by
  induction es with
  | nil => rfl
  | cons e es ih =>
    by_cases h : q e = true
    · simp [updateFirst, h, hp, hne e h]
    · by_cases hpe : p e = true <;> simp [updateFirst, h, hpe, ih]

/-- A lookup after a write through the pointer a lookup returned. -/
theorem dictFindEntry_dictUpdate {d : Dict κ ν} [DecidableEq κ] (hd : d.Exact) (key : κ)
    (f : ν → ν) (key' : κ) :
    dictFindEntry (dictUpdate d key f) key' =
      if key' = key then (dictFindEntry d key').map f else dictFindEntry d key' := by
  have hsame : (dictUpdate d key f).same key' = d.same key' := rfl
  have hvalue : ∀ (k : κ) (e : DictEntry κ ν) v, d.same k { e with value := v } = d.same k e :=
    fun _ _ _ => rfl
  rw [dictFindEntry, hsame, chain_dictUpdate]
  by_cases hk : key' = key
  · subst hk
    rw [if_pos rfl, if_pos rfl, find?_updateFirst_self (hvalue key')]
    simp [dictFindEntry, Function.comp_def]
  · have hne : ∀ e, d.same key e = true → d.same key' e = false := by
      intro e he
      simp only [Dict.same, Bool.and_eq_true, beq_iff_eq, hd key e.key] at he
      have hcmp : d.keyCmp key' e.key ≠ 0 := (hd key' e.key).not.mpr (he.2 ▸ hk)
      simp only [Dict.same, beq_eq_false_iff_ne.mpr hcmp, Bool.and_false]
    have hrest := find?_updateFirst_ne (f := f) (hvalue key') hne (d.chain key')
    rw [if_neg hk, dictFindEntry]
    split
    · rw [hrest]
    · rfl

private theorem mem_updateFirst {q : DictEntry κ ν → Bool} {f : ν → ν}
    {es : List (DictEntry κ ν)} {e : DictEntry κ ν} (he : e ∈ updateFirst q f es) :
    ∃ e₀ ∈ es, e = e₀ ∨ e = { e₀ with value := f e₀.value } := by
  induction es with
  | nil => simp [updateFirst] at he
  | cons c es ih =>
    by_cases h : q c = true
    · simp only [updateFirst, h, if_true, List.mem_cons] at he
      rcases he with rfl | he
      · exact ⟨c, List.mem_cons_self .., Or.inr rfl⟩
      · exact ⟨e, List.mem_cons_of_mem _ he, Or.inl rfl⟩
    · simp only [updateFirst, h, Bool.false_eq_true, if_false, List.mem_cons] at he
      rcases he with rfl | he
      · exact ⟨e, List.mem_cons_self .., Or.inl rfl⟩
      · obtain ⟨e₀, he₀, hcase⟩ := ih he
        exact ⟨e₀, List.mem_cons_of_mem _ he₀, hcase⟩

/-- Every entry after a write through a pointer is an old one, or an old one rewritten. -/
theorem mem_entries_dictUpdate {d : Dict κ ν} {key : κ} {f : ν → ν} {e : DictEntry κ ν}
    (he : e ∈ (dictUpdate d key f).entries) :
    ∃ e₀ ∈ d.entries, e = e₀ ∨ e = { e₀ with value := f e₀.value } := by
  obtain ⟨es', hes', hmem⟩ := List.mem_flatten.mp he
  obtain ⟨i, hi⟩ := List.mem_iff_getElem?.mp hes'
  change (d.buckets.modify _ _)[i]? = some es' at hi
  rw [List.getElem?_modify, Option.map_eq_map, Option.map_eq_some_iff] at hi
  obtain ⟨es, hes, rfl⟩ := hi
  have hin : es ∈ d.buckets := List.mem_of_getElem? hes
  by_cases hpos : d.bucketpos key = i
  · rw [if_pos hpos] at hmem
    obtain ⟨e₀, he₀, hcase⟩ := mem_updateFirst hmem
    exact ⟨e₀, List.mem_flatten.mpr ⟨es, hin, he₀⟩, hcase⟩
  · rw [if_neg hpos] at hmem
    exact ⟨e, List.mem_flatten.mpr ⟨es, hin, hmem⟩, Or.inl rfl⟩

/-- Writes through pointers keep the keys of the table. -/
theorem keys_of_slots {es es' : List (DictEntry κ ν)}
    (h : es'.map DictEntry.slot = es.map DictEntry.slot) :
    es'.map (·.key) = es.map (·.key) := by
  have hk := congrArg (List.map Prod.snd) h
  simpa only [List.map_map, Function.comp_def, DictEntry.slot] using hk

/-- Updating keeps the keys. -/
theorem keys_dictUpdate (d : Dict κ ν) (key : κ) (f : ν → ν) :
    (dictUpdate d key f).entries.map (·.key) = d.entries.map (·.key) := by
  refine keys_of_slots ?_
  have hbuckets : (dictUpdate d key f).buckets.map (List.map DictEntry.slot) =
      d.buckets.map (List.map DictEntry.slot) := by
    apply List.ext_getElem?
    intro i
    change ((d.buckets.modify _ _).map _)[i]? = _
    rw [List.getElem?_map, List.getElem?_modify, List.getElem?_map]
    by_cases hi : d.bucketpos key = i
    · simp [hi, Function.comp_def]
    · simp [hi]
  rw [Dict.entries, Dict.entries, List.map_flatten, List.map_flatten, hbuckets]

/-! ## Visiting every entry -/

private theorem applyChain_append (func : κ → ν → σ → ν × σ) (es es' : List (DictEntry κ ν))
    (data : σ) :
    applyChain func (es ++ es') data =
      ((applyChain func es data).1 ++ (applyChain func es' (applyChain func es data).2).1,
        (applyChain func es' (applyChain func es data).2).2) := by
  induction es generalizing data with
  | nil => rfl
  | cons e es ih => simp only [List.cons_append, applyChain, ih]

/-- Visiting the chains one after another visits the list of all entries. -/
theorem applyBuckets_flatten (func : κ → ν → σ → ν × σ) (bs : List (List (DictEntry κ ν)))
    (data : σ) :
    ((applyBuckets func bs data).1.flatten, (applyBuckets func bs data).2) =
      applyChain func bs.flatten data := by
  induction bs generalizing data with
  | nil => rfl
  | cons es bs ih =>
    have h := ih (applyChain func es data).2
    simp only [Prod.ext_iff] at h
    rw [List.flatten_cons, applyChain_append, ← h.1, ← h.2]
    rfl

private theorem mem_applyChain {func : κ → ν → σ → ν × σ} {es : List (DictEntry κ ν)} {data : σ}
    {e : DictEntry κ ν} (he : e ∈ (applyChain func es data).1) :
    ∃ e₀ ∈ es, ∃ data', e = { e₀ with value := (func e₀.key e₀.value data').1 } := by
  induction es generalizing data with
  | nil => simp [applyChain] at he
  | cons c es ih =>
    simp only [applyChain, List.mem_cons] at he
    rcases he with rfl | he
    · exact ⟨c, List.mem_cons_self .., data, rfl⟩
    · obtain ⟨e₀, he₀, data', hcase⟩ := ih he
      exact ⟨e₀, List.mem_cons_of_mem _ he₀, data', hcase⟩

/-- Every entry after a visit is an old one with the value some call of the callback left. -/
theorem mem_entries_dictApplyToAll {d : Dict κ ν} {func : κ → ν → σ → ν × σ} {data : σ}
    {e : DictEntry κ ν} (he : e ∈ (dictApplyToAll d func data).1.entries) :
    ∃ e₀ ∈ d.entries, ∃ data', e = { e₀ with value := (func e₀.key e₀.value data').1 } := by
  have hflat : (dictApplyToAll d func data).1.entries = (applyChain func d.entries data).1 :=
    congrArg Prod.fst (applyBuckets_flatten func d.buckets data)
  rw [hflat] at he
  exact mem_applyChain he

/-- A visit whose callback only touches the cell of the entry's key, with every key
listed once, rewrites every value by its own cell and every cell by its own entry. -/
theorem applyChain_cellwise {β : Type*} [DecidableEq κ] {func : κ → ν → (κ → β) → ν × (κ → β)}
    {value : ν → β → ν} {cell : ν → β → β} (es : List (DictEntry κ ν)) (data : κ → β)
    (hfunc : ∀ e ∈ es, ∀ m, func e.key e.value m =
      (value e.value (m e.key), Function.update m e.key (cell e.value (m e.key))))
    (hdistinct : (es.map (·.key)).Nodup) :
    applyChain func es data =
      (es.map fun e => { e with value := value e.value (data e.key) },
        fun k => (es.find? (fun e => e.key = k)).elim (data k) fun e => cell e.value (data k)) := by
  induction es generalizing data with
  | nil => rfl
  | cons e es ih =>
    have hnot : ∀ e' ∈ es, e'.key ≠ e.key := fun e' he' he =>
      (List.nodup_cons.mp hdistinct).1 (List.mem_map.mpr ⟨e', he', he⟩)
    have htail := ih (Function.update data e.key (cell e.value (data e.key)))
      (fun e' he' => hfunc e' (List.mem_cons_of_mem _ he')) (List.nodup_cons.mp hdistinct).2
    rw [applyChain, hfunc e (List.mem_cons_self ..) data, htail]
    refine Prod.ext ?_ ?_
    · simp only [List.map_cons, List.cons.injEq, true_and]
      apply List.map_congr_left
      intro e' he'
      rw [Function.update_of_ne (hnot e' he')]
    · funext k
      by_cases hk : e.key = k
      · subst hk
        have hnone : es.find? (fun e' => e'.key = e.key) = none := by
          rw [List.find?_eq_none]
          intro e' he'
          simpa using hnot e' he'
        simp [hnone]
      · have hk' : k ≠ e.key := Ne.symm hk
        simp [hk, hk']

/-- With an exact comparison a lookup searches the entries for the key itself. -/
theorem dictFindEntry_eq_find?_key {d : Dict κ ν} [DecidableEq κ] (hd : d.Exact) (key : κ) :
    dictFindEntry d key = (d.entries.find? (fun e => e.key = key)).map (·.value) := by
  rw [dictFindEntry_eq_find?]
  congr 1
  have hcongr : ∀ es : List (DictEntry κ ν), (∀ e ∈ es, e ∈ d.entries) →
      es.find? (d.same key) = es.find? (fun e => e.key = key) := by
    intro es hes
    induction es with
    | nil => rfl
    | cons e es ih =>
      have hrest := ih fun e' he' => hes e' (List.mem_cons_of_mem _ he')
      have hiff : d.same key e = true ↔ key = e.key :=
        Dict.same_iff hd (hes e (List.mem_cons_self ..))
      by_cases hk : e.key = key
      · simp [hiff.mpr hk.symm, hk]
      · have hs : d.same key e = false := by
          rw [Bool.eq_false_iff]
          exact fun h => hk (hiff.mp h).symm
        simp [hs, hk, hrest]
  exact hcongr d.entries fun _ he => he

/-- Visiting all entries keeps their slots. -/
theorem slots_dictApplyToAll (d : Dict κ ν) (func : κ → ν → σ → ν × σ) (data : σ) :
    (dictApplyToAll d func data).1.entries.map DictEntry.slot = d.entries.map DictEntry.slot := by
  have hflat : (dictApplyToAll d func data).1.entries = (applyChain func d.entries data).1 :=
    congrArg Prod.fst (applyBuckets_flatten func d.buckets data)
  rw [hflat, slot_applyChain]

/-- `dict_apply_to_all` with a callback that only touches the cell of the entry's key: a
lookup finds the value rewritten by its own cell, and every cell is changed by the entry a
lookup of it finds. -/
theorem dictApplyToAll_cellwise {β : Type*} [DecidableEq κ] {d : Dict κ ν} (hd : d.Exact)
    (hdistinct : (d.entries.map (·.key)).Nodup) (func : κ → ν → (κ → β) → ν × (κ → β))
    (value : ν → β → ν) (cell : ν → β → β) (data : κ → β)
    (hfunc : ∀ e ∈ d.entries, ∀ m, func e.key e.value m =
      (value e.value (m e.key), Function.update m e.key (cell e.value (m e.key)))) :
    (dictApplyToAll d func data).1.entries =
        d.entries.map (fun e => { e with value := value e.value (data e.key) }) ∧
      (∀ k, dictFindEntry (dictApplyToAll d func data).1 k =
        (dictFindEntry d k).map fun v => value v (data k)) ∧
      ∀ k, (dictApplyToAll d func data).2 k =
        (dictFindEntry d k).elim (data k) fun v => cell v (data k) := by
  have hchain := applyChain_cellwise d.entries data hfunc hdistinct
  have hflat := applyBuckets_flatten func d.buckets data
  have hentries : (dictApplyToAll d func data).1.entries =
      d.entries.map (fun e => { e with value := value e.value (data e.key) }) :=
    (congrArg Prod.fst hflat).trans (congrArg Prod.fst hchain)
  have hdata : (dictApplyToAll d func data).2 = _ :=
    (congrArg Prod.snd hflat).trans (congrArg Prod.snd hchain)
  refine ⟨hentries, ?_, ?_⟩
  · intro k
    have hexact : (dictApplyToAll d func data).1.Exact := hd
    rw [dictFindEntry_eq_find?_key hexact, dictFindEntry_eq_find?_key hd, hentries,
      List.find?_map, Option.map_map, Option.map_map]
    have hcomp : ((fun e : DictEntry κ ν => decide (e.key = k)) ∘
        fun e : DictEntry κ ν => { e with value := value e.value (data e.key) }) =
        fun e => decide (e.key = k) := rfl
    rw [hcomp]
    cases he : d.entries.find? (fun e => e.key = k) with
    | none => rfl
    | some e =>
      have hk : e.key = k := by simpa using List.find?_some he
      simp [hk]
  · intro k
    rw [hdata, dictFindEntry_eq_find?_key hd]
    cases he : d.entries.find? (fun e => e.key = k) <;> simp [he]

end Utrace
