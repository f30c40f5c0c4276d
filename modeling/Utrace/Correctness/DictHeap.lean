import Utrace.Native.DictHeap

/-!
# Tables in one heap

Any number of tables are made, filled and cleared in any order. As long as `malloc` returns
addresses not in use, the chains of all tables stay linked lists without a common node: no call
fails, every lookup and every visit finds what `Dict.lean` says, and `dict_clear` frees what its
table holds and nothing else.
-/

namespace Utrace

variable {ρ κ ν σ : Type*}

/-! ## Tables and the addresses they own -/

/-- A table, with the addresses of the entries in each chain. -/
structure Shelved (ρ κ ν : Type*) where
  dict : Dict κ ν
  chains : Nat → List ρ := fun _ => []

/-- The tables in use, by the addresses of their blocks. -/
abbrev Shelf (ρ κ ν : Type*) := ρ → Option (Shelved ρ κ ν)

namespace Shelved

/-- The addresses of the entries. -/
def addrs (t : Shelved ρ κ ν) : List ρ := (List.range dictTableSize).flatMap t.chains

/-- A fresh table. -/
def init (key2hash : κ → BitVec 32) (keyCmp : κ → κ → BitVec 32) : Shelved ρ κ ν :=
  { dict := Utrace.dictInit key2hash keyCmp }

/-- The table with one more entry, at an address. -/
def enter (t : Shelved ρ κ ν) (newentry : ρ) (key : κ) (value : ν) : Shelved ρ κ ν where
  dict := Utrace.dictEnter t.dict key value
  chains := Function.update t.chains (t.dict.bucketpos key)
    (t.chains (t.dict.bucketpos key) ++ [newentry])

end Shelved

/-- No table owns the address. -/
def Shelf.Unowned (s : Shelf ρ κ ν) (p : ρ) : Prop := ∀ d t, s d = some t → p ∉ t.addrs

/-- Calls for tables in use, with addresses from `malloc` that are not. -/
inductive Shelf.Calls [DecidableEq ρ] : List (DictHeap.Op ρ κ ν) → Shelf ρ κ ν → Prop
  | start : Calls [] fun _ => none
  | init {ops : List (DictHeap.Op ρ κ ν)} {s : Shelf ρ κ ν} (h : Calls ops s) {d : ρ}
      (hd : s d = none) (buckets : Nat → Option ρ) (key2hash : κ → BitVec 32)
      (keyCmp : κ → κ → BitVec 32) :
      Calls (ops ++ [.init d buckets key2hash keyCmp])
        (Function.update s d (some (.init key2hash keyCmp)))
  | enter {ops : List (DictHeap.Op ρ κ ν)} {s : Shelf ρ κ ν} (h : Calls ops s) {d : ρ}
      {t : Shelved ρ κ ν} (hd : s d = some t) {newentry : ρ} (hp : s.Unowned newentry) (key : κ)
      (value : ν) :
      Calls (ops ++ [.enter d newentry key value])
        (Function.update s d (some (t.enter newentry key value)))
  | clear {ops : List (DictHeap.Op ρ κ ν)} {s : Shelf ρ κ ν} (h : Calls ops s) {d : ρ}
      {t : Shelved ρ κ ν} (hd : s d = some t) :
      Calls (ops ++ [.clear d]) (Function.update s d none)

/-! ## The heap -/

/-- What `dict_enter` stored in a node. -/
def DictNode.entry (n : DictNode ρ κ ν) : DictEntry κ ν := ⟨n.hash, n.key, n.value⟩

/-- A chain of the table is a linked list of its entries at their addresses. -/
def Shelved.Chained (t : Shelved ρ κ ν) (entries : ρ → Option (DictNode ρ κ ν))
    (link : Option ρ) (i : Nat) (nodes : List (ρ × DictNode ρ κ ν)) : Prop :=
  Linked DictNode.next entries link nodes ∧ nodes.map Prod.fst = t.chains i ∧
    nodes.map (fun n => n.2.entry) = t.dict.buckets.getD i []

/-- The block of the table: all its chains are there. -/
structure Shelved.Stored (t : Shelved ρ κ ν) (entries : ρ → Option (DictNode ρ κ ν))
    (b : DictBlock ρ κ) : Prop where
  key2hash : b.key2hash = t.dict.key2hash
  keyCmp : b.keyCmp = t.dict.keyCmp
  chain : ∀ i < dictTableSize, ∃ nodes, t.Chained entries (b.buckets i) i nodes

/-- The heap holds the blocks of the tables, each owned by one of them, and no other. -/
structure Shelf.Represented (s : Shelf ρ κ ν) (h : DictHeap ρ κ ν) : Prop where
  free : ∀ d, s d = none → h.dicts d = none
  stored : ∀ d t, s d = some t → ∃ b, h.dicts d = some b ∧ t.Stored h.entries b
  owned : ∀ p, h.entries p ≠ none ↔ ∃ d t, s d = some t ∧ p ∈ t.addrs
  nodup : ∀ d t, s d = some t → t.addrs.Nodup
  disjoint : ∀ d d' t t', s d = some t → s d' = some t' → d ≠ d' → t.addrs.Disjoint t'.addrs

variable {s : Shelf ρ κ ν} {h : DictHeap ρ κ ν} {t : Shelved ρ κ ν} {d p : ρ}
  {entries entries' : ρ → Option (DictNode ρ κ ν)} {b : DictBlock ρ κ}

/-! ## Addresses -/

/-- The records of a chain are among those of the table. -/
theorem Shelved.mem_addrs {i : Nat} (hi : i < dictTableSize) (hp : p ∈ t.chains i) :
    p ∈ t.addrs :=
  List.mem_flatMap.mpr ⟨i, List.mem_range.mpr hi, hp⟩

/-- Something added at the end of one of several lists. -/
theorem flatMap_update_perm {is : List Nat} {f : Nat → List ρ} {i : Nat} (hi : i ∈ is)
    (hnodup : is.Nodup) (p : ρ) :
    (is.flatMap (Function.update f i (f i ++ [p]))).Perm (p :: is.flatMap f) := by
  induction is with
  | nil => cases hi
  | cons j js ih =>
    rw [List.nodup_cons] at hnodup
    rw [List.flatMap_cons, List.flatMap_cons]
    by_cases hj : j = i
    · subst hj
      have hrest : js.flatMap (Function.update f j (f j ++ [p])) = js.flatMap f := by
        apply List.flatMap_congr
        intro k hk
        rw [Function.update_of_ne]
        rintro rfl
        exact hnodup.1 hk
      rw [Function.update_self, hrest, List.append_assoc]
      exact List.perm_middle
    · rw [Function.update_of_ne hj]
      have hmem : i ∈ js := (List.mem_cons.mp hi).resolve_left (Ne.symm hj)
      exact ((ih hmem hnodup.2).append_left (f j)).trans List.perm_middle

/-- A bucket is inside the table. -/
theorem Dict.bucketpos_lt (d : Dict κ ν) (key : κ) : d.bucketpos key < dictTableSize :=
  Nat.mod_lt _ (Nat.succ_pos _)

/-- Entering adds the new record. -/
theorem Shelved.addrs_enter_perm (t : Shelved ρ κ ν) (p : ρ) (key : κ) (value : ν) :
    (t.enter p key value).addrs.Perm (p :: t.addrs) :=
  flatMap_update_perm (List.mem_range.mpr (t.dict.bucketpos_lt key)) List.nodup_range p

/-! ## One table -/

/-- The chains only depend on their own nodes. -/
theorem Shelved.Stored.congr (hs : t.Stored entries b)
    (heq : ∀ p ∈ t.addrs, entries' p = entries p) : t.Stored entries' b := by
  refine ⟨hs.key2hash, hs.keyCmp, fun i hi => ?_⟩
  obtain ⟨nodes, hlinked, haddrs, hentries⟩ := hs.chain i hi
  refine ⟨nodes, hlinked.congr fun p hp => heq p ?_, haddrs, hentries⟩
  rw [haddrs] at hp
  exact mem_addrs hi hp

/-- The loop that clears the buckets clears each. -/
theorem clearBuckets_eq_none (buckets : Nat → Option ρ) {i : Nat} (hi : i < dictTableSize) :
    DictHeap.clearBuckets buckets i = none := by
  have hfold : ∀ (is : List Nat) (buckets : Nat → Option ρ), i ∈ is ∨ buckets i = none →
      is.foldl (fun buckets i => Function.update buckets i none) buckets i = none := by
    intro is
    induction is with
    | nil => exact fun buckets hor => hor.resolve_left List.not_mem_nil
    | cons j is ih =>
      intro buckets hor
      rw [List.foldl_cons]
      apply ih
      by_cases hij : i = j
      · subst hij
        exact Or.inr (Function.update_self ..)
      · rw [Function.update_of_ne hij]
        rw [List.mem_cons] at hor
        rcases hor with (heq | hmem) | hnone
        · exact absurd heq hij
        · exact Or.inl hmem
        · exact Or.inr hnone
  exact hfold _ _ (Or.inl (List.mem_range.mpr hi))

/-- A new table is stored. -/
theorem stored_init (buckets : Nat → Option ρ) (key2hash : κ → BitVec 32)
    (keyCmp : κ → κ → BitVec 32) : (Shelved.init key2hash keyCmp : Shelved ρ κ ν).Stored entries
      { buckets := DictHeap.clearBuckets buckets, key2hash := key2hash, keyCmp := keyCmp } := by
  constructor
  · rfl
  · rfl
  · intro i hi
    have hchain : (Utrace.dictInit key2hash keyCmp : Dict κ ν).buckets.getD i [] = [] := by
      change (List.replicate dictTableSize []).getD i [] = []
      rw [List.getD_eq_getElem?_getD, List.getElem?_replicate, if_pos hi, Option.getD_some]
    have hnone := clearBuckets_eq_none buckets hi
    refine ⟨[], ?_, rfl, List.map_nil.trans hchain.symm⟩
    dsimp only
    rw [hnone]
    rfl

/-- An address belongs to one chain only. -/
theorem Shelved.chain_unique (hnodup : t.addrs.Nodup) {i j : Nat} (hi : i < dictTableSize)
    (hj : j < dictTableSize) (hp : p ∈ t.chains i) (hp' : p ∈ t.chains j) : i = j := by
  obtain ⟨_, hpairwise⟩ := List.nodup_flatMap.mp hnodup
  have hless : ∀ i j, j < dictTableSize → i < j → (t.chains i).Disjoint (t.chains j) := by
    intro i j hj hij
    have hi : i < (List.range dictTableSize).length := by
      rw [List.length_range]
      exact Nat.lt_trans hij hj
    have hj : j < (List.range dictTableSize).length := by rwa [List.length_range]
    have hdisjoint : (t.chains (List.range dictTableSize)[i]).Disjoint
        (t.chains (List.range dictTableSize)[j]) :=
      List.pairwise_iff_getElem.mp hpairwise i j hi hj hij
    rwa [List.getElem_range, List.getElem_range] at hdisjoint
  rcases Nat.lt_trichotomy i j with hij | hij | hij
  · exact absurd hp' (hless i j hj hij hp)
  · exact hij
  · exact absurd hp (hless j i hi hij hp')

/-- The chains after `dict_enter`. -/
theorem buckets_dictEnter (d : Dict κ ν) (key : κ) (value : ν) {i : Nat} (hi : i < dictTableSize) :
    (Utrace.dictEnter d key value).buckets.getD i [] =
      if i = d.bucketpos key then d.buckets.getD i [] ++ [⟨d.key2hash key, key, value⟩]
      else d.buckets.getD i [] := by
  change (d.buckets.modify (d.bucketpos key) _).getD i [] = _
  rw [List.getD_eq_getElem?_getD, List.getD_eq_getElem?_getD, List.getElem?_modify,
    List.getElem?_eq_getElem (lt_of_lt_of_eq hi d.size.symm)]
  simp only [Option.map_eq_map, Option.map_some, Option.getD_some, eq_comm (a := i)]

/-- The chain of the key has one more entry, and the others are as they were. -/
theorem Shelved.Stored.enter (hs : t.Stored entries b) {key : κ} {value : ν}
    {b' : DictBlock ρ κ} (hkey2hash : b'.key2hash = b.key2hash) (hkeyCmp : b'.keyCmp = b.keyCmp)
    (hbuckets : ∀ i, i ≠ t.dict.bucketpos key → b'.buckets i = b.buckets i)
    (hothers : ∀ i < dictTableSize, i ≠ t.dict.bucketpos key → ∀ q ∈ t.chains i,
      entries' q = entries q)
    (hchain : ∃ nodes, (t.enter p key value).Chained entries' (b'.buckets (t.dict.bucketpos key))
      (t.dict.bucketpos key) nodes) :
    (t.enter p key value).Stored entries' b' := by
  refine ⟨hkey2hash.trans hs.key2hash, hkeyCmp.trans hs.keyCmp, fun i hi => ?_⟩
  by_cases hpos : i = t.dict.bucketpos key
  · rw [hpos]
    exact hchain
  · obtain ⟨nodes, hlinked, haddrs, hentries⟩ := hs.chain i hi
    refine ⟨nodes, ?_, ?_, ?_⟩
    · rw [hbuckets i hpos]
      apply hlinked.congr
      rw [haddrs]
      exact hothers i hi hpos
    · exact haddrs.trans (Function.update_of_ne hpos ..).symm
    · change _ = (Utrace.dictEnter t.dict key value).buckets.getD i []
      rw [buckets_dictEnter _ _ _ hi, if_neg hpos, hentries]

variable [DecidableEq ρ]

/-- The last entry of the chain, if there is one, is linked to the new entry. -/
theorem stored_linkEntry (hs : t.Stored h.entries b) (hnodup : t.addrs.Nodup)
    (hb : h.dicts d = some b) (hp : p ∉ t.addrs) (key : κ) (value : ν)
    {nodes : List (ρ × DictNode ρ κ ν)}
    (hnodes : t.Chained h.entries (b.buckets (t.dict.bucketpos key)) (t.dict.bucketpos key) nodes)
    (hblock : h.entries p = some ⟨t.dict.key2hash key, key, value, none⟩) :
    ∃ h' b', h.linkEntry d b (t.dict.bucketpos key) p (nodes.getLast?.map Prod.fst) = some h' ∧
      h'.dicts = Function.update h.dicts d (some b') ∧
      (∀ q, q ∉ t.addrs → h'.entries q = h.entries q) ∧
      (∀ q, h'.entries q = none ↔ h.entries q = none) ∧
      (t.enter p key value).Stored h'.entries b' := by
  obtain ⟨hlinked, haddrs, hentries⟩ := hnodes
  have hpos := t.dict.bucketpos_lt key
  have hbucket := buckets_dictEnter t.dict key value hpos
  rw [if_pos rfl, ← hentries] at hbucket
  have hchain : (t.enter p key value).chains (t.dict.bucketpos key) =
      nodes.map Prod.fst ++ [p] := by
    rw [haddrs]
    exact Function.update_self ..
  rcases List.eq_nil_or_concat' nodes with rfl | ⟨front, n, rfl⟩
  · refine ⟨_, _, rfl, rfl, fun _ _ => rfl, fun _ => Iff.rfl, ?_⟩
    refine hs.enter rfl rfl (fun i hi => Function.update_of_ne hi ..) (fun _ _ _ _ _ => rfl)
      ⟨[(p, ⟨t.dict.key2hash key, key, value, none⟩)], ⟨?_, hblock, rfl⟩, hchain.symm, hbucket.symm⟩
    exact Function.update_self ..
  · have hlast : h.entries n.1 = some n.2 :=
      hlinked.mem (List.mem_append_right front (List.mem_singleton_self n))
    have hmem : n.1 ∈ t.chains (t.dict.bucketpos key) := by
      rw [← haddrs, List.map_append, List.mem_append]
      exact Or.inr (List.mem_singleton_self _)
    have hne : n.1 ≠ p := fun heq => hp (heq ▸ Shelved.mem_addrs hpos hmem)
    rw [List.getLast?_concat, Option.map_some, DictHeap.linkEntry, hlast, Option.map_some]
    refine ⟨_, b, rfl, ?_, fun q hq => ?_, fun q => ?_, ?_⟩
    · exact (Function.update_eq_self_iff.mpr hb.symm).symm
    · apply Function.update_of_ne
      rintro rfl
      exact hq (Shelved.mem_addrs hpos hmem)
    · by_cases hq : q = n.1
      · rw [hq, hlast]
        exact iff_of_false (by simp) (by simp)
      · exact iff_of_eq (congrArg (· = none) (Function.update_of_ne hq ..))
    · refine hs.enter rfl rfl (fun _ _ => rfl) (fun i hi hother q hq => ?_)
        ⟨front ++ (n.1, { n.2 with next := some p }) ::
          [(p, ⟨t.dict.key2hash key, key, value, none⟩)], ?_, ?_, ?_⟩
      · apply Function.update_of_ne
        rintro rfl
        exact hother (Shelved.chain_unique hnodup hi hpos hq hmem)
      · have hrest : Linked DictNode.next h.entries (some p)
            [(p, ⟨t.dict.key2hash key, key, value, none⟩)] := ⟨rfl, hblock, rfl⟩
        apply Linked.link_last hlinked hrest
        · rw [haddrs]
          exact (List.nodup_flatMap.mp hnodup).1 _ (List.mem_range.mpr hpos)
        · rw [List.map_singleton, List.mem_singleton]
          exact hne
      · rw [hchain]
        simp
      · refine Eq.trans ?_ hbucket.symm
        simp [DictNode.entry]

/-! ## One call -/

omit [DecidableEq ρ] in
/-- The records after an entry was made. -/
theorem Shelved.mem_addrs_enter {key : κ} {value : ν} {q : ρ} :
    q ∈ (t.enter p key value).addrs ↔ q = p ∨ q ∈ t.addrs := by
  rw [(t.addrs_enter_perm p key value).mem_iff, List.mem_cons]

/-- A table other than the one at `d` owns the address. -/
def Shelf.Elsewhere (s : Shelf ρ κ ν) (d q : ρ) : Prop :=
  ∃ d' t, d' ≠ d ∧ s d' = some t ∧ q ∈ t.addrs

namespace Shelf.Represented

omit [DecidableEq ρ] in
/-- A table shares no address with the others. -/
theorem not_elsewhere (hr : s.Represented h) (hd : s d = some t) (hp : p ∈ t.addrs) :
    ¬s.Elsewhere d p := by
  rintro ⟨d', t', hne, hd', hp'⟩
  exact hr.disjoint d d' t t' hd hd' hne.symm hp hp'

omit [DecidableEq ρ] in
/-- The blocks in use, split by owner. -/
theorem owned_iff (hr : s.Represented h) (hd : s d = some t) (q : ρ) :
    h.entries q ≠ none ↔ s.Elsewhere d q ∨ q ∈ t.addrs := by
  rw [hr.owned q]
  constructor
  · rintro ⟨d', t', hd', hq⟩
    by_cases heq : d' = d
    · rw [heq, hd] at hd'
      cases hd'
      exact Or.inr hq
    · exact Or.inl ⟨d', t', heq, hd', hq⟩
  · rintro (⟨d', t', _, hd', hq⟩ | hq)
    · exact ⟨d', t', hd', hq⟩
    · exact ⟨d, t, hd, hq⟩

/-- Another table, or none, takes the place of the one at `d`; the others do not notice. -/
theorem replace (hr : s.Represented h) {o : Option (Shelved ρ κ ν)} {h' : DictHeap ρ κ ν}
    (hdicts : ∀ d', d' ≠ d → h'.dicts d' = h.dicts d') (hfree : o = none → h'.dicts d = none)
    (hstored : ∀ t, o = some t → ∃ b, h'.dicts d = some b ∧ t.Stored h'.entries b)
    (hentries : ∀ q, s.Elsewhere d q → h'.entries q = h.entries q)
    (howned : ∀ q, h'.entries q ≠ none ↔ s.Elsewhere d q ∨ ∃ t, o = some t ∧ q ∈ t.addrs)
    (hnodup : ∀ t, o = some t → t.addrs.Nodup)
    (hdisjoint : ∀ t, o = some t → ∀ q ∈ t.addrs, ¬s.Elsewhere d q) :
    Represented (Function.update s d o) h' := by
  constructor
  · intro d' hd'
    by_cases heq : d' = d
    · rw [heq, Function.update_self] at hd'
      exact heq ▸ hfree hd'
    · rw [Function.update_of_ne heq] at hd'
      exact (hdicts d' heq).trans (hr.free d' hd')
  · intro d' t' hd'
    by_cases heq : d' = d
    · rw [heq, Function.update_self] at hd'
      exact heq ▸ hstored t' hd'
    · rw [Function.update_of_ne heq] at hd'
      obtain ⟨b, hb, hs⟩ := hr.stored d' t' hd'
      refine ⟨b, (hdicts d' heq).trans hb, hs.congr fun q hq => ?_⟩
      exact hentries q ⟨d', t', heq, hd', hq⟩
  · intro q
    rw [howned q]
    constructor
    · rintro (⟨d', t', heq, hd', hq⟩ | ⟨t', ht', hq⟩)
      · exact ⟨d', t', (Function.update_of_ne heq ..).trans hd', hq⟩
      · exact ⟨d, t', (Function.update_self ..).trans ht', hq⟩
    · rintro ⟨d', t', hd', hq⟩
      by_cases heq : d' = d
      · rw [heq, Function.update_self] at hd'
        exact Or.inr ⟨t', hd', hq⟩
      · rw [Function.update_of_ne heq] at hd'
        exact Or.inl ⟨d', t', heq, hd', hq⟩
  · intro d' t' hd'
    by_cases heq : d' = d
    · rw [heq, Function.update_self] at hd'
      exact hnodup t' hd'
    · rw [Function.update_of_ne heq] at hd'
      exact hr.nodup d' t' hd'
  · intro d₁ d₂ t₁ t₂ hd₁ hd₂ hne q hq₁ hq₂
    by_cases heq₁ : d₁ = d
    · rw [heq₁, Function.update_self] at hd₁
      rw [Function.update_of_ne (heq₁ ▸ hne.symm)] at hd₂
      exact hdisjoint t₁ hd₁ q hq₁ ⟨d₂, t₂, heq₁ ▸ hne.symm, hd₂, hq₂⟩
    · rw [Function.update_of_ne heq₁] at hd₁
      by_cases heq₂ : d₂ = d
      · rw [heq₂, Function.update_self] at hd₂
        exact hdisjoint t₂ hd₂ q hq₂ ⟨d₁, t₁, heq₁, hd₁, hq₁⟩
      · rw [Function.update_of_ne heq₂] at hd₂
        exact hr.disjoint d₁ d₂ t₁ t₂ hd₁ hd₂ hne hq₁ hq₂

/-- A table is represented once it was initialised. -/
theorem init (hr : s.Represented h) (hd : s d = none) (buckets : Nat → Option ρ)
    (key2hash : κ → BitVec 32) (keyCmp : κ → κ → BitVec 32) :
    Represented (Function.update s d (some (.init key2hash keyCmp)))
      (h.dictInit d buckets key2hash keyCmp) := by
  have hnone : (Shelved.init key2hash keyCmp : Shelved ρ κ ν).addrs = [] :=
    List.flatMap_eq_nil_iff.mpr fun _ _ => rfl
  apply hr.replace
  · exact fun d' hne => Function.update_of_ne hne ..
  · exact fun h => absurd h (Option.some_ne_none _)
  · rintro t ⟨⟩
    exact ⟨_, Function.update_self .., stored_init buckets key2hash keyCmp⟩
  · exact fun _ _ => rfl
  · intro q
    refine (hr.owned q).trans ⟨?_, ?_⟩
    · rintro ⟨d', t', hd', hq⟩
      refine Or.inl ⟨d', t', ?_, hd', hq⟩
      rintro rfl
      rw [hd] at hd'
      cases hd'
    · rintro (⟨d', t', _, hd', hq⟩ | ⟨t', ⟨⟩, hq⟩)
      · exact ⟨d', t', hd', hq⟩
      · rw [hnone] at hq
        cases hq
  · rintro t ⟨⟩
    rw [hnone]
    exact List.nodup_nil
  · rintro t ⟨⟩ q hq
    rw [hnone] at hq
    cases hq

/-- `dict_enter` does not fail. -/
theorem enter (hr : s.Represented h) (hd : s d = some t) (hp : s.Unowned p) (key : κ) (value : ν)
    {turns : Nat} (hturns : ∀ i, (t.chains i).length < turns) :
    ∃ h', h.dictEnter turns d p key value = some h' ∧
      Represented (Function.update s d (some (t.enter p key value))) h' := by
  obtain ⟨b, hb, hs⟩ := hr.stored d t hd
  have hpt : p ∉ t.addrs := hp d t hd
  have hpos := t.dict.bucketpos_lt key
  let h₁ : DictHeap ρ κ ν :=
    { h with entries := Function.update h.entries p (some ⟨t.dict.key2hash key, key, value, none⟩) }
  have hsame : ∀ q, q ≠ p → h₁.entries q = h.entries q := fun q hq => Function.update_of_ne hq ..
  have hs₁ : t.Stored h₁.entries b := hs.congr fun q hq => hsame q fun heq => hpt (heq ▸ hq)
  obtain ⟨nodes, hnodes⟩ := hs₁.chain _ hpos
  have hlength : nodes.length < turns := by
    rw [← List.length_map Prod.fst, hnodes.2.1]
    exact hturns _
  obtain ⟨h', b', hlink, hdicts, hkept, hlive, hs'⟩ := stored_linkEntry hs₁ (hr.nodup d t hd) hb
    hpt key value hnodes (Function.update_self ..)
  have hothers : ∀ q, s.Elsewhere d q → q ≠ p ∧ q ∉ t.addrs := by
    intro q hq
    refine ⟨?_, fun hmem => hr.not_elsewhere hd hmem hq⟩
    rintro rfl
    obtain ⟨d', t', _, hd', hq⟩ := hq
    exact hp d' t' hd' hq
  refine ⟨h', ?_, hr.replace ?_ (fun hnone => absurd hnone (Option.some_ne_none _)) ?_ ?_ ?_ ?_ ?_⟩
  · rw [DictHeap.dictEnter, hb, Option.bind_some]
    dsimp only
    rw [hs.key2hash]
    exact (congrArg (Option.bind · _) (Linked.loop_lastTurn hnodes.1 hlength)).trans hlink
  · intro d' hne
    rw [hdicts]
    exact Function.update_of_ne hne ..
  · rintro t' ⟨⟩
    exact ⟨b', by rw [hdicts, Function.update_self], hs'⟩
  · intro q hq
    obtain ⟨hqp, hqt⟩ := hothers q hq
    rw [hkept q hqt, hsame q hqp]
  · intro q
    refine (not_congr (hlive q)).trans ?_
    simp only [Option.some.injEq, exists_eq_left', Shelved.mem_addrs_enter]
    by_cases hqp : q = p
    · rw [hqp]
      refine iff_of_true ?_ (Or.inr (Or.inl rfl))
      rw [show h₁.entries p = _ from Function.update_self ..]
      exact Option.some_ne_none _
    · rw [hsame q hqp]
      simp only [hqp, false_or]
      exact hr.owned_iff hd q
  · rintro t' ⟨⟩
    exact (t.addrs_enter_perm p key value).nodup_iff.mpr
      (List.nodup_cons.mpr ⟨hpt, hr.nodup d t hd⟩)
  · rintro t' ⟨⟩ q hq helse
    obtain ⟨hqp, hqt⟩ := hothers q helse
    exact (Shelved.mem_addrs_enter.mp hq).elim hqp hqt

/-- `dict_clear` does not fail, and frees the entries of its table. -/
theorem clear (hr : s.Represented h) (hd : s d = some t) {turns : Nat}
    (hturns : ∀ i, (t.chains i).length < turns) :
    ∃ h', h.dictClear turns d = some h' ∧ Represented (Function.update s d none) h' := by
  obtain ⟨b, hb, hs⟩ := hr.stored d t hd
  choose! nodes hnodes using hs.chain
  have haddrs : ((List.range dictTableSize).flatMap nodes).map Prod.fst = t.addrs := by
    rw [List.map_flatMap]
    apply List.flatMap_congr
    exact fun i hi => (hnodes i (List.mem_range.mp hi)).2.1
  have hlength : ∀ i ∈ List.range dictTableSize, (nodes i).length < turns := by
    intro i hi
    rw [← List.length_map Prod.fst, (hnodes i (List.mem_range.mp hi)).2.1]
    exact hturns i
  have hfreed := Linked.foldlM_loop_freeTurn
    (fun i hi => (hnodes i (List.mem_range.mp hi)).1) (haddrs ▸ hr.nodup d t hd) hlength
  rw [haddrs] at hfreed
  refine ⟨{ dicts := Function.update h.dicts d none, entries := Linked.without h.entries t.addrs },
    ?_, hr.replace ?_ ?_ ?_ ?_ ?_ ?_ ?_⟩
  · rw [DictHeap.dictClear, hb, Option.bind_some, DictHeap.freeEntries, hfreed, Option.map_some]
  · exact fun d' hne => Function.update_of_ne hne ..
  · exact fun _ => Function.update_self ..
  · exact fun t' ht' => absurd ht'.symm (Option.some_ne_none t')
  · intro q hq
    dsimp only
    exact Linked.without_of_notMem fun hmem => hr.not_elsewhere hd hmem hq
  · intro q
    simp only [reduceCtorEq, false_and, exists_false, or_false]
    by_cases hq : q ∈ t.addrs
    · rw [Linked.without_of_mem hq]
      exact iff_of_false (fun hne => hne rfl) (hr.not_elsewhere hd hq)
    · rw [Linked.without_of_notMem hq, hr.owned_iff hd q, or_iff_left hq]
  · exact fun t' ht' => absurd ht'.symm (Option.some_ne_none t')
  · exact fun t' ht' => absurd ht'.symm (Option.some_ne_none t')

omit [DecidableEq ρ] in
/-- A lookup follows the chain of its key. -/
theorem find (hr : s.Represented h) (hd : s d = some t) (key : κ) {turns : Nat}
    (hturns : ∀ i, (t.chains i).length < turns) :
    h.dictFindEntry turns d key = some (Utrace.dictFindEntry t.dict key) := by
  obtain ⟨b, hb, hs⟩ := hr.stored d t hd
  obtain ⟨nodes, hlinked, haddrs, hentries⟩ := hs.chain _ (t.dict.bucketpos_lt key)
  have hlength : nodes.length < turns := by
    rw [← List.length_map Prod.fst, haddrs]
    exact hturns _
  have hsame : (fun n : ρ × DictNode ρ κ ν => DictHeap.found b key n.2) =
      t.dict.same key ∘ fun n => n.2.entry := by
    ext1 n
    rw [DictHeap.found, hs.key2hash, hs.keyCmp]
    rfl
  rw [DictHeap.dictFindEntry, hb, Option.bind_some]
  dsimp only
  rw [hs.key2hash]
  refine (congrArg (Option.bind · _) (Linked.loop_findTurn _ hlinked hlength)).trans ?_
  rw [Utrace.dictFindEntry, Dict.chain, ← hentries, List.find?_map, hsame, Option.bind_some]
  cases hfound : nodes.find? (t.dict.same key ∘ fun n => n.2.entry) with
  | none => rfl
  | some n =>
    have hblock := hlinked.mem (List.mem_of_find?_eq_some hfound)
    simp [hblock, DictNode.entry]

omit [DecidableEq ρ] in
/-- A visit meets the entries in order. -/
theorem visit (hr : s.Represented h) (hd : s d = some t) (func : κ → ν → σ → Option σ)
    {turns : Nat} (hturns : ∀ i, (t.chains i).length < turns) (data : σ) :
    h.dictApplyToAll turns (some d) func data =
      t.dict.entries.foldlM (fun data e => func e.key e.value data) data := by
  obtain ⟨b, hb, hs⟩ := hr.stored d t hd
  choose! nodes hnodes using hs.chain
  have hlength : ∀ i ∈ List.range dictTableSize, (nodes i).length < turns := by
    intro i hi
    rw [← List.length_map Prod.fst, (hnodes i (List.mem_range.mp hi)).2.1]
    exact hturns i
  have hentries : ((List.range dictTableSize).flatMap nodes).map (fun n => n.2.entry) =
      t.dict.entries := by
    have hbuckets : (List.range dictTableSize).map (fun i => t.dict.buckets.getD i []) =
        t.dict.buckets := by
      apply List.ext_getElem
      · rw [List.length_map, List.length_range, t.dict.size]
      · intro i _ hi
        rw [List.getElem_map, List.getElem_range, List.getD_eq_getElem?_getD,
          List.getElem?_eq_getElem hi, Option.getD_some]
    rw [Dict.entries, ← hbuckets, List.map_flatMap, ← List.flatMap_def]
    apply List.flatMap_congr
    exact fun i hi => (hnodes i (List.mem_range.mp hi)).2.2
  have hvisited := Linked.foldlM_loop_visitTurn (fun e : DictNode ρ κ ν => func e.key e.value)
    (fun i hi => (hnodes i (List.mem_range.mp hi)).1) hlength data
  rw [DictHeap.dictApplyToAll, hb, Option.bind_some, hvisited, ← hentries, List.foldlM_map]
  rfl

end Shelf.Represented

/-! ## Runs -/

/-- A chain is no longer than the number of calls. -/
theorem Shelf.Calls.length_chain {ops : List (DictHeap.Op ρ κ ν)} (hc : s.Calls ops) :
    ∀ d t, s d = some t → ∀ i, (t.chains i).length ≤ ops.length := by
  -- Every call makes one chain longer, or none.
  have hreplace : ∀ {ops : List (DictHeap.Op ρ κ ν)} {op : DictHeap.Op ρ κ ν} {s : Shelf ρ κ ν}
      {d₀ : ρ} {o : Option (Shelved ρ κ ν)},
      (∀ d t, s d = some t → ∀ i, (t.chains i).length ≤ ops.length) →
      (∀ t, o = some t → ∀ i, (t.chains i).length ≤ ops.length + 1) →
      ∀ d t, Function.update s d₀ o d = some t → ∀ i,
        (t.chains i).length ≤ (ops ++ [op]).length := by
    intro ops op s d₀ o ih ho d t hd i
    rw [List.length_append, List.length_singleton]
    by_cases heq : d = d₀
    · rw [heq, Function.update_self] at hd
      exact ho t hd i
    · rw [Function.update_of_ne heq] at hd
      exact Nat.le_succ_of_le (ih d t hd i)
  induction hc with
  | start =>
    intro d t hd
    cases hd
  | init _ _ _ _ _ ih =>
    apply hreplace ih
    rintro t ⟨⟩ i
    exact Nat.zero_le _
  | @enter ops s _ d₀ t₀ hd₀ newentry _ key value ih =>
    apply hreplace ih
    rintro t ⟨⟩ i
    have hlength := ih d₀ t₀ hd₀ i
    change (Function.update t₀.chains _ _ i).length ≤ _
    by_cases hi : i = t₀.dict.bucketpos key
    · subst hi
      rw [Function.update_self, List.length_append]
      exact Nat.succ_le_succ hlength
    · rw [Function.update_of_ne hi]
      exact Nat.le_succ_of_le hlength
  | clear _ _ ih =>
    apply hreplace ih
    rintro t ⟨⟩

/-- Any calls for tables in use succeed on the heap, however many tables there are. -/
theorem Shelf.Calls.represented {ops : List (DictHeap.Op ρ κ ν)} (hc : s.Calls ops) {turns : Nat}
    (hturns : ops.length ≤ turns) :
    ∃ h, ops.foldlM (DictHeap.step turns) {} = some h ∧ s.Represented h := by
  induction hc with
  | start =>
    refine ⟨{}, rfl, ⟨fun _ _ => rfl, fun d t hd => ?_, fun p => ?_, fun d t hd => ?_,
      fun d d' t t' hd => ?_⟩⟩
    · cases hd
    · exact iff_of_false (fun hne => hne rfl) fun ⟨d, t, hd, _⟩ => by cases hd
    · cases hd
    · cases hd
  | init _ hd buckets key2hash keyCmp ih =>
    rw [List.length_append] at hturns
    obtain ⟨h, hh, hr⟩ := ih (Nat.le_of_add_right_le hturns)
    refine ⟨_, ?_, hr.init hd buckets key2hash keyCmp⟩
    rw [List.foldlM_append, hh]
    rfl
  | enter hc hd hp key value ih =>
    rw [List.length_append, List.length_singleton] at hturns
    obtain ⟨h, hh, hr⟩ := ih (Nat.le_of_add_right_le hturns)
    obtain ⟨h', hh', hr'⟩ := hr.enter hd hp key value fun i =>
      Nat.lt_of_le_of_lt (hc.length_chain _ _ hd i) hturns
    refine ⟨h', ?_, hr'⟩
    rw [List.foldlM_append, hh]
    simp [DictHeap.step, hh']
  | clear hc hd ih =>
    rw [List.length_append, List.length_singleton] at hturns
    obtain ⟨h, hh, hr⟩ := ih (Nat.le_of_add_right_le hturns)
    obtain ⟨h', hh', hr'⟩ := hr.clear hd fun i =>
      Nat.lt_of_le_of_lt (hc.length_chain _ _ hd i) hturns
    refine ⟨h', ?_, hr'⟩
    rw [List.foldlM_append, hh]
    simp [DictHeap.step, hh']

/-- After any calls, for any number of tables in the same heap, none of which failed: every
lookup and every visit finds what `Dict.lean` says, and the blocks in use are those of the tables,
so that nothing is left once every table has been cleared. -/
theorem tables_on_heap {ops : List (DictHeap.Op ρ κ ν)} (hc : s.Calls ops) {turns : Nat}
    (hturns : ops.length < turns) :
    ∃ h, ops.foldlM (DictHeap.step turns) {} = some h ∧
      (∀ d t, s d = some t →
        (∀ key, h.dictFindEntry turns d key = some (Utrace.dictFindEntry t.dict key)) ∧
        ∀ (func : κ → ν → σ → Option σ) (data : σ), h.dictApplyToAll turns (some d) func data =
          t.dict.entries.foldlM (fun data e => func e.key e.value data) data) ∧
      (∀ d, h.dicts d ≠ none ↔ s d ≠ none) ∧
      ∀ p, h.entries p ≠ none ↔ ∃ d t, s d = some t ∧ p ∈ t.addrs := by
  obtain ⟨h, hh, hr⟩ := hc.represented (Nat.le_of_lt hturns)
  refine ⟨h, hh, fun d t hd => ⟨fun key => ?_, fun func data => ?_⟩, fun d => ?_, hr.owned⟩
  · exact hr.find hd key fun i => Nat.lt_of_le_of_lt (hc.length_chain d t hd i) hturns
  · exact hr.visit hd func (fun i => Nat.lt_of_le_of_lt (hc.length_chain d t hd i) hturns) data
  · cases hd : s d with
    | none => exact iff_of_false (fun hne => hne (hr.free d hd)) fun hne => hne rfl
    | some t =>
      obtain ⟨b, hb, _⟩ := hr.stored d t hd
      rw [hb]
      exact iff_of_true (Option.some_ne_none b) (Option.some_ne_none t)

/-- A table of one entry, cleared: the heap is empty. -/
theorem tables_on_heap_cleared :
    let ops : List (DictHeap.Op Nat Nat Nat) :=
      [.init 0 (fun _ => some 3) (BitVec.ofNat 32) fun key key' => BitVec.ofNat 32 (key - key'),
        .enter 0 5 7 8, .clear 0]
    ∃ h, ops.foldlM (DictHeap.step 4) {} = some h ∧ ∀ p, h.entries p = none := by
  intro ops
  let t : Shelved Nat Nat Nat :=
    .init (BitVec.ofNat 32) fun key key' => BitVec.ofNat 32 (key - key')
  let s : Shelf Nat Nat Nat := Function.update (fun _ => none) 0 (some t)
  have hunowned : s.Unowned 5 := by
    intro d t' hd
    simp only [s, Function.update_apply] at hd
    split at hd
    · cases hd
      simp [t, Shelved.addrs, Shelved.init]
    · cases hd
  have hs : s 0 = some t := Function.update_self ..
  have henter := (Shelf.Calls.init .start rfl (fun _ => some 3) _ _).enter hs hunowned 7 8
  have hclear := henter.clear (Function.update_self ..)
  have hturns : ops.length < 4 := by simp [ops]
  obtain ⟨h, hh, -, -, howned⟩ := tables_on_heap (σ := Unit) hclear hturns
  refine ⟨h, hh, fun p => ?_⟩
  by_contra hne
  obtain ⟨d, t', hd, -⟩ := (howned p).mp hne
  simp only [Function.update_apply] at hd
  split at hd <;> cases hd

end Utrace
