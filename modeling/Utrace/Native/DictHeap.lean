import Utrace.Core.Linked
import Utrace.Native.Dict

/-!
# The blocks behind the tables: `dict.c`

The tables of `Dict.lean` as the source has them: blocks that `malloc` returned, chained by
their `next` pointers. An access to an address that holds no block, or a second `free` of one,
has no outcome. The address of a new block comes in as data, and so do its first contents.
-/

namespace Utrace

/-- `struct dict_entry`. -/
structure DictNode (ρ κ ν : Type*) where
  hash : BitVec 32
  key : κ
  value : ν
  next : Option ρ

/-- `struct dict`. -/
structure DictBlock (ρ κ : Type*) where
  /-- `buckets[DICTTABLESIZE]`. -/
  buckets : Nat → Option ρ
  key2hash : κ → BitVec 32
  keyCmp : κ → κ → BitVec 32

/-- The blocks in use, of either kind. -/
structure DictHeap (ρ κ ν : Type*) where
  dicts : ρ → Option (DictBlock ρ κ) := fun _ => none
  entries : ρ → Option (DictNode ρ κ ν) := fun _ => none

namespace DictHeap

variable {ρ κ ν σ : Type*} [DecidableEq ρ]

/-- The loop of `dict_init`. -/
def clearBuckets (buckets : Nat → Option ρ) : Nat → Option ρ :=
  (List.range dictTableSize).foldl (fun buckets i => Function.update buckets i none) buckets

/-- `dict_init`, for the block at `d`. -/
def dictInit (h : DictHeap ρ κ ν) (d : ρ) (buckets : Nat → Option ρ) (key2hash : κ → BitVec 32)
    (keyCmp : κ → κ → BitVec 32) : DictHeap ρ κ ν :=
  { h with
    dicts := Function.update h.dicts d
      (some { buckets := clearBuckets buckets, key2hash := key2hash, keyCmp := keyCmp }) }

/-- The loop of `dict_clear`. -/
def freeEntries (turns : Nat) (buckets : Nat → Option ρ) (entries : ρ → Option (DictNode ρ κ ν)) :
    Option (ρ → Option (DictNode ρ κ ν)) :=
  (List.range dictTableSize).foldlM
    (fun entries i => loop (Linked.freeTurn DictNode.next) turns (buckets i, entries)) entries

/-- `dict_clear`. -/
def dictClear (turns : Nat) (h : DictHeap ρ κ ν) (d : ρ) : Option (DictHeap ρ κ ν) :=
  (h.dicts d).bind fun dict => (freeEntries turns dict.buckets h.entries).map fun entries =>
    { dicts := Function.update h.dicts d none, entries := entries }

/-- The last statements of `dict_enter`: the new entry is linked behind the last one. -/
def linkEntry (h : DictHeap ρ κ ν) (d : ρ) (dict : DictBlock ρ κ) (bucketpos : Nat)
    (newentry : ρ) : Option ρ → Option (DictHeap ρ κ ν)
  | some entry => (h.entries entry).map fun e =>
    { h with entries := Function.update h.entries entry (some { e with next := some newentry }) }
  | none => some
    { h with
      dicts := Function.update h.dicts d
        (some { dict with buckets := Function.update dict.buckets bucketpos (some newentry) }) }

/-- `dict_enter`, for the block at `newentry`. -/
def dictEnter (turns : Nat) (h : DictHeap ρ κ ν) (d newentry : ρ) (key : κ) (value : ν) :
    Option (DictHeap ρ κ ν) :=
  (h.dicts d).bind fun dict =>
    let hash := dict.key2hash key
    let bucketpos := hash.toNat % dictTableSize
    let h : DictHeap ρ κ ν :=
      { h with entries := Function.update h.entries newentry (some ⟨hash, key, value, none⟩) }
    (loop (Linked.lastTurn DictNode.next h.entries) turns (dict.buckets bucketpos)).bind
      (h.linkEntry d dict bucketpos newentry)

/-- The two tests of the lookup loop. -/
def found (dict : DictBlock ρ κ) (key : κ) (entry : DictNode ρ κ ν) : Bool :=
  dict.key2hash key == entry.hash && dict.keyCmp key entry.key == 0

/-- `dict_find_entry`. -/
def dictFindEntry (turns : Nat) (h : DictHeap ρ κ ν) (d : ρ) (key : κ) : Option (Option ν) :=
  (h.dicts d).bind fun dict =>
    let bucketpos := (dict.key2hash key).toNat % dictTableSize
    (loop (Linked.findTurn DictNode.next (found dict key) h.entries) turns
      (dict.buckets bucketpos)).bind fun entry =>
        match entry with
        | none => some none
        | some p => (h.entries p).map fun e => some e.value

/-- `dict_apply_to_all`, with a callback that may fail. -/
def dictApplyToAll (turns : Nat) (h : DictHeap ρ κ ν) (d : Option ρ)
    (func : κ → ν → σ → Option σ) (data : σ) : Option σ :=
  match d with
  | none => some data
  | some d => (h.dicts d).bind fun dict =>
    (List.range dictTableSize).foldlM
      (fun data i => loop (Linked.visitTurn DictNode.next
        (fun e => func e.key e.value) h.entries) turns (dict.buckets i, data)) data

/-! ## Several tables -/

/-- A call for one of the tables, with what `malloc` returned for it. -/
inductive Op (ρ κ ν : Type*) where
  | init (d : ρ) (buckets : Nat → Option ρ) (key2hash : κ → BitVec 32)
    (keyCmp : κ → κ → BitVec 32)
  | enter (d newentry : ρ) (key : κ) (value : ν)
  | clear (d : ρ)

/-- The call, with a bound on the turns of its loops. -/
def step (turns : Nat) (h : DictHeap ρ κ ν) : Op ρ κ ν → Option (DictHeap ρ κ ν)
  | .init d buckets key2hash keyCmp => some (h.dictInit d buckets key2hash keyCmp)
  | .enter d newentry key value => h.dictEnter turns d newentry key value
  | .clear d => h.dictClear turns d

end DictHeap

end Utrace
