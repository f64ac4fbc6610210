import Mathlib
import TaurusNode.ChainKv.KeyOrder

/-!
# The key-value intrinsics

The intrinsics a contract calls on its key-value store: `kv_set`, `kv_erase`, `kv_get`,
`kv_get_data`, and the `kv_it_*` family over iterators named by handles. The chain implements
them over chainbase (libraries/chain/backing_store/kv_context.cpp, apply_context.cpp), rodeos
over a chain_kv view (libraries/rodeos/include/b1/rodeos/callbacks/kv.hpp). Both take the same
calls and return the same kinds of results (`KvCall`, `KvResult`).

What the intrinsics are for is stated here once, as a relation over an abstract state
(`KvSpec.Step`): the rows of every contract, the buffer `kv_get` fills, and the iterators. An
iterator runs over the keys of one contract that start with its prefix and have a value (its
range, `KvSpec.rangeKeys`); it is at a key of its range, at the end, or at a row erased since it
moved there. A forward move goes to the least key of the range on the far side of where the
iterator is, a backward move to the greatest, and either goes to the end when there is none
(`KvSpec.MovesTo`, `KvSpec.MovesBackTo`): the relation says which key, not how it is found.
Erasing a row puts every iterator at it at an erased row; writing one moves no iterator.

From the first state on, every iterator at a key is at a key of its range (`KvSpec.Step.valid`).

The resource deltas `kv_set` and `kv_erase` return, and the payer `kv_set` takes, are left out:
they go to resource accounting, which no intrinsic here reads back.
-/

namespace Eosio.Chain

open B1.ChainKv

/-- `kv_it_stat`. -/
inductive KvItStat
  /-- `iterator_ok`: at a key-value pair. -/
  | iteratorOk
  /-- `iterator_erased`: the pair the iterator was at was erased. -/
  | iteratorErased
  /-- `iterator_end`: out of bounds. -/
  | iteratorEnd
deriving DecidableEq, Repr

/-- A call of a key-value intrinsic with the arguments it reads; an iterator is its handle. -/
inductive KvCall
  | kvErase (contract : UInt64) (key : Bytes)
  | kvSet (contract : UInt64) (key value : Bytes)
  | kvGet (contract : UInt64) (key : Bytes)
  | kvGetData (offset dataSize : ℕ)
  | kvItCreate (contract : UInt64) (itPrefix : Bytes)
  | kvItStatus (itr : ℕ)
  | kvItCompare (itrA itrB : ℕ)
  | kvItKeyCompare (itr : ℕ) (key : Bytes)
  | kvItMoveToEnd (itr : ℕ)
  | kvItNext (itr : ℕ)
  | kvItPrev (itr : ℕ)
  | kvItLowerBound (itr : ℕ) (key : Bytes)
  | kvItKey (itr : ℕ) (offset size : ℕ)
  | kvItValue (itr : ℕ) (offset size : ℕ)
deriving DecidableEq, Repr

/-- What a call returns to the contract: its return value, and the sizes and bytes it writes to
the contract's memory. -/
inductive KvResult
  /-- `kv_set`, `kv_erase`. -/
  | written
  /-- `kv_get`: whether the key has a value, and the value's size. -/
  | found (found : Bool) (valueSize : ℕ)
  /-- `kv_get_data`: the bytes copied, and the size of the buffer. -/
  | copied (data : Bytes) (size : ℕ)
  /-- `kv_it_create`: the handle. -/
  | created (itr : ℕ)
  /-- `kv_it_status`, `kv_it_move_to_end`. -/
  | status (stat : KvItStat)
  /-- `kv_it_compare`, `kv_it_key_compare`: the sign. -/
  | compared (sign : Ordering)
  /-- `kv_it_next`, `kv_it_prev`, `kv_it_lower_bound`: the status, and the sizes of the key and
  value reached. -/
  | moved (stat : KvItStat) (keySize valueSize : ℕ)
  /-- `kv_it_key`, `kv_it_value`: the status, the bytes copied, and the size of the whole key or
  value. -/
  | read (stat : KvItStat) (data : Bytes) (actualSize : ℕ)
deriving DecidableEq, Repr

/-- What `if (offset < size) memcpy(dest, src + offset, min(dest_size, size - offset))` copies. -/
def copyOut (src : Bytes) (offset size : ℕ) : Bytes :=
  if offset < src.length then (src.drop offset).take size else []

/-- `compare_key`: the end (`none`) after every key, two keys by `compare_blob`. -/
def compareKey : Option Bytes → Option Bytes → Ordering
  | none, none => .eq
  | none, some _ => .gt
  | some _, none => .lt
  | some a, some b => compare a b

/-- The iterator of a handle, when the handle has one: what `kv_check_iterator` accepts. -/
def iteratorAt {ι : Type*} (iterators : List (Option ι)) (itr : ℕ) : Option ι :=
  iterators[itr]?.join

theorem iteratorAt_set_self {ι : Type*} {iterators : List (Option ι)} {itr : ℕ} {it it' : ι}
    (h : iteratorAt iterators itr = some it) : iteratorAt (iterators.set itr (some it')) itr = some it' := by
  have hlt : itr < iterators.length := by
    by_contra hge
    rw [iteratorAt, List.getElem?_eq_none (Nat.le_of_not_lt hge)] at h
    exact absurd h (by simp)
  simp [iteratorAt, List.getElem?_set_self hlt]

namespace KvSpec

/-! ### The abstract state -/

/-- Where an iterator is. -/
inductive Pos
  | atEnd
  | at (key : Bytes)
  /-- At a row erased since the iterator moved there. -/
  | erased
deriving DecidableEq, Repr

/-- An iterator over the keys of `contract` that start with `itPrefix`. -/
structure Iter where
  contract : UInt64
  itPrefix : Bytes
  pos : Pos
deriving DecidableEq, Repr

/-- What the intrinsics act on. -/
structure State where
  /-- The value of each key of each contract. -/
  rows : UInt64 → Bytes → Option Bytes
  /-- What the last `kv_get` found, for `kv_get_data`. -/
  tempData : Option Bytes
  numIterators : ℕ
  /-- The iterator handles; slot `0` is reserved. -/
  iterators : List (Option Iter)

/-- The sizes a call may not exceed. -/
structure Limits where
  maxKeySize : ℕ
  maxValueSize : ℕ
  maxIterators : ℕ

/-- The state of a contract's first call on the rows `rows`. -/
def State.init (rows : UInt64 → Bytes → Option Bytes) : State := ⟨rows, none, 0, [none]⟩

variable (rows : UInt64 → Bytes → Option Bytes)

/-- The keys an iterator over `contract` and `p` can be at. -/
def rangeKeys (contract : UInt64) (p : Bytes) : Set Bytes :=
  {k | p <+: k ∧ (rows contract k).isSome}

/-- A forward move to the least key of `S`, or to the end when `S` is empty. -/
def MovesTo (S : Set Bytes) (pos : Pos) : Prop :=
  (pos = .atEnd ∧ S = ∅) ∨ ∃ k, pos = .at k ∧ IsLeast S k

/-- A backward move to the greatest key of `S`, or to the end when `S` is empty. -/
def MovesBackTo (S : Set Bytes) (pos : Pos) : Prop :=
  (pos = .atEnd ∧ S = ∅) ∨ ∃ k, pos = .at k ∧ IsGreatest S k

/-- `kv_it_next`: from the end to the first key of the range, from a key to the next one. -/
def NextPos (it : Iter) (pos : Pos) : Prop :=
  match it.pos with
  | .atEnd => MovesTo (rangeKeys rows it.contract it.itPrefix) pos
  | .at k => MovesTo {k' | k' ∈ rangeKeys rows it.contract it.itPrefix ∧ k < k'} pos
  | .erased => False

/-- `kv_it_prev`: from the end to the last key of the range, from a key to the one before. -/
def PrevPos (it : Iter) (pos : Pos) : Prop :=
  match it.pos with
  | .atEnd => MovesBackTo (rangeKeys rows it.contract it.itPrefix) pos
  | .at k => MovesBackTo {k' | k' ∈ rangeKeys rows it.contract it.itPrefix ∧ k' < k} pos
  | .erased => False

/-- The key of a position. -/
def Pos.key? : Pos → Option Bytes
  | .at k => some k
  | _ => none

/-- `kv_it_status`. -/
def Pos.stat : Pos → KvItStat
  | .atEnd => .iteratorEnd
  | .at _ => .iteratorOk
  | .erased => .iteratorErased

/-- What a move returns: the status, and the sizes of the key and the value it reached. -/
def moved (contract : UInt64) : Pos → KvResult
  | .at k => .moved .iteratorOk k.length ((rows contract k).getD []).length
  | pos => .moved pos.stat 0 0

/-- `kv_it_key(offset, dest, size)`. -/
def readKey (offset size : ℕ) : Pos → KvResult
  | .at k => .read .iteratorOk (copyOut k offset size) k.length
  | pos => .read pos.stat [] 0

/-- `kv_it_value(offset, dest, size)`. -/
def readValue (contract : UInt64) (offset size : ℕ) : Pos → KvResult
  | .at k => .read .iteratorOk (copyOut ((rows contract k).getD []) offset size)
      ((rows contract k).getD []).length
  | pos => .read pos.stat [] 0

/-- The rows with `v` at `key` of `contract`. -/
def write (contract : UInt64) (key : Bytes) (v : Option Bytes) : UInt64 → Bytes → Option Bytes :=
  fun c k => if c = contract ∧ k = key then v else rows c k

/-- What erasing `key` of `contract` does to an iterator: one at it is now at an erased row. -/
def Iter.eraseAt (contract : UInt64) (key : Bytes) (it : Iter) : Iter :=
  if it.contract = contract ∧ it.pos = .at key then { it with pos := .erased } else it

/-- The state with the iterator of a handle replaced. -/
def State.setIter (s : State) (itr : ℕ) (it : Iter) : State :=
  { s with iterators := s.iterators.set itr (some it) }

/-! ### The intrinsics -/

/-- **What each intrinsic does**, for the contract `receiver`, which alone may write: the result
of a call from a state, and the state after it. A call with no step here throws. -/
inductive Step (receiver : UInt64) (limits : Limits) : State → KvCall → KvResult → State → Prop
  | kvErase (s : State) (contract : UInt64) (key : Bytes) (hc : contract = receiver) :
      Step receiver limits s (.kvErase contract key) .written
        { s with rows := write s.rows contract key none, tempData := none,
                 iterators := s.iterators.map (Option.map (Iter.eraseAt contract key)) }
  | kvSet (s : State) (contract : UInt64) (key value : Bytes) (hc : contract = receiver)
      (hkey : key.length ≤ limits.maxKeySize) (hvalue : value.length ≤ limits.maxValueSize) :
      Step receiver limits s (.kvSet contract key value) .written
        { s with rows := write s.rows contract key (some value), tempData := none }
  | kvGet (s : State) (contract : UInt64) (key : Bytes) :
      Step receiver limits s (.kvGet contract key)
        (.found (s.rows contract key).isSome ((s.rows contract key).getD []).length)
        { s with tempData := s.rows contract key }
  | kvGetData (s : State) (offset dataSize : ℕ) :
      Step receiver limits s (.kvGetData offset dataSize)
        (.copied (copyOut (s.tempData.getD []) offset dataSize) (s.tempData.getD []).length) s
  | kvItCreate (s : State) (contract : UInt64) (p : Bytes)
      (hnum : s.numIterators < limits.maxIterators) (htable : s.iterators.length ≤ 0xFFFFFFFF) :
      Step receiver limits s (.kvItCreate contract p) (.created s.iterators.length)
        { s with numIterators := s.numIterators + 1,
                 iterators := s.iterators ++ [some ⟨contract, p, .atEnd⟩] }
  | kvItStatus (s : State) (itr : ℕ) (it : Iter) (hit : iteratorAt s.iterators itr = some it) :
      Step receiver limits s (.kvItStatus itr) (.status it.pos.stat) s
  | kvItCompare (s : State) (itrA itrB : ℕ) (a b : Iter) (ha : iteratorAt s.iterators itrA = some a)
      (hb : iteratorAt s.iterators itrB = some b) (hc : a.contract = b.contract)
      (hae : a.pos ≠ .erased) (hbe : b.pos ≠ .erased) :
      Step receiver limits s (.kvItCompare itrA itrB) (.compared (compareKey a.pos.key? b.pos.key?)) s
  | kvItKeyCompare (s : State) (itr : ℕ) (key : Bytes) (it : Iter)
      (hit : iteratorAt s.iterators itr = some it) (he : it.pos ≠ .erased) :
      Step receiver limits s (.kvItKeyCompare itr key)
        (.compared (compareKey it.pos.key? (some key))) s
  | kvItMoveToEnd (s : State) (itr : ℕ) (it : Iter) (hit : iteratorAt s.iterators itr = some it) :
      Step receiver limits s (.kvItMoveToEnd itr) (.status .iteratorEnd)
        (s.setIter itr { it with pos := .atEnd })
  | kvItNext (s : State) (itr : ℕ) (it : Iter) (hit : iteratorAt s.iterators itr = some it)
      (pos : Pos) (hpos : NextPos s.rows it pos) :
      Step receiver limits s (.kvItNext itr) (moved s.rows it.contract pos)
        (s.setIter itr { it with pos })
  | kvItPrev (s : State) (itr : ℕ) (it : Iter) (hit : iteratorAt s.iterators itr = some it)
      (pos : Pos) (hpos : PrevPos s.rows it pos) :
      Step receiver limits s (.kvItPrev itr) (moved s.rows it.contract pos)
        (s.setIter itr { it with pos })
  | kvItLowerBound (s : State) (itr : ℕ) (key : Bytes) (it : Iter)
      (hit : iteratorAt s.iterators itr = some it) (pos : Pos)
      (hpos : MovesTo {k | k ∈ rangeKeys s.rows it.contract it.itPrefix ∧ key ≤ k} pos) :
      Step receiver limits s (.kvItLowerBound itr key) (moved s.rows it.contract pos)
        (s.setIter itr { it with pos })
  | kvItKey (s : State) (itr : ℕ) (offset size : ℕ) (it : Iter)
      (hit : iteratorAt s.iterators itr = some it) (he : it.pos ≠ .erased) :
      Step receiver limits s (.kvItKey itr offset size) (readKey offset size it.pos) s
  | kvItValue (s : State) (itr : ℕ) (offset size : ℕ) (it : Iter)
      (hit : iteratorAt s.iterators itr = some it) (he : it.pos ≠ .erased) :
      Step receiver limits s (.kvItValue itr offset size)
        (readValue s.rows it.contract offset size it.pos) s

/-! ### Iterators stay in their ranges -/

/-- Every iterator at a key is at a key of its range. -/
def State.Valid (s : State) : Prop :=
  ∀ o ∈ s.iterators, ∀ it ∈ o, ∀ k, it.pos = .at k → k ∈ rangeKeys s.rows it.contract it.itPrefix

theorem State.valid_init : (State.init rows).Valid := by
  intro o ho it hit k hk
  rw [State.init, List.mem_singleton] at ho
  subst ho
  exact absurd hit (by simp)

/-- The key a move reaches is in its range. -/
theorem mem_rangeKeys_of_movesTo {contract : UInt64} {p : Bytes} {S : Set Bytes} {pos : Pos}
    (hS : S ⊆ rangeKeys rows contract p) (h : MovesTo S pos) :
    ∀ k, pos = .at k → k ∈ rangeKeys rows contract p := by
  rintro k rfl
  rcases h with ⟨h, -⟩ | ⟨k', hk', hleast⟩
  · exact Pos.noConfusion h
  · cases hk'
    exact hS hleast.1

theorem mem_rangeKeys_of_movesBackTo {contract : UInt64} {p : Bytes} {S : Set Bytes} {pos : Pos}
    (hS : S ⊆ rangeKeys rows contract p) (h : MovesBackTo S pos) :
    ∀ k, pos = .at k → k ∈ rangeKeys rows contract p := by
  rintro k rfl
  rcases h with ⟨h, -⟩ | ⟨k', hk', hgreatest⟩
  · exact Pos.noConfusion h
  · cases hk'
    exact hS hgreatest.1

/-- Replacing one iterator by one in its range keeps every iterator in its range. -/
theorem State.Valid.setIter {s : State} (hs : s.Valid) (itr : ℕ) (it : Iter)
    (hit : ∀ k, it.pos = .at k → k ∈ rangeKeys s.rows it.contract it.itPrefix) :
    (s.setIter itr it).Valid := by
  intro o ho i hi k hk
  rcases List.mem_or_eq_of_mem_set ho with ho | rfl
  · exact hs o ho i hi k hk
  · cases hi
    exact hit k hk

/-- A write at `key` of `contract` leaves the range of an iterator at another key as it was. -/
theorem mem_rangeKeys_write {contract c : UInt64} {key k p : Bytes} {v : Option Bytes}
    (hne : ¬ (c = contract ∧ k = key)) (hk : k ∈ rangeKeys rows c p) :
    k ∈ rangeKeys (write rows contract key v) c p := by
  refine ⟨hk.1, ?_⟩
  simp only [write, if_neg hne]
  exact hk.2

/-- **Every call keeps every iterator at a key of its range.** -/
theorem Step.valid {receiver : UInt64} {limits : Limits} {s s' : State} {x : KvCall}
    {b : KvResult} (hstep : Step receiver limits s x b s') (hs : s.Valid) : s'.Valid := by
  cases hstep with
  | kvErase contract key hc =>
    intro o ho it' hit' k hk
    obtain ⟨o₀, ho₀, rfl⟩ := List.mem_map.mp ho
    obtain ⟨it, rfl, rfl⟩ := Option.map_eq_some_iff.mp hit'
    by_cases hat : it.contract = contract ∧ it.pos = .at key
    · -- the iterator at the erased key is now at an erased row
      rw [Iter.eraseAt, if_pos hat] at hk
      exact Pos.noConfusion hk
    · -- any other iterator is at a key other than the erased one
      rw [Iter.eraseAt, if_neg hat] at hk ⊢
      refine mem_rangeKeys_write s.rows (fun h => hat ⟨h.1, ?_⟩) (hs _ ho₀ it rfl k hk)
      rw [hk, h.2]
  | kvSet contract key value hc hkey hvalue =>
    -- the written key has a value; every other key keeps its own
    intro o ho it hit k hk
    have hrange := hs o ho it hit k hk
    by_cases hck : it.contract = contract ∧ k = key
    · refine ⟨hrange.1, ?_⟩
      simp [write, hck]
    · exact mem_rangeKeys_write s.rows hck hrange
  | kvGet contract key => exact hs
  | kvGetData offset dataSize => exact hs
  | kvItCreate contract p hnum htable =>
    intro o ho it hit k hk
    rcases List.mem_append.mp ho with ho | ho
    · exact hs o ho it hit k hk
    · rw [List.mem_singleton] at ho
      subst ho
      cases hit
      exact Pos.noConfusion hk
  | kvItStatus itr it hit => exact hs
  | kvItCompare itrA itrB a b ha hb hc hae hbe => exact hs
  | kvItKeyCompare itr key it hit he => exact hs
  | kvItMoveToEnd itr it hit =>
    exact hs.setIter itr _ fun k hk => Pos.noConfusion hk
  | kvItNext itr it hit pos hpos =>
    refine hs.setIter itr _ ?_
    unfold NextPos at hpos
    split at hpos
    · exact mem_rangeKeys_of_movesTo s.rows (fun k hk => hk) hpos
    · exact mem_rangeKeys_of_movesTo s.rows (fun k hk => hk.1) hpos
    · exact hpos.elim
  | kvItPrev itr it hit pos hpos =>
    refine hs.setIter itr _ ?_
    unfold PrevPos at hpos
    split at hpos
    · exact mem_rangeKeys_of_movesBackTo s.rows (fun k hk => hk) hpos
    · exact mem_rangeKeys_of_movesBackTo s.rows (fun k hk => hk.1) hpos
    · exact hpos.elim
  | kvItLowerBound itr key it hit pos hpos =>
    exact hs.setIter itr _ (mem_rangeKeys_of_movesTo s.rows (fun k hk => hk.1) hpos)
  | kvItKey itr offset size it hit he => exact hs
  | kvItValue itr offset size it hit he => exact hs

end KvSpec

end Eosio.Chain
