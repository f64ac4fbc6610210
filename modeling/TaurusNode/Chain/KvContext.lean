import Mathlib
import TaurusNode.Chain.KvIntrinsics
import TaurusNode.Chain.ContractTables
import TaurusNode.Lib.SortedMap

/-!
# The chain's key-value intrinsics over chainbase

A model of `kv_context` and `kv_iterator` (libraries/chain/backing_store/kv_context.cpp) and of
the iterator handles of `apply_context` (libraries/chain/apply_context.cpp).

The rows are the objects of chainbase's `kv_index`, ordered by `by_kv_key`: the contract as its
64-bit value (`std::less<name>`), then the key (`unsigned_blob_less`). An iterator holds the
object it is at (`current`), which is how it tells an erased row: `kv_erase` removes the object
through the context's removal tracker, which keeps the object's memory and marks it, so that an
iterator at it sees `is_removed` while a row written again under the same key is a new object.
The model names an object by the id chainbase gives it, and the tracker by the ids it removed;
ids are never reused.

`kv_it_next` and `kv_it_prev` step through the whole index and `move_to` then checks the contract
and the prefix of the object reached; from the end, `kv_it_prev` starts at the `upper_bound` of
`blob_prefix{prefix}`, which compares equal to every key that starts with the prefix.

Left out: the payer of an object and the resource manager (resource deltas are accounting only),
`kv_it_payer`, and `kv_it_destroy` with its free list of handles.
-/

namespace Eosio.Chain

open B1.ChainKv

/-- The key of `kv_index`'s `by_kv_key`: the contract's value, then the key. -/
def kvKeyOf (contract : Name) (key : Bytes) : Lex (ℕ × Bytes) :=
  toLex (contract.value.toNat, key)

/-- A `kv_object` as the key-value intrinsics read it: its id and its value. Its contract and key
are its key in the index. -/
structure KvNode where
  id : ℕ
  kvValue : Bytes
deriving DecidableEq, Repr

/-- chainbase's `kv_index` with the removal tracker of `kv_context`: the objects by `by_kv_key`,
the ids of the objects the tracker removed, and the id of the next object. -/
structure KvIndex where
  objects : SortedMap (Lex (ℕ × Bytes)) KvNode
  removed : List ℕ
  nextId : ℕ

namespace KvIndex

variable (idx : KvIndex)

/-- `db.find<kv_object, by_kv_key>(boost::make_tuple(contract, key))`. -/
def find (contract : Name) (key : Bytes) : Option KvNode :=
  idx.objects.find? (kvKeyOf contract key)

/-- `tracker.is_removed(obj)`. -/
def isRemoved (id : ℕ) : Bool :=
  decide (id ∈ idx.removed)

/-- `tracker.remove(obj)`: the object leaves the index and is marked removed. -/
def remove (contract : Name) (key : Bytes) (node : KvNode) : KvIndex :=
  { idx with objects := idx.objects.erase (kvKeyOf contract key), removed := node.id :: idx.removed }

/-- `db.modify(obj, ...)`: the object gets a new value. -/
def modify (contract : Name) (key : Bytes) (node : KvNode) (value : Bytes) : KvIndex :=
  { idx with objects := idx.objects.upsert (kvKeyOf contract key) { node with kvValue := value } }

/-- `db.create<kv_object>(...)`: a new object, with the next id. -/
def create (contract : Name) (key value : Bytes) : KvIndex :=
  { idx with objects := idx.objects.upsert (kvKeyOf contract key) ⟨idx.nextId, value⟩,
             nextId := idx.nextId + 1 }

end KvIndex

/-- `compare_blob(blob_prefix, b)` (libraries/chain/include/eosio/chain/types.hpp): `memcmp` over
the shorter length, then a prefix longer than `b` is above it; a key that starts with the prefix
compares equal to it. -/
def compareBlobPrefix (p b : Bytes) : Ordering :=
  match compare (p.take b.length) (b.take p.length) with
  | .eq => if p.length > b.length then .gt else .eq
  | o => o

/-- `composite_key_compare` puts `(contract, blob_prefix{p})` below the key `K`: the key's contract
is above, or it is the contract and the key is above every key that starts with `p`. -/
def prefixBelow (contract : Name) (p : Bytes) (K : Lex (ℕ × Bytes)) : Bool :=
  decide (contract.value.toNat < (ofLex K).1 ∨
    (contract.value.toNat = (ofLex K).1 ∧ compareBlobPrefix p (ofLex K).2 = .lt))

/-- `kv_iterator`: its contract and prefix, and the object it is at, by its id and its key. -/
structure KvIterator where
  contract : Name
  itPrefix : Bytes
  current : Option (ℕ × Bytes)
deriving DecidableEq, Repr

namespace KvIterator

variable (idx : KvIndex) (it : KvIterator)

/-- The result of a move that reaches the end. -/
def toEnd : KvIterator × KvItStat × ℕ × ℕ :=
  ({ it with current := none }, .iteratorEnd, 0, 0)

/-- `move_to(it, found_key_size, found_value_size)`: the object at a position of the index, when
it is of the iterator's contract and its key starts with the prefix; the end otherwise. -/
def moveTo : Option (Lex (ℕ × Bytes)) → KvIterator × KvItStat × ℕ × ℕ
  | some K =>
    match idx.objects.find? K with
    | some node =>
      if (ofLex K).1 = it.contract.value.toNat ∧ it.itPrefix <+: (ofLex K).2 then
        ({ it with current := some (node.id, (ofLex K).2) }, .iteratorOk, (ofLex K).2.length,
          node.kvValue.length)
      else it.toEnd
    | none => it.toEnd
  | none => it.toEnd

/-- The iterator is at an object the tracker removed. -/
def atRemoved : Bool :=
  match it.current with
  | some (id, _) => idx.isRemoved id
  | none => false

/-- `kv_it_status()`. -/
def kvItStatus : KvItStat :=
  match it.current with
  | none => .iteratorEnd
  | some (id, _) => if idx.isRemoved id then .iteratorErased else .iteratorOk

/-- `kv_it_compare(rhs)`. -/
def kvItCompare (rhs : KvIterator) : Except String Ordering :=
  if it.contract ≠ rhs.contract then throw "Incompatible key-value iterators"
  else if it.atRemoved idx then throw "Iterator to erased element"
  else if rhs.atRemoved idx then throw "Iterator to erased element"
  else
    match rhs.current, it.current with
    | none, none => pure .eq
    | none, some _ => pure .lt
    | some _, none => pure .gt
    | some (_, b), some (_, a) => pure (compare a b)

/-- `kv_it_key_compare(key, size)`. -/
def kvItKeyCompare (key : Bytes) : Except String Ordering :=
  match it.current with
  | none => pure .gt
  | some (id, k) =>
    if idx.isRemoved id then throw "Iterator to erased element"
    else pure (compare k key)

/-- `kv_it_move_to_end()`. -/
def kvItMoveToEnd : KvIterator × KvItStat :=
  ({ it with current := none }, .iteratorEnd)

/-- `kv_it_next`: from an object to the next one of the index, from the end to the first object
at or above the prefix. -/
def kvItNext : Except String (KvIterator × KvItStat × ℕ × ℕ) :=
  match it.current with
  | some (id, k) =>
    if idx.isRemoved id then throw "Iterator to erased element"
    else pure (it.moveTo idx (idx.objects.firstGt (kvKeyOf it.contract k)))
  | none => pure (it.moveTo idx (idx.objects.firstGe (kvKeyOf it.contract it.itPrefix)))

/-- `kv_it_prev`: from an object to the one before it in the index, from the end to the one
before the `upper_bound` of the prefix; nothing comes before the index's first object. -/
def kvItPrev : Except String (KvIterator × KvItStat × ℕ × ℕ) := do
  let pos ← match it.current with
    | some (id, k) =>
      if idx.isRemoved id then throw "Iterator to erased element"
      else pure (some (kvKeyOf it.contract k))
    | none => pure (idx.objects.firstWhere (prefixBelow it.contract it.itPrefix))
  match idx.objects.lastBefore pos with
  | some K => pure (it.moveTo idx (some K))
  | none => pure it.toEnd

/-- `kv_it_lower_bound(key, size)`: the key is raised to the prefix
(`std::max(key, prefix, unsigned_blob_less{})`). -/
def kvItLowerBound (key : Bytes) : KvIterator × KvItStat × ℕ × ℕ :=
  let clampedKey := if key < it.itPrefix then it.itPrefix else key
  it.moveTo idx (idx.objects.firstGe (kvKeyOf it.contract clampedKey))

/-- `kv_it_key(offset, dest, size, actual_size)`. -/
def kvItKey (offset size : ℕ) : Except String (KvItStat × Bytes × ℕ) :=
  match it.current with
  | none => pure (.iteratorEnd, [], 0)
  | some (id, k) =>
    if idx.isRemoved id then throw "Iterator to erased element"
    else pure (.iteratorOk, copyOut k offset size, k.length)

/-- `kv_it_value(offset, dest, size, actual_size)`: the value of the object, which, not being
removed, is in the index under its key. -/
def kvItValue (offset size : ℕ) : Except String (KvItStat × Bytes × ℕ) :=
  match it.current with
  | none => pure (.iteratorEnd, [], 0)
  | some (id, k) =>
    if idx.isRemoved id then throw "Iterator to erased element"
    else
      let v := ((idx.find it.contract k).map (·.kvValue)).getD []
      pure (.iteratorOk, copyOut v offset size, v.length)

end KvIterator

/-- `kv_context`. `KvDatabaseConfig` holds the size limits; `max_iterators` is beside it. -/
structure KvContext where
  db : KvIndex
  receiver : Name
  limits : KvDatabaseConfig
  maxIterators : UInt32
  numIterators : ℕ
  tempDataBuffer : Option Bytes

namespace KvContext

variable (ctx : KvContext)

/-- `kv_erase(contract, key, key_size)`. -/
def kvErase (contract : UInt64) (key : Bytes) : Except String KvContext :=
  if Name.mk contract ≠ ctx.receiver then throw "Can not write to this key"
  else
    match ctx.db.find ⟨contract⟩ key with
    | none => pure { ctx with tempDataBuffer := none }
    | some node => pure { ctx with tempDataBuffer := none, db := ctx.db.remove ⟨contract⟩ key node }

/-- `kv_set(contract, key, key_size, value, value_size, payer)`. -/
def kvSet (contract : UInt64) (key value : Bytes) : Except String KvContext :=
  if Name.mk contract ≠ ctx.receiver then throw "Can not write to this key"
  else if key.length > ctx.limits.maxKeySize.toNat then throw "Key too large"
  else if value.length > ctx.limits.maxValueSize.toNat then throw "Value too large"
  else
    match ctx.db.find ⟨contract⟩ key with
    | some node =>
      pure { ctx with tempDataBuffer := none, db := ctx.db.modify ⟨contract⟩ key node value }
    | none => pure { ctx with tempDataBuffer := none, db := ctx.db.create ⟨contract⟩ key value }

/-- `kv_get(contract, key, key_size, value_size)`: whether the key has a value, and its size. -/
def kvGet (contract : UInt64) (key : Bytes) : KvContext × Bool × ℕ :=
  match ctx.db.find ⟨contract⟩ key with
  | some node => ({ ctx with tempDataBuffer := some node.kvValue }, true, node.kvValue.length)
  | none => ({ ctx with tempDataBuffer := none }, false, 0)

/-- `kv_get_data(offset, data, data_size)`: the bytes copied, and the size of the buffer. -/
def kvGetData (offset dataSize : ℕ) : Bytes × ℕ :=
  (copyOut (ctx.tempDataBuffer.getD []) offset dataSize, (ctx.tempDataBuffer.getD []).length)

/-- `kv_it_create(contract, prefix, size)`. -/
def kvItCreate (contract : UInt64) (p : Bytes) : Except String (KvContext × KvIterator) :=
  if ctx.numIterators ≥ ctx.maxIterators.toNat then throw "Too many iterators"
  else if p.length > ctx.limits.maxKeySize.toNat then throw "Prefix too large"
  else pure ({ ctx with numIterators := ctx.numIterators + 1 }, ⟨⟨contract⟩, p, none⟩)

end KvContext

/-- The key-value part of `apply_context`: its `kv_context`, and the iterator handles
(`kv_iterators`, whose slot `0` is reserved). -/
structure KvApplyContext where
  kvContext : KvContext
  kvIterators : List (Option KvIterator)

namespace KvApplyContext

variable (s : KvApplyContext)

/-- `kv_check_iterator(itr)`. -/
def checkIterator (itr : ℕ) : Except String KvIterator :=
  match iteratorAt s.kvIterators itr with
  | some it => pure it
  | none => throw "Bad key-value iterator"

/-- The context with the iterator of a handle replaced. -/
def setIterator (itr : ℕ) (it : KvIterator) : KvApplyContext :=
  { s with kvIterators := s.kvIterators.set itr (some it) }

/-- One call of an intrinsic (`apply_context::kv_*`). -/
def call : KvCall → Except String (KvResult × KvApplyContext)
  | .kvErase contract key => do
    let ctx ← s.kvContext.kvErase contract key
    pure (.written, { s with kvContext := ctx })
  | .kvSet contract key value => do
    let ctx ← s.kvContext.kvSet contract key value
    pure (.written, { s with kvContext := ctx })
  | .kvGet contract key =>
    let r := s.kvContext.kvGet contract key
    pure (.found r.2.1 r.2.2, { s with kvContext := r.1 })
  | .kvGetData offset dataSize =>
    let r := s.kvContext.kvGetData offset dataSize
    pure (.copied r.1 r.2, s)
  | .kvItCreate contract p =>
    -- no handle is destroyed, so the next one is a new slot
    if s.kvIterators.length > 0xFFFFFFFF then throw "Too many iterators"
    else do
      let r ← s.kvContext.kvItCreate contract p
      pure (.created s.kvIterators.length, ⟨r.1, s.kvIterators ++ [some r.2]⟩)
  | .kvItStatus itr => do
    let it ← s.checkIterator itr
    pure (.status (it.kvItStatus s.kvContext.db), s)
  | .kvItCompare itrA itrB => do
    let a ← s.checkIterator itrA
    let b ← s.checkIterator itrB
    let o ← a.kvItCompare s.kvContext.db b
    pure (.compared o, s)
  | .kvItKeyCompare itr key => do
    let it ← s.checkIterator itr
    let o ← it.kvItKeyCompare s.kvContext.db key
    pure (.compared o, s)
  | .kvItMoveToEnd itr => do
    let it ← s.checkIterator itr
    pure (.status it.kvItMoveToEnd.2, s.setIterator itr it.kvItMoveToEnd.1)
  | .kvItNext itr => do
    let it ← s.checkIterator itr
    let r ← it.kvItNext s.kvContext.db
    pure (.moved r.2.1 r.2.2.1 r.2.2.2, s.setIterator itr r.1)
  | .kvItPrev itr => do
    let it ← s.checkIterator itr
    let r ← it.kvItPrev s.kvContext.db
    pure (.moved r.2.1 r.2.2.1 r.2.2.2, s.setIterator itr r.1)
  | .kvItLowerBound itr key => do
    let it ← s.checkIterator itr
    let r := it.kvItLowerBound s.kvContext.db key
    pure (.moved r.2.1 r.2.2.1 r.2.2.2, s.setIterator itr r.1)
  | .kvItKey itr offset size => do
    let it ← s.checkIterator itr
    let r ← it.kvItKey s.kvContext.db offset size
    pure (.read r.1 r.2.1 r.2.2, s)
  | .kvItValue itr offset size => do
    let it ← s.checkIterator itr
    let r ← it.kvItValue s.kvContext.db offset size
    pure (.read r.1 r.2.1 r.2.2, s)

end KvApplyContext

end Eosio.Chain
