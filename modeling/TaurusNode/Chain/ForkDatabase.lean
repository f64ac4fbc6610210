import Mathlib

/-!
# The fork database

A model of `fork_database` (libraries/chain/fork_database.cpp): the tree of
reversible blocks above the last irreversible block `root`, and the preferred
block `head`.

The index is a `multi_index_container` of block states. Its `by_block_id` view
is a lookup by id (`getBlock`), its `by_prev` view lists the children of an id,
and the front of its `by_lib_block_num` view (`libBlockNumFront`) is the best
block: validated blocks first, then the greatest
`(dpos_irreversible_blocknum, block_num)`, then the smallest id. The model keeps
the index as a list and computes these views from it.

`head` and `root` are `block_state_ptr`s. `head` points either at the root
object or at an object of the index (`HeadRef`), so that marking a block valid
in the index is seen through `head`, and a head that `advance_root` turns into
the root is the root.

Every operation returns `none` where the source throws. `remove_fork` and
`advance_root` follow `previous` links with a fuel of one more than the size of
the index, which is enough unless the links form a cycle, where the source
loops forever.
-/

namespace Eosio.Chain

/-- The fields of `block_header_state` that the fork database reads. -/
structure BlockHeaderState (I : Type) where
  id : I
  /-- `header.previous`. -/
  previous : I
  blockNum : UInt32
  dposIrreversibleBlocknum : UInt32
deriving DecidableEq, Repr

/-- `block_state`: a header state, whether it has been validated, and whether it holds its
signed block (`block != nullptr`). -/
structure BlockState (I : Type) extends BlockHeaderState I where
  validated : Bool
  hasBlock : Bool
deriving DecidableEq, Repr

/-- What the `head` pointer points at: the root object, or the block of the index with an id. -/
inductive HeadRef (I : Type)
  | root
  | block (id : I)
deriving DecidableEq, Repr

/-- `fork_database_impl`: the index, `root` and `head`. -/
structure ForkDatabase (I : Type) where
  index : List (BlockState I)
  root : BlockState I
  head : HeadRef I
deriving DecidableEq, Repr

variable {I : Type}

/-- `first_preferred(lhs, rhs)`: `lhs` has the greater `(dpos_irreversible_blocknum, block_num)`. -/
def firstPreferred (lhs rhs : BlockState I) : Bool :=
  rhs.dposIrreversibleBlocknum < lhs.dposIrreversibleBlocknum ||
    (rhs.dposIrreversibleBlocknum == lhs.dposIrreversibleBlocknum && rhs.blockNum < lhs.blockNum)

/-- The composite key of `by_lib_block_num` as an element of a linear order, smallest first:
validated blocks (`std::greater<bool>`), then the greatest `dpos_irreversible_blocknum` and
`block_num` (`std::greater<uint32_t>`), then the smallest id (`sha256_less`). -/
def libBlockNumKey (b : BlockState I) : Lex (ℕ × Lex (ℤ × Lex (ℤ × I))) :=
  toLex (if b.validated then 0 else 1,
    toLex (-(b.dposIrreversibleBlocknum.toNat : ℤ), toLex (-(b.blockNum.toNat : ℤ), b.id)))

section Operations

variable [LinearOrder I]

/-- `index.get<by_lib_block_num>().begin()`. -/
def libBlockNumFront (index : List (BlockState I)) : Option (BlockState I) :=
  -- the order of the key is the lexicographic one of the linear orders, which computes, whatever
  -- other orders on `ℤ` are in scope
  letI key : LinearOrder (Lex (ℕ × Lex (ℤ × Lex (ℤ × I)))) := inferInstance
  letI : Preorder (Lex (ℕ × Lex (ℤ × Lex (ℤ × I)))) := key.toPartialOrder.toPreorder
  index.argmin libBlockNumKey

namespace ForkDatabase

variable (db : ForkDatabase I)

/-- `get_block`: the block of the index with this id. -/
def getBlock (id : I) : Option (BlockState I) :=
  db.index.find? fun b => b.id == id

/-- `get_block_header`: the root, or the block of the index with this id. -/
def getBlockHeader (id : I) : Option (BlockState I) :=
  if db.root.id = id then some db.root else db.getBlock id

/-- The object `head` points at. -/
def headState : Option (BlockState I) :=
  match db.head with
  | .root => some db.root
  | .block id => db.getBlock id

/-- `head->id`. -/
def headId : I :=
  match db.head with
  | .root => db.root.id
  | .block id => id

/-- `reset`: an empty index under a validated root, which is also the head. The root is built
from a header state and holds no signed block. -/
def reset (rootBhs : BlockHeaderState I) : ForkDatabase I :=
  ⟨[], ⟨rootBhs, true, false⟩, .root⟩

/-- `rollback_head_to_root`: no block of the index is validated any more. -/
def rollbackHeadToRoot : ForkDatabase I :=
  { db with index := db.index.map fun b => { b with validated := false }, head := .root }

/-- `fork_database_impl::add` without validation: link the block to a known parent, insert it,
and make the front of `by_lib_block_num` the head when it is validated. -/
def add (n : BlockState I) (ignoreDuplicate : Bool) : Option (ForkDatabase I) :=
  match db.getBlockHeader n.previous with
  -- `unlinkable_block_exception`
  | none => none
  | some _ =>
    match db.getBlock n.id with
    -- "duplicate block added"
    | some _ => if ignoreDuplicate then some db else none
    | none =>
      match libBlockNumFront (db.index ++ [n]) with
      | some candidate =>
        if candidate.validated then some { db with index := db.index ++ [n], head := .block candidate.id }
        else some { db with index := db.index ++ [n] }
      | none => some { db with index := db.index ++ [n] }

/-- `mark_valid`: validate a block of the index, and make the front of `by_lib_block_num` the
head when it is `first_preferred` over the head. -/
def markValid (id : I) : Option (ForkDatabase I) :=
  match db.getBlock id with
  -- "block state not in fork database; cannot mark as valid"
  | none => none
  | some h =>
    if h.validated then some db
    else
      let index := db.index.map fun b => if b.id = id then { b with validated := true } else b
      match libBlockNumFront index, db.headState with
      | some candidate, some head =>
        if firstPreferred candidate head then some { db with index, head := .block candidate.id }
        else some { db with index }
      | _, _ => none

end ForkDatabase

/-- The `remove_queue` loop of `remove_fork`: visit the queue from position `i` on, appending
the ids of the children (`by_prev`) of each visited id. -/
def removeQueue (index : List (BlockState I)) : ℕ → List I → ℕ → Option (List I)
  | 0, queue, i => if i < queue.length then none else some queue
  | fuel + 1, queue, i =>
    if h : i < queue.length then
      removeQueue index fuel
        (queue ++ (index.filter fun b => b.previous == queue[i]).map (·.id)) (i + 1)
    else some queue

namespace ForkDatabase

variable (db : ForkDatabase I)

/-- `remove_fork`: remove a block and every descendant of it, unless the head is among them. -/
def removeFork (id : I) : Option (ForkDatabase I) :=
  match removeQueue db.index (db.index.length + 1) [id] 0 with
  | none => none
  | some queue =>
    -- "removing the block and its descendants would remove the current head block"
    if db.headId ∈ queue then none
    else some { db with index := db.index.filter fun b => b.id ∉ queue }

/-- The first loop of `advance_root`: the `previous` ids from `b` up to the first one that is
not in the index, which must be the root's. -/
def blocksToRemove : ℕ → BlockState I → Option (List I)
  | 0, _ => none
  | fuel + 1, b =>
    match db.getBlock b.previous with
    | some prev => (blocksToRemove fuel prev).map (b.previous :: ·)
    -- "invariant violation: orphaned branch was present in forked database"
    | none => if b.previous = db.root.id then some [b.previous] else none

/-- `advance_root`: a validated block becomes the root. It leaves the index alone, and every
branch off the path from the old root to it goes with `remove_fork`. A head that pointed at the
new root now points at the root. -/
def advanceRoot (id : I) : Option (ForkDatabase I) :=
  match db.getBlock id with
  -- "cannot advance root to a block that does not exist in the fork database"
  | none => none
  | some newRoot =>
    -- "cannot advance root to a block that has not yet been validated"
    if !newRoot.validated then none
    else
      match db.blocksToRemove (db.index.length + 1) newRoot with
      | none => none
      | some toRemove =>
        match toRemove.foldlM (fun db blockId => db.removeFork blockId)
            { db with index := db.index.filter fun b => b.id ≠ id } with
        | none => none
        | some db' =>
          some { db' with root := newRoot, head := if db'.head = .block id then .root else db'.head }

/-- `remove_head`: erase the head block alone, and make the front of `by_lib_block_num` the head,
or the root when it is not validated. -/
def removeHead (id : I) : Option (ForkDatabase I) :=
  match db.headState with
  | none => none
  | some head =>
    -- `is_head_block`: "trying to remove non-head block"
    if !(head.hasBlock && decide (head.id = id)) then none
    else
      match libBlockNumFront (db.index.filter fun b => b.id ≠ id) with
      | some candidate =>
        if candidate.validated then
          some { db with index := db.index.filter fun b => b.id ≠ id, head := .block candidate.id }
        else some { db with index := db.index.filter fun b => b.id ≠ id, head := .root }
      | none => some { db with index := db.index.filter fun b => b.id ≠ id, head := .root }

end ForkDatabase

/-- The operations that change a fork database after `reset`. -/
inductive ForkDatabaseOp (I : Type)
  | add (n : BlockState I) (ignoreDuplicate : Bool)
  | markValid (id : I)
  | advanceRoot (id : I)
  | removeFork (id : I)
  | removeHead (id : I)
  | rollbackHeadToRoot

namespace ForkDatabase

/-- One operation; `none` where the source throws. -/
def apply (db : ForkDatabase I) : ForkDatabaseOp I → Option (ForkDatabase I)
  | .add n ignoreDuplicate => db.add n ignoreDuplicate
  | .markValid id => db.markValid id
  | .advanceRoot id => db.advanceRoot id
  | .removeFork id => db.removeFork id
  | .removeHead id => db.removeHead id
  | .rollbackHeadToRoot => some db.rollbackHeadToRoot

/-- A sequence of operations, none of which throws. -/
def run (db : ForkDatabase I) (ops : List (ForkDatabaseOp I)) : Option (ForkDatabase I) :=
  ops.foldlM (fun db op => db.apply op) db

end ForkDatabase

end Operations

end Eosio.Chain
