import Mathlib
import TaurusNode.Chain.ForkDatabase
import TaurusNode.Chain.BlockHeaderState

/-!
# Closing and reopening the fork database

A model of `fork_database::close` and `fork_database::open`
(libraries/chain/fork_database.cpp). `close` writes the magic number, the version, the root's
header state, the blocks of the index and the head's id; the blocks come in ascending
`(dpos_irreversible_blocknum, block_num)` order, the two halves of the `by_lib_block_num` index
(validated, then unvalidated) being iterated backwards and merged. `open` checks the magic number
and the version, resets the database to the root, `add`s the blocks back in file order (each
needing its parent), restores the head and checks that it is still the best block.

The file is kept as its decoded fields (`fc::raw` packing and unpacking are taken to be inverse).
The protocol-feature validator `open` passes to `add` is taken to accept every block.

The written order is a parent-before-child order only when a block's
`dpos_irreversible_blocknum` is never below its parent's; `block_header_state::next` gives no
such guarantee across a schedule promotion (`next_next_dposIrreversibleBlocknum_lt`), and then
`open` meets a block before its parent and throws `unlinkable_block_exception`
(`close_open_laggingFork`).
-/

namespace Eosio.Chain

/-- `fork_database::magic_number`. -/
def ForkDatabase.magicNumber : UInt32 := 0x30510FDB

/-- `fork_database::min_supported_version`. -/
def ForkDatabase.minSupportedVersion : UInt32 := 1

/-- `fork_database::max_supported_version`. -/
def ForkDatabase.maxSupportedVersion : UInt32 := 1

/-- The contents of `fork_db.dat`, field by field. -/
structure ForkDatabaseFile (I : Type) where
  totem : UInt32
  version : UInt32
  root : BlockHeaderState I
  blocks : List (BlockState I)
  headId : I
deriving DecidableEq, Repr

variable {I : Type}

/-- The loop of `close`: while blocks of either half remain, write the unvalidated one when the
validated one is `first_preferred` over it, and the validated one otherwise; one block a round,
for as many rounds as there are blocks. -/
def closeLoop : ℕ → List (BlockState I) → List (BlockState I) → List (BlockState I)
  | 0, _, _ => []
  | _ + 1, [], [] => []
  | fuel + 1, v :: validated, [] => v :: closeLoop fuel validated []
  | fuel + 1, [], u :: unvalidated => u :: closeLoop fuel [] unvalidated
  | fuel + 1, v :: validated, u :: unvalidated =>
    if firstPreferred v u then u :: closeLoop fuel (v :: validated) unvalidated
    else v :: closeLoop fuel validated (u :: unvalidated)

section Operations

variable [LinearOrder I]

/-- The `by_lib_block_num` view of an index, `begin()` first. -/
def libBlockNumOrder (index : List (BlockState I)) : List (BlockState I) :=
  index.insertionSort fun a b => libBlockNumKey a ≤ libBlockNumKey b

namespace ForkDatabase

variable (db : ForkDatabase I)

/-- `close`: the validated half `[begin, lower_bound(false))` and the unvalidated half
`[lower_bound(false), end)` of `by_lib_block_num`, each from its last block back, merged. -/
def close : ForkDatabaseFile I :=
  let indx := libBlockNumOrder db.index
  let unvalidated := (indx.filter fun b => !b.validated).reverse
  let validated := (indx.filter fun b => b.validated).reverse
  ⟨ForkDatabase.magicNumber, ForkDatabase.maxSupportedVersion, db.root.toBlockHeaderState,
    closeLoop db.index.length validated unvalidated, db.headId⟩

/-- The head `open` reads back: the root when its id is the root's, and otherwise the block of
the index with that id, which must exist ("could not find head while reconstructing fork
database from file"). -/
def restoreHead (headId : I) : Option (ForkDatabase I) :=
  if db.root.id = headId then some { db with head := .root }
  else (db.getBlock headId).map fun _ => { db with head := .block headId }

/-- The last check of `open`: with no validated candidate the head must be the root ("head not
set to root despite no better option available"), and otherwise the candidate must not be
`first_preferred` over the head ("head not set to best available option available"). -/
def headCheck : Bool :=
  match libBlockNumFront db.index with
  | some candidate =>
    if candidate.validated then
      match db.headState with
      | some head => !firstPreferred candidate head
      | none => false
    else decide (db.headId = db.root.id)
  | none => decide (db.headId = db.root.id)

end ForkDatabase

/-- `open` on a file: `none` where the source throws. Every block is `add`ed without
`ignore_duplicate`, so a block whose parent is neither the root nor already added throws
`unlinkable_block_exception`. -/
def ForkDatabase.«open» (file : ForkDatabaseFile I) : Option (ForkDatabase I) :=
  -- "has unexpected magic number", "Unsupported version of fork database file"
  if file.totem = ForkDatabase.magicNumber ∧ ForkDatabase.minSupportedVersion ≤ file.version ∧
      file.version ≤ ForkDatabase.maxSupportedVersion then do
    let db ← file.blocks.foldlM (fun db s => db.add s false) (ForkDatabase.reset file.root)
    let db ← db.restoreHead file.headId
    if db.headCheck then some db else none
  else none

end Operations

/-! ### A fork database that does not survive a restart -/

/-- A fork database block with the header fields `next` computed. -/
def BlockState.ofDpos (id previous : ℕ) (s : DposHeaderState) (validated : Bool) : BlockState ℕ :=
  ⟨⟨id, previous, s.blockNum, s.dposIrreversibleBlocknum⟩, validated, true⟩

/-- Block 201, whose header state `next` builds on `laggingProducerState`. -/
def laggingParent : BlockState ℕ :=
  .ofDpos 201 200 ((laggingProducerState.next 0 0).getD laggingProducerState) false

/-- Block 202, whose LIB is below that of its parent `laggingParent`. -/
def laggingChild : BlockState ℕ :=
  .ofDpos 202 201
    (((laggingProducerState.next 0 0).bind fun s => s.next 0 0).getD laggingProducerState) false

/-- The fork database rooted at block 200 holding blocks 201 and 202. -/
def laggingFork : ForkDatabase ℕ :=
  ⟨[laggingParent, laggingChild],
    ⟨⟨200, 199, laggingProducerState.blockNum, laggingProducerState.dposIrreversibleBlocknum⟩,
      true, false⟩,
    .root⟩

/-- **`close` writes a child before its parent.** The database of `laggingFork` is reached from
`reset` by adding its two blocks; `close` writes block 202 first, its LIB being the lower, and
`open` then throws on it. -/
theorem close_open_laggingFork :
    (ForkDatabase.reset laggingFork.root.toBlockHeaderState).run
        [.add laggingParent false, .add laggingChild false] = some laggingFork ∧
      laggingFork.close.blocks.map (·.id) = [202, 201] ∧
      ForkDatabase.«open» laggingFork.close = none := by
  decide

end Eosio.Chain
