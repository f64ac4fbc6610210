import Mathlib
import TaurusNode.Lib.PartialRun

/-!
# The block log

A model of `block_log` (libraries/chain/block_log.cpp) when it keeps files, that
is with a positive `stride`: the current `blocks.log` and `blocks.index`, the
catalog of the files split off before them, the `head` block, and the
`future_version` in which `create_append_future` encodes.

A block is written as one entry, whose bytes `create_block_buffer` makes in one
of two formats chosen by a version: the `signed_block_v0` serialization below
version 4, and from version 4 the entry size, the compression and the pruned
block. The model keeps an entry as its block and its format (`BlockBuffer`),
and reads an entry back (`readBlock`) only in the format it was written in.

`append(b)` encodes the block in the version of the current file.
`log_irreversible` instead creates a future for each block of a branch, which
encodes it in `future_version`, and then appends the futures in order. Both
appends split the files after a block whose number is a multiple of the stride,
and the new files have the latest version.
-/

namespace Eosio.Chain

/-- `pruned_transaction_version`: from this version on, entries hold pruned blocks. -/
def prunedTransactionVersion : UInt32 := 4

/-- `block_log::max_supported_version`. -/
def maxSupportedVersion : UInt32 := prunedTransactionVersion

/-- The two encodings of a block that `create_block_buffer` makes. -/
inductive EntryFormat
  /-- `fc::raw::pack` of the `signed_block_v0` of the block. -/
  | signedBlockV0
  /-- `pack(block, compression)`: the entry size, the compression, and the pruned block. -/
  | prunedBlock
deriving DecidableEq, Repr

/-- The encoding of a version, as `create_block_buffer` and `read_block` choose it. -/
def entryFormat (version : UInt32) : EntryFormat :=
  if version ≥ prunedTransactionVersion then .prunedBlock else .signedBlockV0

/-- The bytes of one entry, as the block and the encoding it is in. The two encodings of a block
differ (a pruned entry starts with its size), so two entries have the same bytes exactly when they
are equal here. -/
structure BlockBuffer (B : Type) where
  format : EntryFormat
  block : B
deriving DecidableEq, Repr

variable {B : Type}

/-- `create_block_buffer(b, version, none)`. -/
def createBlockBuffer (b : B) (version : UInt32) : BlockBuffer B :=
  ⟨entryFormat version, b⟩

/-- `block_log_preamble`, without its chain context. -/
structure BlockLogPreamble where
  version : UInt32
  firstBlockNum : UInt32
deriving DecidableEq, Repr

/-- A `blocks.log` with its `blocks.index`: the preamble and the entries in order. The index holds
the position of each entry, so the entries determine it. -/
structure LogFile (B : Type) where
  preamble : BlockLogPreamble
  entries : List (BlockBuffer B)
deriving DecidableEq, Repr

/-- A pair of files of the catalog, under the number of its last block. -/
structure CatalogEntry (B : Type) where
  lastBlockNum : UInt32
  file : LogFile B
deriving DecidableEq, Repr

/-- `block_log_impl` with a positive `stride`. -/
structure BlockLog (B : Type) where
  stride : ℕ
  stride_pos : 0 < stride
  file : LogFile B
  catalog : List (CatalogEntry B)
  genesisWrittenToBlockLog : Bool
  futureVersion : UInt32
  head : Option B

namespace BlockLog

/-- What the block log holds: the current files, the catalog and the head block. -/
def contents (log : BlockLog B) : LogFile B × List (CatalogEntry B) × Option B :=
  (log.file, log.catalog, log.head)

/-- The constructor on an empty `blocks.log`: nothing may be appended before `reset`, and
`future_version` has its initial value. -/
def empty (stride : ℕ) (h : 0 < stride) : BlockLog B :=
  ⟨stride, h, ⟨⟨0, 0⟩, []⟩, [], false, prunedTransactionVersion, none⟩

/-- The constructor on a nonempty `blocks.log`: `future_version` is the version of the file, and
`read_head` reads its last entry. -/
def ofFile (stride : ℕ) (h : 0 < stride) (catalog : List (CatalogEntry B)) (file : LogFile B) :
    BlockLog B :=
  ⟨stride, h, file, catalog, true, file.preamble.version, file.entries.getLast?.map (·.block)⟩

/-- `block_log_impl::reset(first_bnum, chain_context)`: empty files whose preamble has the default
version (`block_log::set_version`). -/
def reset (log : BlockLog B) (defaultVersion firstBnum : UInt32) : BlockLog B :=
  { log with
    file := ⟨⟨defaultVersion, firstBnum⟩, []⟩
    futureVersion := defaultVersion
    genesisWrittenToBlockLog := true }

/-- `split_log`: the current files join the catalog, and new files of the latest version start
after the head block. -/
def splitLog (log : BlockLog B) (headBlockNum : UInt32) : BlockLog B :=
  { log with
    catalog := log.catalog ++ [⟨headBlockNum, log.file⟩]
    file := ⟨⟨maxSupportedVersion, headBlockNum + 1⟩, []⟩ }

variable (blockNum : B → UInt32)

/-- What both `append`s do with a block and its buffer: the two checks, `write_log_entry`, and a
split after a block whose number is a multiple of the stride. -/
def writeBlock (log : BlockLog B) (b : B) (buffer : BlockBuffer B) : Option (BlockLog B) :=
  -- "Cannot append to block log until the genesis is first written"
  if !log.genesisWrittenToBlockLog then none
  -- "Append to index file occuring at wrong position.": one index entry per earlier block
  else if log.file.entries.length ≠ (blockNum b - log.file.preamble.firstBlockNum).toNat then none
  else
    let log := { log with
      file := { log.file with entries := log.file.entries ++ [buffer] }
      head := some b }
    if (blockNum b).toNat % log.stride = 0 then some (log.splitLog (blockNum b)) else some log

/-- `block_log_impl::append(b, none)`: the block in the version of the current file. -/
def append (log : BlockLog B) (b : B) : Option (BlockLog B) :=
  log.writeBlock blockNum b (createBlockBuffer b log.file.preamble.version)

/-- `create_append_future(b, none)`: `future_version` becomes the latest version at a block whose
number is a multiple of the stride, and the block is encoded in it. -/
def createAppendFuture (log : BlockLog B) (b : B) : BlockLog B × (B × BlockBuffer B) :=
  let futureVersion :=
    if log.stride = 0 ∨ (blockNum b).toNat % log.stride = 0 then maxSupportedVersion
    else log.futureVersion
  ({ log with futureVersion }, (b, createBlockBuffer b futureVersion))

/-- `block_log_impl::append(future)`: the block and the buffer the future made. -/
def appendFuture (log : BlockLog B) (f : B × BlockBuffer B) : Option (BlockLog B) :=
  log.writeBlock blockNum f.1 f.2

/-- `block_log::append(b, none)` on each block in turn. -/
def appendAll (log : BlockLog B) (bs : List B) : Option (BlockLog B) :=
  bs.foldlM (append blockNum) log

/-- The first loop of `log_irreversible`: a future for each block, in order. -/
def createAppendFutures (log : BlockLog B) : List B → BlockLog B × List (B × BlockBuffer B)
  | [] => (log, [])
  | b :: bs =>
    let created := log.createAppendFuture blockNum b
    let rest := created.1.createAppendFutures bs
    (rest.1, created.2 :: rest.2)

/-- The second loop of `log_irreversible`: `blog.append` on each future in turn. -/
def appendFutures (log : BlockLog B) (fs : List (B × BlockBuffer B)) : Option (BlockLog B) :=
  fs.foldlM (appendFuture blockNum) log

/-- The block log part of `log_irreversible`: all futures first, then their appends. -/
def logIrreversible (log : BlockLog B) (bs : List B) : Option (BlockLog B) :=
  let created := log.createAppendFutures blockNum bs
  created.1.appendFutures blockNum created.2

/-- `read_block(ds, version, block_num)`: an entry gives its block back only when it is read in the
encoding it was written in, and the block must have the expected number ("Wrong block was read
from block log."). -/
def readBlock (version : UInt32) (buffer : BlockBuffer B) (expectBlockNum : UInt32) : Option B :=
  if buffer.format = entryFormat version ∧ blockNum buffer.block = expectBlockNum then
    some buffer.block
  else none

/-- The entry of block `n` in a file, found through the index. -/
def entryOf (file : LogFile B) (n : UInt32) : Option (BlockBuffer B) :=
  file.entries[(n - file.preamble.firstBlockNum).toNat]?

/-- `log_catalog::get_block_position`: the last file of the catalog that starts at or before `n`,
if it ends at or after `n`. -/
def catalogEntryFor (catalog : List (CatalogEntry B)) (n : UInt32) : Option (CatalogEntry B) :=
  match (catalog.filter fun e => e.file.preamble.firstBlockNum ≤ n).getLast? with
  | some e => if n ≤ e.lastBlockNum then some e else none
  | none => none

/-- `block_log_impl::read_block_by_num`: from the current files when they hold the block
(`get_block_pos`), from the catalog otherwise. -/
def readBlockByNum (log : BlockLog B) (n : UInt32) : Option B :=
  if (log.head.any fun h => n ≤ blockNum h) ∧ log.file.preamble.firstBlockNum ≤ n then
    (entryOf log.file n).bind fun buffer => readBlock blockNum log.file.preamble.version buffer n
  else
    (catalogEntryFor log.catalog n).bind fun e =>
      (entryOf e.file n).bind fun buffer => readBlock blockNum e.file.preamble.version buffer n

end BlockLog

end Eosio.Chain
