import Mathlib
import TaurusNode.Lib.Bytes

/-!
# The state history log

A model of `state_history_log` (libraries/state_history/log.cpp and
include/eosio/state_history/log.hpp) and of the `log_catalog` it splits its files into
(libraries/chain/include/eosio/chain/log_catalog.hpp).

The log file is a list of bytes, one entry after another: a 48-byte
`state_history_log_header` (magic, block id, payload size, little-endian), the payload, and the
entry's start position as an 8-byte suffix. The index file is a list of 8-byte words, the start
position of each block's entry from `_begin_block` on; it is only ever read and cut at whole
words.

* `write_entry` checks that the block follows the log (`write_entry_header`), truncates the log
  back to the block on a fork (`truncate`, which may bring a bundle back from the catalog),
  appends the header with a zero size, the payload and the suffix, back-patches the size, and
  appends the position to the index (`write_entry_position`); every `stride` blocks the files go
  into the catalog (`split_log`).
* `recover_blocks` scans a damaged log from the start and cuts it after the last entry that is
  well formed.

Positions are naturals: file sizes are below `2^63` (`off_t`), so the `uint64_t` sums of the
recovery scan, each of at most three values bounded by the size, do not wrap. What is written
keeps the source's widths: the suffix and size fields are the low 64 bits, the index words are
`uint64_t`, and block numbers are `uint32_t`.
-/

namespace Eosio

open Bytes

/-- `chain::block_id_type`: 32 bytes. -/
structure BlockId where
  bytes : List UInt8
  length_bytes : bytes.length = 32
deriving DecidableEq

/-- `block_header::num_from_id`: the first four bytes of the id, big-endian. -/
def numFromId (id : BlockId) : UInt32 :=
  (ofListLE (id.bytes.take 4).reverse).toUInt32

/-- `"ship"_n.to_uint64_t()`. -/
def shipName : UInt64 := 0xc35d500000000000

/-- `ship_magic(version)`. -/
def shipMagic (version : UInt32) : UInt64 :=
  shipName ||| version.toUInt64

/-- `is_ship(magic)`: the high 32 bits are those of `"ship"_n`. -/
def isShip (magic : UInt64) : Bool :=
  magic &&& 0xffffffff00000000 == shipName

/-- `get_ship_version(magic)`: the low 32 bits. -/
def getShipVersion (magic : UInt64) : UInt32 :=
  magic.toUInt32

/-- `is_ship_supported_version(magic)`. -/
def isShipSupportedVersion (magic : UInt64) : Bool :=
  getShipVersion magic ≤ 1

/-- `ship_current_version`. -/
def shipCurrentVersion : UInt32 := 1

/-- `state_history_log_header_serial_size`. -/
def stateHistoryLogHeaderSerialSize : ℕ := 48

/-- `state_history_log_header`. -/
structure StateHistoryLogHeader where
  magic : UInt64
  blockId : BlockId
  payloadSize : UInt64
deriving DecidableEq

namespace StateHistoryLogHeader

/-- `fc::raw::pack` of a header. -/
def pack (h : StateHistoryLogHeader) : List UInt8 :=
  toListLE 8 h.magic.toNat ++ h.blockId.bytes ++ toListLE 8 h.payloadSize.toNat

/-- `fc::raw::unpack` of a header from the bytes at its position. -/
def unpack (bs : List UInt8) : StateHistoryLogHeader where
  magic := (ofListLE (readAt bs 0 8)).toUInt64
  blockId := ⟨(readAt bs 8 32).takeD 32 0, List.takeD_length _ _ _⟩
  payloadSize := (ofListLE (readAt bs 40 8)).toUInt64

end StateHistoryLogHeader

/-- How the log's operations fail. -/
inductive StateHistoryError
  /-- "missed a block in {name}.log" -/
  | missedBlock
  /-- "missed a fork change in {name}.log" -/
  | missedForkChange
  /-- "corrupt {name}.log (0)": a header read back has a bad magic. -/
  | corruptLog
  /-- "{name}.log has an unsupported version" -/
  | unsupportedVersion
deriving DecidableEq, Repr

/-! ### Recovery -/

/-- The loop of `recover_blocks(size)` from position `pos`: the position after the last well
formed entry, or the exception for a header with the ship magic and an unsupported version. Each
round moves past a whole entry, so the scan ends. -/
def recoverLoop (log : List UInt8) (pos : ℕ) : Except StateHistoryError ℕ :=
  if hsize : log.length < pos + stateHistoryLogHeaderSerialSize then .ok pos
  else
    let header := StateHistoryLogHeader.unpack (log.drop pos)
    if hentry : !isShip header.magic || !isShipSupportedVersion header.magic ||
        log.length < header.payloadSize.toNat ||
        log.length < pos + stateHistoryLogHeaderSerialSize + header.payloadSize.toNat + 8 then
      if isShip header.magic && !isShipSupportedVersion header.magic then .error .unsupportedVersion
      else .ok pos
    else
      let suffix := ofListLE (readAt log (pos + stateHistoryLogHeaderSerialSize + header.payloadSize.toNat) 8)
      if suffix ≠ pos then .ok pos
      else recoverLoop log (pos + stateHistoryLogHeaderSerialSize + header.payloadSize.toNat + 8)
termination_by log.length - pos
decreasing_by
  simp only [Bool.or_eq_true, Bool.not_eq_true', decide_eq_true_eq, not_or] at hentry
  omega

/-- `recover_blocks(size)`: the log cut after the last well formed entry. The check that follows,
`get_last_block(pos)`, reads the last entry back and is left out. -/
def recoverBlocks (log : List UInt8) : Except StateHistoryError (List UInt8) :=
  (log.take ·) <$> recoverLoop log 0

/-! ### The catalog -/

/-- A log and index bundle of the catalog, under the key of its first block. -/
structure LogBundle where
  firstBlock : UInt32
  lastBlock : UInt32
  log : List UInt8
  index : List UInt64
deriving DecidableEq

/-- `log_catalog`: its bundles in the order of their first block, and `max_retained_files`. -/
structure LogCatalog where
  collection : List LogBundle
  maxRetainedFiles : UInt32
deriving DecidableEq

namespace LogCatalog

variable (c : LogCatalog)

/-- `flat_map::emplace`: nothing when the key is there, a sorted insertion otherwise. -/
def emplace (collection : List LogBundle) (bundle : LogBundle) : List LogBundle :=
  if collection.any (·.firstBlock = bundle.firstBlock) then collection
  else collection.orderedInsert (fun a b => a.firstBlock ≤ b.firstBlock) bundle

/-- `add(start_block_num, end_block_num, dir, name)`: the bundle goes in, the oldest ones out
beyond `max_retained_files`. -/
def add (bundle : LogBundle) : LogCatalog :=
  let collection :=
    if c.maxRetainedFiles.toNat ≤ c.collection.length then
      c.collection.drop
        (if 0 < c.maxRetainedFiles then c.collection.length - c.maxRetainedFiles.toNat + 1
          else c.collection.length)
    else c.collection
  if 0 < c.maxRetainedFiles then { c with collection := emplace collection bundle }
  else { c with collection }

/-- `truncate(block_num, new_name)`: the bundles after `block_num` are removed, and the one
holding it, if any, is taken out to be renamed over the log. -/
def truncate (blockNum : UInt32) : LogCatalog × Option LogBundle :=
  -- the bundles before `upper_bound(block_num)`
  let below := c.collection.takeWhile (·.firstBlock ≤ blockNum)
  match below.getLast? with
  | none => ({ c with collection := [] }, none)
  | some b =>
    if b.lastBlock < blockNum then ({ c with collection := below }, none)
    else ({ c with collection := below.dropLast }, some b)

end LogCatalog

/-! ### Writing -/

/-- The fields of `state_history_log` that writing reads and changes: the `stride`, the catalog,
the log and index files, `_begin_block`, `_end_block` and `last_block_id`. -/
structure StateHistoryLog where
  stride : UInt32
  catalog : LogCatalog
  log : List UInt8
  index : List UInt64
  beginBlock : UInt32
  endBlock : UInt32
  lastBlockId : BlockId
deriving DecidableEq

/-- `block_id_type{}`. -/
def zeroBlockId : BlockId := ⟨List.replicate 32 0, List.length_replicate⟩

/-- A log opened on an empty file, with no bundle in the catalog: `_begin_block` and
`_end_block` are zero. -/
def StateHistoryLog.empty (stride maxRetainedFiles : UInt32) : StateHistoryLog :=
  ⟨stride, ⟨[], maxRetainedFiles⟩, [], [], 0, 0, zeroBlockId⟩

namespace StateHistoryLog

variable (s : StateHistoryLog)

/-- `get_pos(block_num)`: the index word of the block. -/
def getPos (blockNum : UInt32) : UInt64 :=
  s.index.getD (blockNum - s.beginBlock).toNat 0

/-- `get_entry_header_i(block_num)`: the header at the block's position, read with the version
check. -/
def getEntryHeaderI (blockNum : UInt32) : Except StateHistoryError StateHistoryLogHeader :=
  let header := StateHistoryLogHeader.unpack (s.log.drop (s.getPos blockNum).toNat)
  if isShip header.magic && isShipSupportedVersion header.magic then .ok header
  else .error .corruptLog

/-- The files after the catalog's truncation: the bundle holding the block, if there is one,
is renamed over the log and its index, and only a nonzero first block becomes
`_begin_block`. -/
def restore : Option LogBundle → StateHistoryLog
  | some b =>
    if 0 < b.firstBlock then { s with log := b.log, index := b.index, beginBlock := b.firstBlock }
    else { s with log := b.log, index := b.index }
  | none => s

/-- The second half of `truncate(block_num)`: empty files from `block_num` when it is not after
`_begin_block`, and otherwise the files cut at the block's position. -/
def cutBefore (blockNum : UInt32) : StateHistoryLog :=
  if blockNum ≤ s.beginBlock then
    { s with log := [], index := [], beginBlock := blockNum, endBlock := blockNum }
  else
    { s with log := s.log.take (s.getPos blockNum).toNat
             index := s.index.take (blockNum - s.beginBlock).toNat
             endBlock := blockNum }

/-- `truncate(block_num)`: the log ends before `block_num`. -/
def truncate (blockNum : UInt32) : StateHistoryLog :=
  let (catalog, restored) := s.catalog.truncate blockNum
  (({ s with catalog } : StateHistoryLog).restore restored).cutBefore blockNum

/-- The checks of `write_entry_header` that the block's previous id is the one the log ends
with. -/
def checkPrevious (blockNum : UInt32) (prevId : BlockId) : Except StateHistoryError Unit :=
  if s.beginBlock ≠ s.endBlock ∧ s.beginBlock < blockNum then
    if blockNum = s.endBlock then
      if prevId = s.lastBlockId then .ok () else .error .missedForkChange
    else
      (s.getEntryHeaderI (blockNum - 1)).bind fun prev =>
        if prevId = prev.blockId then .ok () else .error .missedForkChange
  else .ok ()

/-- `write_entry_header(header, prev_id)`: the log after the header is written, with the block
number and the entry's start position. -/
def writeEntryHeader (header : StateHistoryLogHeader) (prevId : BlockId) :
    Except StateHistoryError (StateHistoryLog × UInt32 × ℕ) :=
  let blockNum := numFromId header.blockId
  if s.beginBlock = s.endBlock ∨ blockNum ≤ s.endBlock then
    (s.checkPrevious blockNum prevId).map fun _ =>
      let s := if blockNum < s.endBlock then s.truncate blockNum else s
      ({ s with log := s.log ++ header.pack }, blockNum, s.log.length)
  else .error .missedBlock

/-- `split_log()`: the files go into the catalog, and new empty ones start at `_end_block`. -/
def splitLog : StateHistoryLog :=
  { s with catalog := s.catalog.add ⟨s.beginBlock, s.endBlock - 1, s.log, s.index⟩
           log := []
           index := []
           beginBlock := s.endBlock }

/-- `write_entry_position(header, pos, block_num)`: the suffix, the back-patched payload size and
the index word. -/
def writeEntryPosition (header : StateHistoryLogHeader) (pos : ℕ) (blockNum : UInt32) :
    StateHistoryLog :=
  let payloadStartPos := pos + stateHistoryLogHeaderSerialSize
  let payloadSize := s.log.length - payloadStartPos
  let log := writeAt (s.log ++ toListLE 8 pos) (payloadStartPos - 8) (toListLE 8 payloadSize)
  let s := { s with log
                    index := s.index ++ [pos.toUInt64]
                    beginBlock := if s.beginBlock = s.endBlock then blockNum else s.beginBlock
                    endBlock := blockNum + 1
                    lastBlockId := header.blockId }
  if blockNum % s.stride = 0 then s.splitLog else s

/-- `write_entry(id, prev_id, data)`, `payload` being what `write_payload` writes. -/
def writeEntry (id prevId : BlockId) (payload : List UInt8) :
    Except StateHistoryError StateHistoryLog :=
  let header : StateHistoryLogHeader := ⟨shipMagic shipCurrentVersion, id, 0⟩
  (s.writeEntryHeader header prevId).map fun (s, blockNum, startPos) =>
    ({ s with log := s.log ++ payload } : StateHistoryLog).writeEntryPosition header startPos blockNum

end StateHistoryLog

/-- One call of `write_entry`. -/
structure LogWrite where
  id : BlockId
  prevId : BlockId
  payload : List UInt8

/-- A sequence of `write_entry` calls, none of which throws. -/
def StateHistoryLog.run (s : StateHistoryLog) (writes : List LogWrite) :
    Except StateHistoryError StateHistoryLog :=
  writes.foldlM (fun s w => s.writeEntry w.id w.prevId w.payload) s

end Eosio
