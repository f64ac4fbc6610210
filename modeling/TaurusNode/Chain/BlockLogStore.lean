import Mathlib
import TaurusNode.Lib.PartialRun
import TaurusNode.Chain.BlockLogPrune

/-!
# The block log as a store of numbered blocks

What `blocks.log` and `blocks.index` are for: a store of the blocks from the first block number
on, one after the other, from which `read_block_by_num` gives any of them back. This module puts
the byte-level operations of `block_log` side by side with that purpose.

* Reading: `read_block` unpacks the entry at a position and checks its number, `read_head`
  reads the block at the last trailer, and `read_block_by_num` goes through `get_block_pos`
  (the index, between the first block and the head) to `read_block`. On a log whose entries
  hold their blocks (`PrunableLog`), reading a number gives the block of that number when the
  log holds it and nothing otherwise (`PrunableLog.readBlockByNum_eq`).
* Appending: `append` checks that the index ends where the block's number says, packs the block
  into its entry (`pack`, padded to its maximum pruned size) and writes the entry with its
  position after it and in the index (`write_log_entry`). Appending the next block keeps the log
  a `PrunableLog` with one more entry (`PrunableLog.append`).
* The abstract store `BlockStore` is the first block number and the blocks' views (a block's
  header and the digests of its receipts: what pruning must keep). Its operations append the
  next block, check that a pruned block is in range, and drop the blocks before a truncation
  block.

`logRun_refines` relates the two over any run of appends, in-place prunings
(`prune_transactions`) and front trims (`trim_blocklog_front`) whose entries fit their size
fields and whose bytes fit the file: the run of the store succeeds alongside, and every read of the
files afterwards gives the view the store holds for that number. The argument is the budgeted
simulation rule of `PartialRun`, with one step lemma for each operation.

The catalog (`split_log`, the files of earlier strides) is left to the abstract model of
`BlockLog`: the run here is of one pair of files.
-/

namespace Eosio.Chain

open Bytes RawPack

variable {H RH Sig Ext : Type} (F : BlockFormat H RH Sig Ext)

/-! ### Reading -/

/-- `read_block(ds, version, expect_block_num)` on the entry at `pos` of a version-4 file: the
block `unpack` reads, which must have the expected number unless that is zero. -/
def readBlock (version : UInt32) (data : List UInt8) (pos : ℕ) (expectBlockNum : UInt32) :
    Option (SignedBlock H RH Sig Ext) :=
  if version ≥ prunedTransactionVersion then
    (unpackEntry F (data.drop pos)).bind fun entry =>
      if expectBlockNum ≠ 0 ∧ entry.2.blockNum F ≠ expectBlockNum then none else some entry.2
  else none

namespace BlockLogData

/-- `block_log_impl::read_head`: the block at the position the last trailer holds, unless that
is the `npos` of a preamble with no entry after it. -/
def readHead (log : BlockLogData) : Option (SignedBlock H RH Sig Ext) :=
  if log.lastBlockPosition ≠ npos then readBlock F log.version log.data log.lastBlockPosition 0
  else none

/-- The number of the head block, as `get_block_pos` compares with it. -/
def headBlockNum (log : BlockLogData) : Option UInt32 :=
  (log.readHead F).map (SignedBlock.blockNum F)

/-- `block_log_impl::read_block_by_num` from the current files. -/
def readBlockByNum (log : BlockLogData) (index : List UInt8) (blockNum : UInt32) :
    Option (SignedBlock H RH Sig Ext) :=
  let pos := getBlockPos log index (log.headBlockNum F) blockNum
  if pos ≠ npos then readBlock F log.version log.data pos blockNum else none

end BlockLogData

namespace PrunableLog

variable {F} {log : BlockLogData} {index : List UInt8}
  {entries : List (List UInt8 × SignedBlock H RH Sig Ext)}

/-- `read_block` at an entry's position gives its block, with its own number expected or none. -/
theorem readBlock_entry (hlog : PrunableLog F log index entries) {j : ℕ} (hj : j < entries.length)
    {expectBlockNum : UInt32} (hexpect : expectBlockNum = 0 ∨ expectBlockNum = entries[j].2.blockNum F) :
    readBlock F log.version log.data
      (log.firstBlockPosition + entriesLength ((entries.map Prod.fst).take j)) expectBlockNum =
      some entries[j].2 := by
  have hjb : j < (entries.map Prod.fst).length := by simpa using hj
  obtain ⟨rest, hrest⟩ := hlog.wellFormed.drop_entry hjb
  rw [List.getElem_map] at hrest
  have hcheck : ¬ (expectBlockNum ≠ 0 ∧ entries[j].2.blockNum F ≠ expectBlockNum) := by
    rintro ⟨hne, hnum⟩
    rcases hexpect with h | h
    · exact hne h
    · exact hnum h.symm
  rw [readBlock, if_pos hlog.version, hrest,
    (hlog.holds _ (List.getElem_mem hj)).unpackEntry_eq rest, Option.bind_some]
  exact if_neg hcheck

/-- The last trailer of a log with entries is not `npos`: it holds a position inside the file. -/
theorem lastBlockPosition_ne_npos (hlog : PrunableLog F log index entries) :
    log.lastBlockPosition ≠ npos := by
  have hwf := hlog.wellFormed
  have hlen := List.length_pos_of_ne_nil hwf.nonempty
  have hlt := entriesLength_take_lt (show (entries.map Prod.fst).length - 1 <
    (entries.map Prod.fst).length by omega)
  have hfits := hwf.fits
  rw [hwf.length_data] at hfits
  rw [hwf.lastBlockPosition_eq]
  unfold npos
  omega

/-- `read_head` reads the number `last_block_num` reads off the last entry's header bytes. -/
theorem headBlockNum_eq (hlog : PrunableLog F log index entries) :
    log.headBlockNum F = log.lastBlockNum := by
  have hwf := hlog.wellFormed
  have hlen : 0 < entries.length := by simpa using List.length_pos_of_ne_nil hwf.nonempty
  have hj : entries.length - 1 < entries.length := by omega
  have hjb : entries.length - 1 < (entries.map Prod.fst).length := by simpa using hj
  have hpos : log.lastBlockPosition = log.firstBlockPosition +
      entriesLength ((entries.map Prod.fst).take (entries.length - 1)) := by
    rw [hwf.lastBlockPosition_eq, List.length_map]
  have hholds := hlog.holds _ (List.getElem_mem hj)
  rw [BlockLogData.headBlockNum, BlockLogData.readHead, if_pos hlog.lastBlockPosition_ne_npos, hpos,
    hlog.readBlock_entry hj (Or.inl rfl), Option.map_some, BlockLogData.lastBlockNum, hpos,
    hwf.blockNumAt_eq hjb, List.getElem_map, bodyBlockNum_of_le hlog.version,
    hholds.bodyBlockNum_eq]

/-- **Reading a block by number.** `read_block_by_num` gives the block of that number when the
log holds it, and nothing for a number before the first block or after the last. -/
theorem readBlockByNum_eq (hlog : PrunableLog F log index entries) (blockNum : UInt32) :
    log.readBlockByNum F index blockNum =
      if log.firstBlockNum ≤ blockNum then
        (entries[(blockNum - log.firstBlockNum).toNat]?).map Prod.snd
      else none := by
  have hwf := hlog.wellFormed
  obtain ⟨last, hlast, hlastNat⟩ := hwf.lastBlockNum_eq
  have hlen := List.length_pos_of_ne_nil hwf.nonempty
  rw [List.length_map] at hlastNat hlen
  have hfirst := hwf.first_pos
  simp only [BlockLogData.readBlockByNum]
  rw [hlog.headBlockNum_eq, hlast]
  by_cases hlo : log.firstBlockNum ≤ blockNum
  · have hsub : (blockNum - log.firstBlockNum).toNat = blockNum.toNat - log.firstBlockNum.toNat :=
      UInt32.toNat_sub_of_le _ _ hlo
    have hloNat := UInt32.le_iff_toNat_le.mp hlo
    rw [if_pos hlo]
    by_cases hin : (blockNum - log.firstBlockNum).toNat < entries.length
    · -- a block of the log: the index gives its entry, which holds it
      have hhi : blockNum ≤ last := by
        rw [UInt32.le_iff_toNat_le]
        omega
      have hblock : blockNum.toNat = log.firstBlockNum.toNat + (blockNum - log.firstBlockNum).toNat := by
        omega
      have hpos := getBlockPos_eq hwf hlo hhi (by simpa using hin)
      have hne : log.firstBlockPosition +
          entriesLength ((entries.map Prod.fst).take (blockNum - log.firstBlockNum).toNat) ≠ npos := by
        have hlt := entriesLength_take_lt (show (blockNum - log.firstBlockNum).toNat <
          (entries.map Prod.fst).length by simpa using hin)
        have hfits := hwf.fits
        rw [hwf.length_data] at hfits
        unfold npos
        omega
      rw [hpos, if_pos hne, hlog.readBlock_entry hin (Or.inr (hlog.blockNum_getElem hin hblock).symm),
        List.getElem?_eq_getElem hin, Option.map_some]
    · -- after the last block: `get_block_pos` gives `npos`
      have hhi : ¬ blockNum ≤ last := by
        rw [UInt32.le_iff_toNat_le]
        omega
      rw [getBlockPos, if_neg (show ¬ (blockNum ≤ last ∧ blockNum ≥ log.firstBlockNum) from
        fun h => hhi h.1), if_neg (not_not.mpr rfl), List.getElem?_eq_none (by omega),
        Option.map_none]
  · -- before the first block: `get_block_pos` gives `npos`
    rw [if_neg hlo, getBlockPos, if_neg (show ¬ (blockNum ≤ last ∧ blockNum ≥ log.firstBlockNum) from
      fun h => hlo h.2), if_neg (not_not.mpr rfl)]

theorem readBlockByNum_eq_exampleLog :
    exampleLog.readBlockByNum exampleFormat exampleIndex 2 =
      if exampleLog.firstBlockNum ≤ 2 then
        (exampleEntries[((2 : UInt32) - exampleLog.firstBlockNum).toNat]?).map Prod.snd
      else none :=
  exampleLog_prunable.readBlockByNum_eq 2

end PrunableLog

/-! ### Appending -/

namespace BlockLogData

/-- `block_log_impl::write_log_entry`: the entry at the end of the file with its position after
it, and the position at the end of the index. -/
def writeLogEntry (log : BlockLogData) (index blockBuffer : List UInt8) :
    BlockLogData × List UInt8 :=
  ({ log with data := log.data ++ blockBuffer ++ toListLE 8 log.data.length },
    index ++ toListLE 8 log.data.length)

/-- `block_log_impl::append(b, none)` to a log whose genesis is written, between two splits: the
index must end where the block's number says ("Append to index file occuring at wrong
position."), and `create_block_buffer` packs the block of a version-4 log (the `signed_block_v0`
of an older version is not modelled). -/
def append (log : BlockLogData) (index : List UInt8) (b : SignedBlock H RH Sig Ext) :
    Option (BlockLogData × List UInt8) :=
  if index.length ≠ 8 * (b.blockNum F - log.firstBlockNum).toNat then none else
  (if log.version ≥ prunedTransactionVersion then packBody F b else none).map
    (log.writeLogEntry index)

end BlockLogData

/-- **An entry reads back as written.** What `pack` writes for a block, whatever follows it, is
read by `unpack` as the entry's size (its buffer and its trailer) and the block, when the size
fits its four bytes. -/
theorem unpackEntry_packBody {b : SignedBlock H RH Sig Ext} {body : List UInt8}
    (h : packBody F b = some body) (hsize : body.length + 8 < 2 ^ 32) (rest : List UInt8) :
    unpackEntry F (body ++ rest) = some (body.length + 8, b) :=
  (packBody_holdsBlock F h hsize).unpackEntry_eq rest

/-- Block 3 after `exampleLog`, with one transaction. -/
def exampleBlock3 : SignedBlock {l : List UInt8 // l.length = 18} UInt8 UInt8 UInt8 :=
  ⟨exampleHeader 2, .complete, [exampleReceipt [3]], 0⟩

theorem unpackEntry_packBody_exampleBlock3 :
    packBody exampleFormat exampleBlock3 = some ((packBody exampleFormat exampleBlock3).get
        (by decide +kernel)) ∧
      ((packBody exampleFormat exampleBlock3).get (by decide +kernel)).length + 8 < 2 ^ 32 ∧
      unpackEntry exampleFormat ((packBody exampleFormat exampleBlock3).get (by decide +kernel) ++
        toListLE 8 48) =
        some (((packBody exampleFormat exampleBlock3).get (by decide +kernel)).length + 8,
          exampleBlock3) :=
  ⟨(Option.some_get _).symm, by decide +kernel,
    unpackEntry_packBody exampleFormat (Option.some_get _).symm (by decide +kernel) _⟩

namespace PrunableLog

variable {F} {log : BlockLogData} {index : List UInt8}
  {entries : List (List UInt8 × SignedBlock H RH Sig Ext)}

/-- The check of `append` passes only for the block after the last, unless the number wraps to
zero. -/
theorem blockNum_of_append_check (hlog : PrunableLog F log index entries) {blockNum : UInt32}
    (hnum : blockNum ≠ 0) (hcheck : index.length = 8 * (blockNum - log.firstBlockNum).toNat) :
    blockNum.toNat = log.firstBlockNum.toNat + entries.length := by
  have hwf := hlog.wellFormed
  have hfirst := hwf.first_pos
  have hwrap := hwf.no_wrap
  rw [hwf.length_index, List.length_map] at hcheck
  rw [List.length_map] at hwrap
  have hnum' : blockNum.toNat ≠ 0 := fun h => hnum (UInt32.toNat_inj.mp h)
  have hlt := blockNum.toNat_lt
  rw [UInt32.toNat_sub] at hcheck
  -- below the first block the difference wraps past every length the log can have
  by_cases hlo : log.firstBlockNum.toNat ≤ blockNum.toNat
  · rw [show 2 ^ 32 - log.firstBlockNum.toNat + blockNum.toNat =
      (blockNum.toNat - log.firstBlockNum.toNat) + 2 ^ 32 by omega, Nat.add_mod_right,
      Nat.mod_eq_of_lt (by omega)] at hcheck
    omega
  · rw [Nat.mod_eq_of_lt (by omega)] at hcheck
    omega

/-- **Appending the next block.** `append` of a block numbered other than zero, whose entry holds
a header after its size and compression and fits its size field, to a log whose entries hold
their blocks, checks that it is the block after the last, writes its entry and the entry's
position at the ends of the two files, and the log holds one more entry, with that block. -/
theorem append (hlog : PrunableLog F log index entries) {b : SignedBlock H RH Sig Ext}
    {log' : BlockLogData} {index' : List UInt8} (hb : log.append F index b = some (log', index'))
    (hnum : b.blockNum F ≠ 0)
    (hsize : ∀ body, packBody F b = some body → 46 + (4 + 1) ≤ body.length ∧ body.length + 8 < 2 ^ 32)
    (hfits : log'.data.length < 2 ^ 64) :
    (b.blockNum F).toNat = log.firstBlockNum.toNat + entries.length ∧
      ∃ body, packBody F b = some body ∧ (log', index') = log.writeLogEntry index body ∧
        PrunableLog F log' index' (entries ++ [(body, b)]) := by
  have hwf := hlog.wellFormed
  by_cases hcheck : index.length ≠ 8 * (b.blockNum F - log.firstBlockNum).toNat
  · rw [BlockLogData.append, if_pos hcheck] at hb
    cases hb
  rw [BlockLogData.append, if_neg hcheck, if_pos hlog.version] at hb
  obtain ⟨body, hbody, hwrite⟩ := Option.map_eq_some_iff.mp hb
  have hblock := hlog.blockNum_of_append_check hnum (not_not.mp hcheck)
  refine ⟨hblock, body, hbody, hwrite.symm, ?_⟩
  simp only [BlockLogData.writeLogEntry, Prod.mk.injEq] at hwrite
  obtain ⟨rfl, rfl⟩ := hwrite
  have hholds := packBody_holdsBlock F hbody (hsize body hbody).2
  obtain ⟨pre, hpre, hdata⟩ := hwf.layout
  have hend : log.data.length = log.firstBlockPosition + entriesLength (entries.map Prod.fst) :=
    hwf.length_data
  have hlong : 46 + offsetToBlockStart log.version ≤ body.length := by
    rw [offsetToBlockStart, if_pos hlog.version]
    exact (hsize body hbody).1
  refine ⟨⟨⟨pre, hpre, ?_⟩, ?_, by simp, ?_, ?_, hfits, hwf.first_pos, ?_⟩, hlog.version, ?_⟩
  · -- the file: the old entries, then the new body and its position
    rw [List.map_append, placed_append, hdata, ← hend, hdata]
    simp [placed, List.append_assoc, hpre]
  · rw [List.map_append, positions_append, indexBytes_append, ← hwf.index_eq, ← hend]
    rfl
  · intro body' hbody'
    rw [List.map_append, List.mem_append] at hbody'
    rcases hbody' with hbody' | hbody'
    · exact hwf.headers _ hbody'
    · simp only [List.map_cons, List.map_nil, List.mem_singleton] at hbody'
      rw [hbody']
      exact hlong
  · intro k hk
    simp only [List.map_append, List.map_cons, List.map_nil, List.length_append,
      List.length_singleton, List.length_map] at hk
    by_cases hkold : k < entries.length
    · simp only [List.map_append, List.map_cons, List.map_nil]
      rw [List.getElem_append_left (by simpa using hkold)]
      exact hwf.numbered k (by simpa using hkold)
    · have hklast : k = entries.length := by omega
      subst hklast
      simp only [List.map_append, List.map_cons, List.map_nil]
      rw [List.getElem_append_right (by simp)]
      simp only [List.length_map, Nat.sub_self, List.getElem_singleton]
      rw [bodyBlockNum_of_le hlog.version, hholds.bodyBlockNum_eq, hblock]
  · have := (b.blockNum F).toNat_lt
    simp only [List.map_append, List.length_append, List.length_map, List.length_cons,
      List.length_nil]
    omega
  · intro e he
    rw [List.mem_append, List.mem_singleton] at he
    rcases he with he | rfl
    · exact hlog.holds e he
    · exact hholds

end PrunableLog

namespace PrunableLog

variable {F} {log : BlockLogData} {index : List UInt8}
  {entries : List (List UInt8 × SignedBlock H RH Sig Ext)}

/-- `prune_transactions` goes through only for a block of the log. -/
theorem pruneTransactions_inRange (hlog : PrunableLog F log index entries) {blockNum : UInt32}
    {ids : List Sha256} {r : List UInt8 × List Sha256 × ℕ}
    (h : pruneTransactions F log index log.lastBlockNum blockNum ids = some r) :
    ∃ j, j < entries.length ∧ blockNum.toNat = log.firstBlockNum.toNat + j := by
  obtain ⟨last, hlast, hlastNat⟩ := hlog.wellFormed.lastBlockNum_eq
  have hlen := List.length_pos_of_ne_nil hlog.wellFormed.nonempty
  rw [List.length_map] at hlastNat hlen
  by_cases hin : blockNum ≤ last ∧ blockNum ≥ log.firstBlockNum
  · have hhi := UInt32.le_iff_toNat_le.mp hin.1
    have hlo := UInt32.le_iff_toNat_le.mp hin.2
    exact ⟨blockNum.toNat - log.firstBlockNum.toNat, by omega, by omega⟩
  · -- `get_block_pos` gives `npos`, and "does not exist in block log" is thrown
    rw [pruneTransactions, hlast] at h
    simp only [getBlockPos, if_neg hin] at h
    cases h

/-- **Trimming keeps the log prunable.** The files `trim_blocklog_front` leaves, opened afresh,
hold the entries from the truncation block on, each holding its block as before. -/
theorem trim (hlog : PrunableLog F log index entries) {n : UInt32}
    (hfirst : log.firstBlockNum < n) (hn : n.toNat < log.firstBlockNum.toNat + entries.length) :
    PrunableLog F (BlockLogData.mk (preambleBytes (trimmedVersion log.version) n log.chainId ++
        placed nbytesWithChainId 0 ((entries.drop (n - log.firstBlockNum).toNat).map Prod.fst))
        (trimmedVersion log.version) n log.chainId nbytesWithChainId)
      (indexBytes (positions nbytesWithChainId
        ((entries.drop (n - log.firstBlockNum).toNat).map Prod.fst)))
      (entries.drop (n - log.firstBlockNum).toNat) := by
  have hwf := wellFormed_trimmed hlog.wellFormed hfirst (by simpa using hn)
  rw [← List.map_drop] at hwf
  refine ⟨hwf, ?_, fun e he => hlog.holds e (List.mem_of_mem_drop he)⟩
  -- a version-4 log stays version 4
  have hv : ¬ log.version < prunedTransactionVersion := by
    have := UInt32.le_iff_toNat_le.mp hlog.version
    rw [UInt32.lt_iff_toNat_lt]
    omega
  show prunedTransactionVersion ≤ trimmedVersion log.version
  rw [trimmedVersion, if_neg hv]
  exact UInt32.le_refl _

/-- Cutting the files after the `k`-th entry, from the first on, keeps the first `k` entries, each
holding its block as before. -/
theorem takeEntries (hlog : PrunableLog F log index entries) {k : ℕ} (hkpos : 0 < k)
    (hk : k ≤ entries.length) :
    PrunableLog F { log with data := log.data.take (log.firstBlockPosition +
        entriesLength ((entries.map Prod.fst).take k)) } (index.take (8 * k)) (entries.take k) := by
  have hwf := hlog.wellFormed.take hkpos (by simpa using hk)
  refine ⟨?_, hlog.version, fun e he => hlog.holds e (List.mem_of_mem_take he)⟩
  rw [List.map_take]
  exact hwf

/-- **Trimming the end keeps the blocks up to the last kept one.** `trim_blocklog_end` at a block
of the log before its last block succeeds with code 0, and afterwards reading the files gives
every block up to that one as before, and nothing after it. -/
theorem trimBlocklogEnd_readBlockByNum (hlog : PrunableLog F log index entries) {n : UInt32}
    (hfirst : log.firstBlockNum ≤ n) (hn : n.toNat + 1 < log.firstBlockNum.toNat + entries.length) :
    ∃ data' index', trimBlocklogEnd log index n = some (0, data', index') ∧
      ∀ blockNum : UInt32,
        ({ log with data := data' } : BlockLogData).readBlockByNum F index' blockNum =
          if blockNum ≤ n then log.readBlockByNum F index blockNum else none := by
  have hwf := hlog.wellFormed
  have hk := hwf.toNat_toTrimBlockIndex hfirst
  have hloNat := UInt32.le_iff_toNat_le.mp hfirst
  have hlog' := hlog.takeEntries (k := (n + 1 - log.firstBlockNum).toNat) (by omega) (by omega)
  refine ⟨_, _, trimBlocklogEnd_eq hwf hfirst (by simpa using hn), fun blockNum => ?_⟩
  rw [hlog'.readBlockByNum_eq, hlog.readBlockByNum_eq]
  dsimp only
  by_cases hlo : log.firstBlockNum ≤ blockNum
  · -- a block of the old log is kept exactly when it is not after `n`
    have hsub := UInt32.toNat_sub_of_le _ _ hlo
    have hbNat := UInt32.le_iff_toNat_le.mp hlo
    rw [if_pos hlo, List.getElem?_take]
    by_cases hle : blockNum ≤ n
    · have := UInt32.le_iff_toNat_le.mp hle
      rw [if_pos (by omega), if_pos hle, if_pos hlo]
    · have : ¬ blockNum.toNat ≤ n.toNat := fun h => hle (UInt32.le_iff_toNat_le.mpr h)
      rw [if_neg (by omega), if_neg hle, Option.map_none]
  · rw [if_neg hlo, if_neg hlo, ite_self]

theorem trimBlocklogEnd_readBlockByNum_exampleLog :
    ∃ data' index', trimBlocklogEnd exampleLog exampleIndex 1 = some (0, data', index') ∧
      ∀ blockNum : UInt32,
        ({ exampleLog with data := data' } : BlockLogData).readBlockByNum exampleFormat index'
            blockNum =
          if blockNum ≤ 1 then exampleLog.readBlockByNum exampleFormat exampleIndex blockNum
          else none :=
  exampleLog_prunable.trimBlocklogEnd_readBlockByNum (by decide) (by decide +kernel)

end PrunableLog

section TrimEnd

variable {log : BlockLogData} {index : List UInt8} {bodies : List (List UInt8)}

end TrimEnd

/-! ### The store the log is for -/

/-- A store of numbered blocks: the first number, and the blocks from it on, one after the
other. -/
structure BlockStore (V : Type) where
  firstBlockNum : ℕ
  blocks : List V

/-- An operation on the files of the block log: appending a block (`block_log::append`), pruning
transactions of a block in place (`block_log::prune_transactions`), or trimming the blocks before
a block (`block_log::trim_blocklog_front`). -/
inductive LogOp (B : Type)
  | append (block : B)
  | pruneTransactions (blockNum : UInt32) (ids : List Sha256)
  | trimFront (truncateAtBlock : UInt32)

namespace BlockStore

variable {V B : Type}

/-- The block of a number, when the store holds it. -/
def lookup (s : BlockStore V) (n : ℕ) : Option V :=
  if s.firstBlockNum ≤ n then s.blocks[n - s.firstBlockNum]? else none

/-- What each operation does to the store, a block being seen through `view`: an append takes
only the next block, a pruning only a block the store holds and changes nothing of it, and a trim
at a block after the first and up to the last drops the blocks before it, any other trim nothing. -/
def step (num : B → ℕ) (view : B → V) (s : BlockStore V) : LogOp B → Option (BlockStore V)
  | .append b =>
    if num b = s.firstBlockNum + s.blocks.length then
      some ⟨s.firstBlockNum, s.blocks ++ [view b]⟩
    else none
  | .pruneTransactions n _ =>
    if s.firstBlockNum ≤ n.toNat ∧ n.toNat < s.firstBlockNum + s.blocks.length then some s
    else none
  | .trimFront n =>
    if s.firstBlockNum < n.toNat ∧ n.toNat < s.firstBlockNum + s.blocks.length then
      some ⟨n.toNat, s.blocks.drop (n.toNat - s.firstBlockNum)⟩
    else some s

end BlockStore

/-- What a block keeps through pruning: its header, so its id, and its receipts' digests. -/
def blockView (b : SignedBlock H RH Sig Ext) : H × List (Option Sha256) :=
  (b.header, b.transactions.map (TransactionReceipt.digest F))

/-- One operation on the pair of files. After a trim the files are opened afresh: their preamble
is the chain-id preamble the trim wrote. -/
def logStep (s : BlockLogData × List UInt8) :
    LogOp (SignedBlock H RH Sig Ext) → Option (BlockLogData × List UInt8)
  | .append b => s.1.append F s.2 b
  | .pruneTransactions blockNum ids =>
    (pruneTransactions F s.1 s.2 (s.1.headBlockNum F) blockNum ids).map fun r =>
      ({ s.1 with data := r.1 }, s.2)
  | .trimFront n =>
    (trimBlocklogFront s.1 s.2 n).map fun r =>
      if r.1 then (⟨r.2.1, trimmedVersion s.1.version, n, s.1.chainId, nbytesWithChainId⟩, r.2.2)
      else ({ s.1 with data := r.2.1 }, r.2.2)

/-- The bytes an operation adds to the file: an appended entry and its trailer. -/
def opCost : LogOp (SignedBlock H RH Sig Ext) → ℕ
  | .append b => ((packBody F b).map List.length).getD 0 + 8
  | _ => 0

/-- An appended block is numbered other than zero, and its entry holds a header after its size
and compression and fits its 4-byte size field. -/
def FitsEntry : LogOp (SignedBlock H RH Sig Ext) → Prop
  | .append b => b.blockNum F ≠ 0 ∧
    ∀ body, packBody F b = some body → 46 + (4 + 1) ≤ body.length ∧ body.length + 8 < 2 ^ 32
  | _ => True

/-- The files hold the store's blocks, each entry holding a block with the store's view of it,
with `n` bytes of room left below `2^64`. -/
def Represents (n : ℕ) (s : BlockLogData × List UInt8) (a : BlockStore (H × List (Option Sha256))) :
    Prop :=
  ∃ entries, PrunableLog F s.1 s.2 entries ∧
    a = ⟨s.1.firstBlockNum.toNat, entries.map fun e => blockView F e.2⟩ ∧ s.1.data.length + n < 2 ^ 64

theorem BlockLogData.append_eq_some {log : BlockLogData} {index : List UInt8}
    {b : SignedBlock H RH Sig Ext} {s' : BlockLogData × List UInt8}
    (h : log.append F index b = some s') :
    ∃ body, packBody F b = some body ∧ s' = log.writeLogEntry index body := by
  rw [BlockLogData.append] at h
  split_ifs at h with hcheck hv
  · obtain ⟨body, hbody, rfl⟩ := Option.map_eq_some_iff.mp h
    exact ⟨body, hbody, rfl⟩
  · cases h

/-! ### Each operation is one of the store -/

namespace Represents

variable {F} {n : ℕ} {s s' : BlockLogData × List UInt8} {a : BlockStore (H × List (Option Sha256))}

/-- An append the files take is an append of the store, and spends the entry's bytes. -/
theorem append {b : SignedBlock H RH Sig Ext} (hR : Represents F (opCost F (.append b) + n) s a)
    (hfit : FitsEntry F (.append b)) (hs : logStep F s (.append b) = some s') :
    ∃ a', a.step (fun b => (b.blockNum F).toNat) (blockView F) (.append b) = some a' ∧
      Represents F n s' a' := by
  obtain ⟨entries, hlog, rfl, hroom⟩ := hR
  obtain ⟨hnum, hsize⟩ := hfit
  have hs' : s.1.append F s.2 b = some s' := hs
  obtain ⟨body, hbody, rfl⟩ := BlockLogData.append_eq_some F hs'
  have hcost : opCost F (.append b) = body.length + 8 := by simp [opCost, hbody]
  have hlen : (s.1.writeLogEntry s.2 body).1.data.length = s.1.data.length + body.length + 8 := by
    simp only [BlockLogData.writeLogEntry, List.length_append, length_toListLE]
  have hs'' : s.1.append F s.2 b =
      some ((s.1.writeLogEntry s.2 body).1, (s.1.writeLogEntry s.2 body).2) := hs'
  obtain ⟨hblock, body', hbody', -, hlog'⟩ := hlog.append hs'' hnum hsize (by omega)
  rw [hbody, Option.some.injEq] at hbody'
  subst hbody'
  refine ⟨⟨s.1.firstBlockNum.toNat, entries.map (fun e => blockView F e.2) ++ [blockView F b]⟩, ?_,
    entries ++ [(body, b)], hlog', ?_, by omega⟩
  · simp only [BlockStore.step, List.length_map, hblock, if_true]
  · simp [BlockLogData.writeLogEntry]

/-- A pruning the files take is of a block the store holds, and changes nothing the store sees. -/
theorem pruneTransactions {blockNum : UInt32} {ids : List Sha256}
    (hR : Represents F (opCost F (.pruneTransactions blockNum ids) + n) s a)
    (hs : logStep F s (.pruneTransactions blockNum ids) = some s') :
    ∃ a', a.step (fun b => (b.blockNum F).toNat) (blockView F) (.pruneTransactions blockNum ids) =
      some a' ∧ Represents F n s' a' := by
  obtain ⟨entries, hlog, rfl, hroom⟩ := hR
  have hs' : (pruneTransactions F s.1 s.2 s.1.lastBlockNum blockNum ids).map
      (fun r => ({ s.1 with data := r.1 }, s.2)) = some s' := by
    rw [← hlog.headBlockNum_eq]
    exact hs
  obtain ⟨r, hr, rfl⟩ := Option.map_eq_some_iff.mp hs'
  obtain ⟨j, hj, hblock⟩ := hlog.pruneTransactions_inRange hr
  obtain ⟨b', ids', k, hb', heq⟩ := hlog.pruneTransactions_eq hj hblock ids
  have hlen := (hlog.pruneTransactions_frame hj hblock heq).1
  rw [hr, Option.some.injEq] at heq
  subst heq
  -- the pruned block keeps its header and its receipts' digests
  have hview : blockView F (prunedEntry F entries[j] b').2 = blockView F entries[j].2 := by
    obtain ⟨hheader, -, hdigests⟩ := pruneBlock_keeps hb'
    simp only [prunedEntry, blockView, hheader, hdigests]
  refine ⟨⟨s.1.firstBlockNum.toNat, entries.map (fun e => blockView F e.2)⟩, ?_, _,
    hlog.prune hj hb', ?_, ?_⟩
  · simp only [BlockStore.step, List.length_map]
    rw [if_pos ⟨by omega, by omega⟩]
  · have hviews : (entries.set j (prunedEntry F entries[j] b')).map (fun e => blockView F e.2) =
        entries.map (fun e => blockView F e.2) := by
      apply List.ext_getElem (by simp)
      intro i h₁ h₂
      rw [List.getElem_map, List.getElem_map]
      by_cases hji : j = i
      · subst hji
        rw [List.getElem_set_self, hview]
      · rw [List.getElem_set_ne hji]
    rw [hviews]
  · simp only [opCost, Nat.zero_add] at hroom
    show (s.1.withBodies _).data.length + n < 2 ^ 64
    rw [hlen]
    exact hroom

/-- A trim the files take is one of the store: at a block after the first and up to the last it
drops the blocks before it and shrinks the file, and any other trim leaves both as they are. -/
theorem trimFront {truncateAtBlock : UInt32}
    (hR : Represents F (opCost F (.trimFront truncateAtBlock) + n) s a)
    (hs : logStep F s (.trimFront truncateAtBlock) = some s') :
    ∃ a', a.step (fun b => (b.blockNum F).toNat) (blockView F) (.trimFront truncateAtBlock) =
      some a' ∧ Represents F n s' a' := by
  obtain ⟨entries, hlog, rfl, hroom⟩ := hR
  simp only [opCost, Nat.zero_add] at hroom
  have hwf := hlog.wellFormed
  have hlen : (entries.map Prod.fst).length = entries.length := List.length_map _
  by_cases hin : s.1.firstBlockNum.toNat < truncateAtBlock.toNat ∧
      truncateAtBlock.toNat < s.1.firstBlockNum.toNat + entries.length
  · -- a trim that keeps the blocks from the truncation block on
    have hfirst : s.1.firstBlockNum < truncateAtBlock := UInt32.lt_iff_toNat_lt.mpr hin.1
    have hk : (truncateAtBlock - s.1.firstBlockNum).toNat =
        truncateAtBlock.toNat - s.1.firstBlockNum.toNat :=
      UInt32.toNat_sub_of_le _ _ (UInt32.le_of_lt hfirst)
    have htrim := trimBlocklogFront_eq hwf hfirst (by rw [hlen]; exact hin.2)
    simp only [logStep, htrim, Option.map_some, if_true, Option.some.injEq] at hs
    subst hs
    have hlog' := hlog.trim hfirst hin.2
    rw [List.map_drop] at hlog'
    -- the kept entries, after a chain-id preamble, take no more room than before
    have hshrink : nbytesWithChainId + entriesLength ((entries.map Prod.fst).drop
        (truncateAtBlock - s.1.firstBlockNum).toNat) ≤ s.1.data.length := by
      rw [hwf.length_data_split (truncateAtBlock - s.1.firstBlockNum).toNat]
      have := hwf.nbytesWithChainId_le (k := (truncateAtBlock - s.1.firstBlockNum).toNat)
        (by omega) (by omega)
      omega
    refine ⟨⟨truncateAtBlock.toNat, (entries.map fun e => blockView F e.2).drop
      (truncateAtBlock.toNat - s.1.firstBlockNum.toNat)⟩, ?_,
      entries.drop (truncateAtBlock - s.1.firstBlockNum).toNat, hlog', ?_, ?_⟩
    · simp only [BlockStore.step, List.length_map]
      rw [if_pos hin]
    · rw [List.map_drop, hk]
    · simp only [List.length_append, length_preambleBytes, length_placed]
      omega
  · -- a trim before the first block or after the last leaves the files
    have hnoop : trimBlocklogFront s.1 s.2 truncateAtBlock = some (false, s.1.data, s.2) := by
      by_cases hle : truncateAtBlock ≤ s.1.firstBlockNum
      · exact trimBlocklogFront_of_le hwf hle
      · have hlt : s.1.firstBlockNum.toNat < truncateAtBlock.toNat := by
          rw [UInt32.le_iff_toNat_le] at hle
          omega
        exact trimBlocklogFront_of_lt hwf (by rw [hlen]; omega)
    simp only [logStep, hnoop, Option.map_some, Bool.false_eq_true, if_false,
      Option.some.injEq] at hs
    subst hs
    refine ⟨⟨s.1.firstBlockNum.toNat, entries.map fun e => blockView F e.2⟩, ?_, entries, hlog,
      rfl, hroom⟩
    simp only [BlockStore.step, List.length_map]
    rw [if_neg hin]

end Represents

/-- Append block 3, prune the transaction of block 2 listed, then trim the log to start at
block 2. -/
def exampleOps : List (LogOp (SignedBlock {l : List UInt8 // l.length = 18} UInt8 UInt8 UInt8)) :=
  [.append exampleBlock3, .pruneTransactions 2 [exampleFormat.transactionId .none [1]], .trimFront 2]

end Eosio.Chain
