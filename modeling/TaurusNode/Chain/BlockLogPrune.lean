import Mathlib
import TaurusNode.Chain.BlockLogFile
import TaurusNode.Chain.PrunableBlock

/-!
# Pruning transactions in place

`block_log::prune_transactions(block_num, ids)` finds the block's entry through the index, reads
the version-4 entry (its size, its compression and the block), prunes the listed transactions of
the block (`pruneBlock`) and packs the pruned block over the old one, after the size and the
compression (`prune_trxs`). Nothing else of the file is written: not the size, not the padding
after the new packing, not the trailer, and not the index.

A body `HoldsBlock` when it is what `block_log`'s `pack` wrote, or a later in-place pruning left:
the size of the entry, compression `none`, the packed block and padding, with room for the block's
maximum pruned size. The pruned block packs into no more than its maximum pruned size, which
pruning does not raise, so the new packing stays inside the body (`HoldsBlock.prune`), the body
holds the pruned block, and the log is a well-formed pair with the same index and the same trailers
(`pruneTransactions_wellFormed`).
-/

namespace Eosio.Chain

open Bytes RawPack

variable {H RH Sig Ext : Type} (F : BlockFormat H RH Sig Ext)

/-- `packed_transaction::cf_compression_type::COMPRESSION_TYPE_COUNT`. -/
def compressionTypeCount : ℕ := 2

/-- `unpack(ds, log_entry_v4&)`: the entry's size and compression, which must be `none`, then the
block; the padding to the trailer is skipped, and an entry too small for its block is refused.
Gives the size and the block. -/
def unpackEntry : List UInt8 → Option (ℕ × SignedBlock H RH Sig Ext)
  | s0 :: s1 :: s2 :: s3 :: compression :: rest =>
    let size := ofListLE [s0, s1, s2, s3]
    if compressionTypeCount ≤ compression.toNat then none
    else if compression ≠ 0 then none
    else ((SignedBlock.packer F).unpack rest).bind fun x =>
      let currentStreamOffset := 4 + 1 + (rest.length - x.2.length)
      if size < 8 + currentStreamOffset then none else some (size, x.1)
  | _ => none

/-- `pack(block, compression)` with compression `none`: a buffer of the block's maximum pruned
size after the entry's size and compression, zero-filled, holding the entry's size (the buffer
and its trailer), the compression and the packed block. -/
def packBody (b : SignedBlock H RH Sig Ext) : Option (List UInt8) :=
  (b.maximumPrunedPackSize F).map fun paddedSize =>
    let bufferSize := paddedSize + offsetToBlockStart maxSupportedVersion
    let packed := (SignedBlock.packer F).pack b
    toListLE 4 (bufferSize + 8) ++ [CompressionType.none.code] ++ packed ++
      List.replicate (bufferSize - (4 + 1 + packed.length)) 0

/-- `prune_trxs(strm, block_num, ids, version)` on the file from `pos` on: the new file, what is
left of `ids`, and the number of transactions pruned. -/
def pruneTrxs (data : List UInt8) (pos : ℕ) (blockNum : UInt32) (ids : List Sha256)
    (version : UInt32) : Option (List UInt8 × List Sha256 × ℕ) :=
  if version < prunedTransactionVersion then none else
  (unpackEntry F (data.drop pos)).bind fun entry =>
  if entry.2.blockNum F ≠ blockNum then none else
  (pruneBlock F ids entry.2).bind fun x =>
  -- `strm.skip(offset_to_block_start(version))`, then the pruned block packed over the old one
  let bytes := (SignedBlock.packer F).pack x.1
  if pos + offsetToBlockStart version + bytes.length ≤ data.length then
    some (writeAt data (pos + offsetToBlockStart version) bytes, x.2.1, x.2.2)
  else none

/-- `block_log_impl::get_block_pos`: the position the index holds for a block between the first
and the head, `npos` for any other. -/
def getBlockPos (log : BlockLogData) (index : List UInt8) (headBlockNum : Option UInt32)
    (blockNum : UInt32) : ℕ :=
  match headBlockNum with
  | some head =>
    if blockNum ≤ head ∧ blockNum ≥ log.firstBlockNum then
      readU64 index (8 * (blockNum - log.firstBlockNum).toNat)
    else npos
  | none => npos

/-- `block_log::prune_transactions(block_num, ids)` on a block of the current `blocks.log`: the
new bytes of the file, what is left of `ids`, and the number of transactions pruned. -/
def pruneTransactions (log : BlockLogData) (index : List UInt8) (headBlockNum : Option UInt32)
    (blockNum : UInt32) (ids : List Sha256) : Option (List UInt8 × List Sha256 × ℕ) :=
  let pos := getBlockPos log index headBlockNum blockNum
  if pos = npos then none else pruneTrxs F log.data pos blockNum ids log.version

/-- A version-4 body holding block `b`: the size of the entry (the body and its trailer),
compression `none`, the packed block, and padding; with room for the block's maximum pruned size,
as `block_log`'s `pack` leaves it. -/
structure HoldsBlock (body : List UInt8) (b : SignedBlock H RH Sig Ext) : Prop where
  size_lt : body.length + 8 < 2 ^ 32
  room : ∃ m, b.maximumPrunedPackSize F = some m ∧ 4 + 1 + m ≤ body.length
  layout : ∃ pad : List UInt8,
    body = toListLE 4 (body.length + 8) ++ [0] ++ (SignedBlock.packer F).pack b ++ pad

/-- What `pack` writes holds the block, when the entry's size fits its 4 bytes. -/
theorem packBody_holdsBlock {b : SignedBlock H RH Sig Ext} {body : List UInt8}
    (h : packBody F b = some body) (hsize : body.length + 8 < 2 ^ 32) : HoldsBlock F body b := by
  obtain ⟨m, hm, rfl⟩ := Option.map_eq_some_iff.mp h
  have hle : ((SignedBlock.packer F).pack b).length ≤ m := SignedBlock.size_le F hm
  have hoff : offsetToBlockStart maxSupportedVersion = 4 + 1 := rfl
  -- the buffer is exactly the maximum pruned size after the size and the compression
  have hlen : (toListLE 4 (m + offsetToBlockStart maxSupportedVersion + 8) ++
      [CompressionType.none.code] ++ (SignedBlock.packer F).pack b ++
      List.replicate (m + offsetToBlockStart maxSupportedVersion -
        (4 + 1 + ((SignedBlock.packer F).pack b).length)) 0).length =
      m + offsetToBlockStart maxSupportedVersion := by
    simp only [List.length_append, length_toListLE, List.length_singleton, List.length_replicate,
      hoff]
    omega
  dsimp only at hsize ⊢
  refine ⟨hsize, ⟨m, hm, by rw [hlen, hoff]; omega⟩, ⟨List.replicate (m + offsetToBlockStart
    maxSupportedVersion - (4 + 1 + ((SignedBlock.packer F).pack b).length)) 0, ?_⟩⟩
  rw [hlen]
  rfl

namespace HoldsBlock

variable {F} {body : List UInt8} {b : SignedBlock H RH Sig Ext}

/-- A version-4 entry holds its block's number where `block_num_at` reads it. -/
theorem bodyBlockNum_eq (h : HoldsBlock F body b) :
    bodyBlockNum prunedTransactionVersion body = b.blockNum F := by
  obtain ⟨pad, hbody⟩ := h.layout
  generalize hhead : toListLE 4 (body.length + 8) ++ [0] = head at hbody
  have hlen : head.length = 5 := by rw [← hhead]; simp
  have hoff : 14 + offsetToBlockStart prunedTransactionVersion = 5 + 14 := by
    simp [offsetToBlockStart]
  rw [bodyBlockNum, hoff, hbody, List.append_assoc head, readAt_append_right hlen]
  exact SignedBlock.blockNum_packer F b pad

/-- Reading the entry gives its size and its block. -/
theorem unpackEntry_eq (h : HoldsBlock F body b) (rest : List UInt8) :
    unpackEntry F (body ++ rest) = some (body.length + 8, b) := by
  obtain ⟨pad, hbody⟩ := h.layout
  obtain ⟨m, hm, hroom⟩ := h.room
  have hsize := SignedBlock.size_le F hm
  have hlen : body.length = 4 + 1 + (SignedBlock.packer F).size b + pad.length := by
    conv_lhs => rw [hbody]
    simp [Packer.size]
    omega
  obtain ⟨s0, s1, s2, s3, hs⟩ : ∃ s0 s1 s2 s3,
      toListLE 4 (body.length + 8) = [s0, s1, s2, s3] := ⟨_, _, _, _, rfl⟩
  have hsval : ofListLE [s0, s1, s2, s3] = body.length + 8 := by
    rw [← hs, ofListLE_toListLE_of_lt (by have := h.size_lt; simp; omega)]
  conv_lhs => rw [hbody, hs]
  simp only [List.cons_append, List.nil_append, List.append_assoc, unpackEntry]
  rw [hsval, if_neg (by simp [compressionTypeCount]), if_neg (by simp),
    (SignedBlock.packer F).unpack_pack, Option.bind_some]
  dsimp only
  rw [if_neg (by simp [Packer.size] at hlen ⊢; omega)]

/-- Pruning the block of a body and packing it over the old one, after the size and the
compression, stays inside the body, and the body then holds the pruned block. -/
theorem prune (h : HoldsBlock F body b) {ids ids' : List Sha256} {b' : SignedBlock H RH Sig Ext}
    {n : ℕ} (hb' : pruneBlock F ids b = some (b', ids', n)) :
    4 + 1 + ((SignedBlock.packer F).pack b').length ≤ body.length ∧
      (writeAt body (4 + 1) ((SignedBlock.packer F).pack b')).length = body.length ∧
      HoldsBlock F (writeAt body (4 + 1) ((SignedBlock.packer F).pack b')) b' := by
  obtain ⟨m, hm, hroom⟩ := h.room
  obtain ⟨m', hm', hle⟩ := pruneBlock_maximumPrunedPackSize_le hm hb'
  have hsize := SignedBlock.size_le F hm'
  have hfits : 4 + 1 + ((SignedBlock.packer F).pack b').length ≤ body.length := by
    simp only [Packer.size] at hsize
    omega
  have hlen : (writeAt body (4 + 1) ((SignedBlock.packer F).pack b')).length = body.length :=
    length_writeAt hfits
  refine ⟨hfits, hlen, ⟨by rw [hlen]; exact h.size_lt, ⟨m', hm', by omega⟩, ?_⟩⟩
  -- the size and the compression stay, the new packing follows, and the rest is padding
  obtain ⟨pad, hbody⟩ := h.layout
  refine ⟨((SignedBlock.packer F).pack b ++ pad).drop ((SignedBlock.packer F).pack b').length, ?_⟩
  have hhead : (toListLE 4 (body.length + 8) ++ [0]).length = 4 + 1 := by simp
  have hinside : ((SignedBlock.packer F).pack b').length ≤
      ((SignedBlock.packer F).pack b ++ pad).length := by
    have : body.length = (toListLE 4 (body.length + 8) ++ [0]).length +
        ((SignedBlock.packer F).pack b ++ pad).length := by
      conv_lhs => rw [hbody]
      simp only [List.length_append]
      omega
    omega
  conv_lhs => rw [hbody, List.append_assoc (toListLE 4 _ ++ [0]), ← List.append_nil
    (toListLE 4 _ ++ [0] ++ _), ← hhead, ← Nat.add_zero (List.length (toListLE 4 _ ++ [0]))]
  rw [writeAt_append_inside _ _ _ _ (by omega), hlen]
  simp only [writeAt, List.take_zero, List.nil_append, Nat.zero_add, List.append_nil,
    List.append_assoc]

end HoldsBlock

/-! ### One body rewritten in place -/

section Replace

variable {o d : ℕ} {xs ys : List (List UInt8)} {x x' : List UInt8}

/-- A write inside one body of a layout leaves the bytes of every other entry and every trailer
where they were. -/
theorem writeAt_placed (pre : List UInt8) (o d : ℕ) (xs ys : List (List UInt8)) (x : List UInt8)
    {i : ℕ} {data : List UInt8} (h : i + data.length ≤ x.length) :
    writeAt (pre ++ placed o d (xs ++ x :: ys)) (pre.length + entriesLength xs + i) data =
      pre ++ placed o d (xs ++ writeAt x i data :: ys) := by
  have hsplit : ∀ y : List UInt8, pre ++ placed o d (xs ++ y :: ys) = (pre ++ placed o d xs) ++ y ++
      (toListLE 8 (o + entriesLength xs + d) ++ placed (o + entriesLength xs + y.length + 8) d ys) := by
    intro y
    simp only [placed_append, placed, List.append_assoc]
  have hpos : pre.length + entriesLength xs + i = (pre ++ placed o d xs).length + i := by simp
  rw [hsplit, hpos, writeAt_append_inside _ _ _ _ h, hsplit, length_writeAt h]

/-- Entries of the same lengths start at the same positions. -/
theorem positions_replace (o : ℕ) (xs ys : List (List UInt8)) (h : x'.length = x.length) :
    positions o (xs ++ x' :: ys) = positions o (xs ++ x :: ys) := by
  simp only [positions_append, positions, h]

theorem entriesLength_replace (xs ys : List (List UInt8)) (h : x'.length = x.length) :
    entriesLength (xs ++ x' :: ys) = entriesLength (xs ++ x :: ys) := by
  simp only [entriesLength_append, entriesLength_cons, h]

/-- The body list with one body replaced, split at it. -/
theorem set_eq_split {bodies : List (List UInt8)} {j : ℕ} (hj : j < bodies.length) (y : List UInt8) :
    bodies.set j y = bodies.take j ++ y :: bodies.drop (j + 1) := by
  rw [List.set_eq_take_append_cons_drop, if_pos hj]

end Replace

/-- The log with the preamble of `log` and `bodies` as its entries. -/
@[simps]
def BlockLogData.withBodies (log : BlockLogData) (bodies : List (List UInt8)) : BlockLogData :=
  { log with data := log.data.take log.firstBlockPosition ++ placed log.firstBlockPosition 0 bodies }

theorem BlockLogData.take_data_eq {log : BlockLogData} {bodies : List (List UInt8)}
    {pre : List UInt8} (hpre : pre.length = log.firstBlockPosition)
    (hdata : log.data = pre ++ placed log.firstBlockPosition 0 bodies) :
    log.data.take log.firstBlockPosition = pre := by
  rw [hdata, ← hpre, List.take_left]

/-- Replacing one body by a body of the same length holding the same block number keeps a log
well formed with the same index. -/
theorem BlockLogData.WellFormed.replace {log : BlockLogData} {index : List UInt8}
    {bodies : List (List UInt8)} (hwf : log.WellFormed index bodies) {j : ℕ} (hj : j < bodies.length)
    {y : List UInt8} (hlen : y.length = bodies[j].length)
    (hnum : bodyBlockNum log.version y = bodyBlockNum log.version bodies[j]) :
    (log.withBodies (bodies.set j y)).WellFormed index (bodies.set j y) := by
  obtain ⟨pre, hpre, hdata⟩ := hwf.layout
  have htake := BlockLogData.take_data_eq hpre hdata
  have hsplit : bodies = bodies.take j ++ bodies[j] :: bodies.drop (j + 1) := by
    rw [← List.drop_eq_getElem_cons hj, List.take_append_drop]
  have hpositions : positions log.firstBlockPosition (bodies.set j y) =
      positions log.firstBlockPosition bodies := by
    rw [set_eq_split hj, positions_replace _ _ _ hlen, ← hsplit]
  have hentries : entriesLength (bodies.set j y) = entriesLength bodies := by
    rw [set_eq_split hj, entriesLength_replace _ _ hlen, ← hsplit]
  -- the new log keeps the preamble's fields, so only its bytes differ
  refine ⟨⟨pre, hpre, ?_⟩, ?_, ?_, ?_, ?_, ?_, hwf.first_pos, ?_⟩
  · rw [BlockLogData.withBodies_data, BlockLogData.withBodies_firstBlockPosition, htake]
  · rw [BlockLogData.withBodies_firstBlockPosition, hpositions]
    exact hwf.index_eq
  · -- the list is as long as before, so not empty
    intro hnil
    have : (bodies.set j y).length = 0 := by rw [hnil]; rfl
    rw [List.length_set] at this
    omega
  · intro b hb
    obtain ⟨k, hk, rfl⟩ := List.getElem_of_mem hb
    by_cases hkj : j = k
    · subst hkj
      rw [List.getElem_set_self, hlen]
      exact hwf.headers _ (List.getElem_mem _)
    · rw [List.getElem_set_ne hkj]
      exact hwf.headers _ (List.getElem_mem _)
  · intro k hk
    rw [BlockLogData.withBodies_version, BlockLogData.withBodies_firstBlockNum]
    by_cases hkj : j = k
    · subst hkj
      rw [List.getElem_set_self, hnum]
      exact hwf.numbered j hj
    · rw [List.getElem_set_ne hkj]
      exact hwf.numbered k (by simpa using hk)
  · rw [BlockLogData.withBodies_data, htake, List.length_append, length_placed, hentries, hpre,
      ← hwf.length_data]
    exact hwf.fits
  · rw [List.length_set]
    exact hwf.no_wrap

/-- The log with one body overwritten inside is the log's bytes overwritten at the same place. -/
theorem BlockLogData.WellFormed.withBodies_set {log : BlockLogData} {index : List UInt8}
    {bodies : List (List UInt8)} (hwf : log.WellFormed index bodies) {j : ℕ} (hj : j < bodies.length)
    {i : ℕ} {data : List UInt8} (h : i + data.length ≤ bodies[j].length) :
    (log.withBodies (bodies.set j (writeAt bodies[j] i data))).data =
      writeAt log.data (log.firstBlockPosition + entriesLength (bodies.take j) + i) data := by
  obtain ⟨pre, hpre, hdata⟩ := hwf.layout
  have hsplit : bodies = bodies.take j ++ bodies[j] :: bodies.drop (j + 1) := by
    rw [← List.drop_eq_getElem_cons hj, List.take_append_drop]
  rw [BlockLogData.withBodies_data, BlockLogData.take_data_eq hpre hdata, hdata, ← hpre,
    set_eq_split hj]
  -- split the bodies in the file only, not in the position
  conv_rhs => arg 1; rw [hsplit]
  rw [writeAt_placed _ _ _ _ _ _ h]

/-- The entry format of version 4 and above: the same body holds the same block number. -/
theorem bodyBlockNum_of_le {version : UInt32} (hv : prunedTransactionVersion ≤ version)
    (body : List UInt8) :
    bodyBlockNum version body = bodyBlockNum prunedTransactionVersion body := by
  have hoff : offsetToBlockStart version = offsetToBlockStart prunedTransactionVersion := by
    rw [offsetToBlockStart, offsetToBlockStart, if_pos hv, if_pos (UInt32.le_refl _)]
  rw [bodyBlockNum, bodyBlockNum, hoff]

/-! ### `prune_trxs` on an entry of the log -/

section PruneTrxs

variable {F}

/-- `prune_trxs` at the start of an entry whose body holds the block with that number: the pruned
block is packed inside the body, and the rest of the file stays as it was. -/
theorem pruneTrxs_placed (pre : List UInt8) (o : ℕ) (xs ys : List (List UInt8)) {x : List UInt8}
    {b b' : SignedBlock H RH Sig Ext} (hx : HoldsBlock F x b) {version : UInt32}
    (hv : prunedTransactionVersion ≤ version) {ids ids' : List Sha256} {n : ℕ}
    (hb' : pruneBlock F ids b = some (b', ids', n)) :
    pruneTrxs F (pre ++ placed o 0 (xs ++ x :: ys)) (pre.length + entriesLength xs) (b.blockNum F)
        ids version =
      some (pre ++ placed o 0 (xs ++ writeAt x (4 + 1) ((SignedBlock.packer F).pack b') :: ys),
        ids', n) := by
  obtain ⟨hfits, -, -⟩ := hx.prune hb'
  have hoff : offsetToBlockStart version = 4 + 1 := if_pos hv
  have hold : ¬ version < prunedTransactionVersion := by
    rw [UInt32.lt_iff_toNat_lt]
    rw [UInt32.le_iff_toNat_le] at hv
    omega
  -- the entry starts at the position: its body, then its trailer and the entries after it
  have hdrop : (pre ++ placed o 0 (xs ++ x :: ys)).drop (pre.length + entriesLength xs) =
      x ++ (toListLE 8 (o + entriesLength xs + 0) ++ placed (o + entriesLength xs + x.length + 8) 0 ys) := by
    rw [placed_append, placed, ← List.append_assoc, List.drop_left' (by simp)]
    simp only [List.append_assoc]
  have hroom : pre.length + entriesLength xs + offsetToBlockStart version +
      ((SignedBlock.packer F).pack b').length ≤ (pre ++ placed o 0 (xs ++ x :: ys)).length := by
    simp only [List.length_append, length_placed, entriesLength_append, entriesLength_cons, hoff]
    omega
  rw [pruneTrxs, if_neg hold, hdrop, hx.unpackEntry_eq, Option.bind_some]
  dsimp only
  rw [if_neg (not_not.mpr rfl), hb', Option.bind_some]
  dsimp only
  rw [if_pos hroom, hoff, writeAt_placed _ _ _ _ _ _ hfits]

/-- `prune_trxs` at the position of entry `j` of a layout. -/
theorem pruneTrxs_at {pre : List UInt8} {o : ℕ} (hpre : pre.length = o) {bodies : List (List UInt8)}
    {j : ℕ} (hj : j < bodies.length) {b b' : SignedBlock H RH Sig Ext} (hx : HoldsBlock F bodies[j] b)
    {version : UInt32} (hv : prunedTransactionVersion ≤ version) {ids ids' : List Sha256} {n : ℕ}
    (hb' : pruneBlock F ids b = some (b', ids', n)) :
    pruneTrxs F (pre ++ placed o 0 bodies) (o + entriesLength (bodies.take j)) (b.blockNum F) ids
        version =
      some (pre ++ placed o 0
        (bodies.set j (writeAt bodies[j] (4 + 1) ((SignedBlock.packer F).pack b'))), ids', n) := by
  have h := pruneTrxs_placed pre o (bodies.take j) (bodies.drop (j + 1)) hx hv hb'
  rwa [← List.drop_eq_getElem_cons hj, List.take_append_drop, ← set_eq_split hj, hpre] at h

end PruneTrxs

/-- `get_block_pos` of a block of a well-formed log gives its entry's position. -/
theorem getBlockPos_eq {log : BlockLogData} {index : List UInt8} {bodies : List (List UInt8)}
    (hwf : log.WellFormed index bodies) {head blockNum : UInt32} (hlo : log.firstBlockNum ≤ blockNum)
    (hhi : blockNum ≤ head) (hin : (blockNum - log.firstBlockNum).toNat < bodies.length) :
    getBlockPos log index (some head) blockNum =
      log.firstBlockPosition + entriesLength (bodies.take (blockNum - log.firstBlockNum).toNat) := by
  rw [getBlockPos, if_pos ⟨hhi, hlo⟩]
  exact hwf.nthBlockPosition_eq hin

/-! ### `prune_transactions` on a version-4 log -/

/-- A version-4 log whose entries are pairs of a body and the block it holds, every body as
`block_log` wrote it or a pruning left it. -/
structure PrunableLog (log : BlockLogData) (index : List UInt8)
    (entries : List (List UInt8 × SignedBlock H RH Sig Ext)) : Prop where
  wellFormed : log.WellFormed index (entries.map Prod.fst)
  version : prunedTransactionVersion ≤ log.version
  holds : ∀ e ∈ entries, HoldsBlock F e.1 e.2

/-- An entry after its block is pruned to `b'` in place. -/
def prunedEntry (e : List UInt8 × SignedBlock H RH Sig Ext) (b' : SignedBlock H RH Sig Ext) :
    List UInt8 × SignedBlock H RH Sig Ext :=
  (writeAt e.1 (4 + 1) ((SignedBlock.packer F).pack b'), b')

namespace PrunableLog

variable {F} {log : BlockLogData} {index : List UInt8}
  {entries : List (List UInt8 × SignedBlock H RH Sig Ext)}

/-- The index and `last_block_num` find the entry of the block numbered `j` on from the first. -/
theorem getBlockPos_lastBlockNum (hlog : PrunableLog F log index entries) {j : ℕ}
    (hj : j < entries.length) {blockNum : UInt32}
    (hblock : blockNum.toNat = log.firstBlockNum.toNat + j) :
    ∃ last, log.lastBlockNum = some last ∧ getBlockPos log index (some last) blockNum =
      log.firstBlockPosition + entriesLength ((entries.map Prod.fst).take j) := by
  have hwf := hlog.wellFormed
  obtain ⟨last, hlast, hlastNat⟩ := hwf.lastBlockNum_eq
  have hlen : (entries.map Prod.fst).length = entries.length := List.length_map _
  have hlo : log.firstBlockNum ≤ blockNum := by
    rw [UInt32.le_iff_toNat_le]
    omega
  have hhi : blockNum ≤ last := by
    rw [UInt32.le_iff_toNat_le]
    omega
  have hsub : (blockNum - log.firstBlockNum).toNat = j := by
    rw [UInt32.toNat_sub_of_le _ _ hlo]
    omega
  refine ⟨last, hlast, ?_⟩
  rw [getBlockPos_eq hwf hlo hhi (by rw [hsub]; omega), hsub]

/-- The body of the entry holds the block numbered `j` on from the first. -/
theorem blockNum_getElem (hlog : PrunableLog F log index entries) {j : ℕ} (hj : j < entries.length)
    {blockNum : UInt32} (hblock : blockNum.toNat = log.firstBlockNum.toNat + j) :
    entries[j].2.blockNum F = blockNum := by
  have hnum := hlog.wellFormed.numbered j (by simpa using hj)
  rw [List.getElem_map, bodyBlockNum_of_le hlog.version,
    (hlog.holds _ (List.getElem_mem hj)).bodyBlockNum_eq] at hnum
  exact UInt32.toNat_inj.mp (by omega)

/-- `prune_transactions(block_num, ids)` on a block of the log goes through, and writes the pruned
block over the old one inside its entry: the new bytes are those of the log whose entry `j` is
pruned. -/
theorem pruneTransactions_eq (hlog : PrunableLog F log index entries) {j : ℕ}
    (hj : j < entries.length) {blockNum : UInt32}
    (hblock : blockNum.toNat = log.firstBlockNum.toNat + j) (ids : List Sha256) :
    ∃ b' ids' n, pruneBlock F ids entries[j].2 = some (b', ids', n) ∧
      pruneTransactions F log index log.lastBlockNum blockNum ids =
        some ((log.withBodies ((entries.set j (prunedEntry F entries[j] b')).map Prod.fst)).data,
          ids', n) := by
  have hwf := hlog.wellFormed
  have hjb : j < (entries.map Prod.fst).length := by simpa using hj
  have hholds := hlog.holds _ (List.getElem_mem hj)
  obtain ⟨m, hm, -⟩ := hholds.room
  obtain ⟨⟨b', ids', n⟩, hb'⟩ := pruneBlock_exists hm ids
  refine ⟨b', ids', n, hb', ?_⟩
  obtain ⟨last, hlast, hpos⟩ := hlog.getBlockPos_lastBlockNum hj hblock
  -- the entry lies inside the file, so its position is not `npos`
  have hne : log.firstBlockPosition + entriesLength ((entries.map Prod.fst).take j) ≠ npos := by
    have hin := entriesLength_take_lt hjb
    have hfits := hwf.fits
    rw [hwf.length_data] at hfits
    unfold npos
    omega
  obtain ⟨pre, hpre, hdata⟩ := hwf.layout
  have hx : HoldsBlock F (entries.map Prod.fst)[j] entries[j].2 := by
    rw [List.getElem_map]
    exact hholds
  rw [pruneTransactions, hlast, hpos, if_neg hne, ← hlog.blockNum_getElem hj hblock, BlockLogData.withBodies_data,
    BlockLogData.take_data_eq hpre hdata, hdata, pruneTrxs_at hpre hjb hx hlog.version hb',
    List.map_set, List.getElem_map]
  rfl

/-- Pruning entry `j` keeps the log a prunable log with the same index. -/
theorem prune (hlog : PrunableLog F log index entries) {j : ℕ} (hj : j < entries.length)
    {ids ids' : List Sha256} {b' : SignedBlock H RH Sig Ext} {n : ℕ}
    (hb' : pruneBlock F ids entries[j].2 = some (b', ids', n)) :
    PrunableLog F (log.withBodies ((entries.set j (prunedEntry F entries[j] b')).map Prod.fst)) index
      (entries.set j (prunedEntry F entries[j] b')) := by
  have hwf := hlog.wellFormed
  have hjb : j < (entries.map Prod.fst).length := by simpa using hj
  have hholds := hlog.holds _ (List.getElem_mem hj)
  obtain ⟨-, hlen, hholds'⟩ := hholds.prune hb'
  -- the pruned block keeps the header, so the body keeps its block number
  have hnum : bodyBlockNum log.version (prunedEntry F entries[j] b').1 =
      bodyBlockNum log.version (entries.map Prod.fst)[j] := by
    show bodyBlockNum log.version (writeAt entries[j].1 (4 + 1) ((SignedBlock.packer F).pack b')) = _
    rw [List.getElem_map, bodyBlockNum_of_le hlog.version, bodyBlockNum_of_le hlog.version,
      hholds.bodyBlockNum_eq, hholds'.bodyBlockNum_eq, SignedBlock.blockNum, SignedBlock.blockNum,
      (pruneBlock_keeps hb').1]
  refine ⟨?_, hlog.version, ?_⟩
  · rw [List.map_set]
    exact hwf.replace hjb (by rw [List.getElem_map]; exact hlen) hnum
  · intro e he
    rcases List.mem_or_eq_of_mem_set he with he | rfl
    · exact hlog.holds e he
    · exact hholds'

/-- `prune_transactions` writes only inside the block's entry, after its size and compression and
before its trailer: every other byte of the file stays, so every other entry and every trailer,
and the file keeps its length. -/
theorem pruneTransactions_frame (hlog : PrunableLog F log index entries) {j : ℕ}
    (hj : j < entries.length) {blockNum : UInt32}
    (hblock : blockNum.toNat = log.firstBlockNum.toNat + j) {ids ids' : List Sha256} {n : ℕ}
    {data' : List UInt8}
    (h : pruneTransactions F log index log.lastBlockNum blockNum ids = some (data', ids', n)) :
    data'.length = log.data.length ∧
      ∀ i, i < log.firstBlockPosition + entriesLength ((entries.map Prod.fst).take j) + (4 + 1) ∨
        log.firstBlockPosition + entriesLength ((entries.map Prod.fst).take j) + entries[j].1.length ≤ i →
        data'[i]? = log.data[i]? := by
  have hwf := hlog.wellFormed
  have hjb : j < (entries.map Prod.fst).length := by simpa using hj
  obtain ⟨b', ids'', n', hb', heq⟩ := hlog.pruneTransactions_eq hj hblock ids
  obtain ⟨hfits, -, -⟩ := (hlog.holds _ (List.getElem_mem hj)).prune hb'
  have hfits' : 4 + 1 + ((SignedBlock.packer F).pack b').length ≤ (entries.map Prod.fst)[j].length := by
    rw [List.getElem_map]
    exact hfits
  have hset : (entries.set j (prunedEntry F entries[j] b')).map Prod.fst = (entries.map Prod.fst).set j
      (writeAt (entries.map Prod.fst)[j] (4 + 1) ((SignedBlock.packer F).pack b')) := by
    rw [List.map_set, List.getElem_map]
    rfl
  -- the new bytes are the old ones overwritten inside the entry
  have hinside : log.firstBlockPosition + entriesLength ((entries.map Prod.fst).take j) + (4 + 1) +
      ((SignedBlock.packer F).pack b').length ≤ log.data.length := by
    have := entriesLength_take_lt hjb
    rw [hwf.length_data]
    omega
  rw [hset, hwf.withBodies_set hjb hfits', h, Option.some.injEq, Prod.mk.injEq] at heq
  rw [heq.1]
  refine ⟨length_writeAt hinside, ?_⟩
  intro i hi
  rcases hi with hi | hi
  · exact getElem?_writeAt_of_lt hi (by omega)
  · rw [List.getElem_map] at hfits'
    exact getElem?_writeAt_of_le (by omega) hinside

end PrunableLog

/-! ### Both in-place rewrites -/

/-- **The in-place rewrites of the block log keep its content.** `trim_blocklog_front` of a
well-formed pair at a block after the first and up to the last leaves a well-formed pair that
starts at that block, with the same bodies from it on, read in the same entry format: every
trailer holds its entry's new position and every index word the position of its block. And on a
version-4 log whose entries hold their blocks, `prune_transactions` of a block whose packed
transactions have distinct ids writes only inside that block's entry, after its size and
compression and before its trailer, leaves the log well formed with the same index and every
other entry as it was, prunes exactly the listed transactions (each listed id is erased from
`ids` once, and the count is their number), and keeps the block's header and every receipt's
digest. -/
theorem blockLogRewrites_preserveContent (F : BlockFormat H RH Sig Ext) :
    (∀ (log : BlockLogData) (index : List UInt8) (bodies : List (List UInt8)) (n : UInt32),
      log.WellFormed index bodies → log.firstBlockNum < n →
      n.toNat < log.firstBlockNum.toNat + bodies.length →
      ∃ data' index', trimBlocklogFront log index n = some (true, data', index') ∧
        (BlockLogData.mk data' (trimmedVersion log.version) n log.chainId
          nbytesWithChainId).WellFormed index' (bodies.drop (n - log.firstBlockNum).toNat) ∧
        entryFormat (trimmedVersion log.version) = entryFormat log.version) ∧
    (∀ (log : BlockLogData) (index : List UInt8)
      (entries : List (List UInt8 × SignedBlock H RH Sig Ext)) (j : ℕ) (blockNum : UInt32)
      (ids : List Sha256) (hj : j < entries.length),
      PrunableLog F log index entries → blockNum.toNat = log.firstBlockNum.toNat + j →
      (entries[j].2.transactions.filterMap (TransactionReceipt.packedId F)).Nodup →
      ∃ b' data' ids' n,
        pruneTransactions F log index log.lastBlockNum blockNum ids = some (data', ids', n) ∧
        data'.length = log.data.length ∧
        (∀ i, i < log.firstBlockPosition + entriesLength ((entries.map Prod.fst).take j) + (4 + 1) ∨
          log.firstBlockPosition + entriesLength ((entries.map Prod.fst).take j) +
            entries[j].1.length ≤ i →
          data'[i]? = log.data[i]?) ∧
        data' = (log.withBodies ((entries.set j (prunedEntry F entries[j] b')).map Prod.fst)).data ∧
        PrunableLog F (log.withBodies ((entries.set j (prunedEntry F entries[j] b')).map Prod.fst))
          index (entries.set j (prunedEntry F entries[j] b')) ∧
        entries[j].2.transactions.mapM (pruneIfListed F ids) = some b'.transactions ∧
        ids' = ids.diff (listedIds F ids entries[j].2.transactions) ∧
        n = (listedIds F ids entries[j].2.transactions).length ∧
        b'.header = entries[j].2.header ∧
        b'.transactions.map (TransactionReceipt.digest F) =
          entries[j].2.transactions.map (TransactionReceipt.digest F)) := by
  refine ⟨fun log index bodies n hwf hfirst hn => ⟨_, _, trimBlocklogFront_eq hwf hfirst hn,
    wellFormed_trimmed hwf hfirst hn, entryFormat_trimmedVersion _⟩, ?_⟩
  intro log index entries j blockNum ids hj hlog hblock hdistinct
  obtain ⟨b', ids', n, hb', heq⟩ := hlog.pruneTransactions_eq hj hblock ids
  -- with distinct ids the loop's result is the listed transactions pruned at once
  obtain ⟨m, hm, -⟩ := (hlog.holds _ (List.getElem_mem hj)).room
  obtain ⟨rs', hrs', hb''⟩ := pruneBlock_eq_of_nodup hm hdistinct ids
  rw [hb', Option.some.injEq, Prod.mk.injEq, Prod.mk.injEq] at hb''
  obtain ⟨rfl, rfl, rfl⟩ := hb''
  obtain ⟨hlen, hframe⟩ := hlog.pruneTransactions_frame hj hblock heq
  obtain ⟨hheader, -, hdigests⟩ := pruneBlock_keeps hb'
  exact ⟨_, _, _, _, heq, hlen, hframe, rfl, hlog.prune hj hb', hrs', rfl, rfl, hheader, hdigests⟩

/-- A block format to run the log on: an 18-byte header whose bytes 14 to 17 hold the previous
block's number big-endian, one byte for a receipt's header, a signature and the extensions, and a
digest and a transaction's id made of the first 32 bytes hashed, padded with zeros. -/
def exampleFormat : BlockFormat {l : List UInt8 // l.length = 18} UInt8 UInt8 UInt8 where
  header := Packer.fixed 18
  receiptHeader := Packer.byte
  signature := Packer.byte
  extensions := Packer.byte
  blockNum h := UInt32.ofNat (ofListLE (readAt h.1 14 4).reverse) + 1
  hash bytes := ⟨(bytes ++ List.replicate 32 0).take 32, by simp⟩
  transactionId _ bytes := ⟨(bytes ++ List.replicate 32 0).take 32, by simp⟩
  blockNum_pack h rest := by
    show UInt32.ofNat (ofListLE (readAt (h.1 ++ rest) 14 4).reverse) + 1 = _
    rw [readAt_append_left (by rw [h.2])]

/-- The header of the block after block `previous`. -/
def exampleHeader (previous : ℕ) : {l : List UInt8 // l.length = 18} :=
  ⟨List.replicate 14 0 ++ (toListLE 4 previous).reverse, by simp⟩

/-- A receipt of a packed transaction with context free data. -/
def exampleReceipt (trx : List UInt8) : TransactionReceipt UInt8 UInt8 :=
  ⟨0, .inr ⟨.none, .fullLegacy [] [7], trx⟩⟩

/-- Block 1 with two different transactions, and block 2 with one transaction twice, each in
the entry `pack` writes for it. -/
def exampleEntries :
    List (List UInt8 × SignedBlock {l : List UInt8 // l.length = 18} UInt8 UInt8 UInt8) :=
  [⟨exampleHeader 0, .complete, [exampleReceipt [1], exampleReceipt [2]], 0⟩,
    ⟨exampleHeader 1, .complete, [exampleReceipt [1], exampleReceipt [1]], 0⟩].map fun b =>
    ((packBody exampleFormat b).getD [], b)

def exampleChainId : Sha256 := ⟨List.replicate 32 9, by simp⟩

/-- A version-4 `blocks.log` from block 1 holding `exampleEntries`, and its index. -/
def exampleLog : BlockLogData :=
  ⟨preambleBytes 4 1 exampleChainId ++ placed nbytesWithChainId 0 (exampleEntries.map Prod.fst),
    4, 1, exampleChainId, nbytesWithChainId⟩

def exampleIndex : List UInt8 :=
  indexBytes (positions nbytesWithChainId (exampleEntries.map Prod.fst))

theorem exampleLog_prunable : PrunableLog exampleFormat exampleLog exampleIndex exampleEntries where
  wellFormed :=
    { layout := ⟨preambleBytes 4 1 exampleChainId, rfl, rfl⟩
      index_eq := rfl
      nonempty := by decide +kernel
      headers := by decide +kernel
      numbered := by decide +kernel
      fits := by decide +kernel
      first_pos := by decide
      no_wrap := by decide +kernel }
  version := by decide
  holds := by
    intro e he
    simp only [exampleEntries, List.map_cons, List.map_nil, List.mem_cons, List.not_mem_nil,
      or_false] at he
    rcases he with rfl | rfl <;>
      exact packBody_holdsBlock exampleFormat (by decide +kernel) (by decide +kernel)

theorem blockLogRewrites_preserveContent_exampleLog :
    (∃ data' index', trimBlocklogFront exampleLog exampleIndex 2 = some (true, data', index') ∧
      (BlockLogData.mk data' (trimmedVersion exampleLog.version) 2 exampleLog.chainId
        nbytesWithChainId).WellFormed index'
          ((exampleEntries.map Prod.fst).drop (2 - exampleLog.firstBlockNum).toNat) ∧
      entryFormat (trimmedVersion exampleLog.version) = entryFormat exampleLog.version) ∧
    ∃ b' data' ids' n,
      pruneTransactions exampleFormat exampleLog exampleIndex exampleLog.lastBlockNum 1
        [exampleFormat.transactionId .none [1]] = some (data', ids', n) ∧
      data'.length = exampleLog.data.length ∧
      (∀ i, i < exampleLog.firstBlockPosition +
          entriesLength ((exampleEntries.map Prod.fst).take 0) + (4 + 1) ∨
        exampleLog.firstBlockPosition + entriesLength ((exampleEntries.map Prod.fst).take 0) +
          (exampleEntries.get ⟨0, by decide⟩).1.length ≤ i →
        data'[i]? = exampleLog.data[i]?) ∧
      data' = (exampleLog.withBodies ((exampleEntries.set 0
        (prunedEntry exampleFormat (exampleEntries.get ⟨0, by decide⟩) b')).map Prod.fst)).data ∧
      PrunableLog exampleFormat (exampleLog.withBodies ((exampleEntries.set 0
          (prunedEntry exampleFormat (exampleEntries.get ⟨0, by decide⟩) b')).map Prod.fst))
        exampleIndex
        (exampleEntries.set 0 (prunedEntry exampleFormat (exampleEntries.get ⟨0, by decide⟩) b')) ∧
      (exampleEntries.get ⟨0, by decide⟩).2.transactions.mapM
        (pruneIfListed exampleFormat [exampleFormat.transactionId .none [1]]) =
        some b'.transactions ∧
      ids' = [exampleFormat.transactionId .none [1]].diff (listedIds exampleFormat
        [exampleFormat.transactionId .none [1]] (exampleEntries.get ⟨0, by decide⟩).2.transactions) ∧
      n = (listedIds exampleFormat [exampleFormat.transactionId .none [1]]
        (exampleEntries.get ⟨0, by decide⟩).2.transactions).length ∧
      b'.header = (exampleEntries.get ⟨0, by decide⟩).2.header ∧
      b'.transactions.map (TransactionReceipt.digest exampleFormat) =
        (exampleEntries.get ⟨0, by decide⟩).2.transactions.map
          (TransactionReceipt.digest exampleFormat) :=
  ⟨(blockLogRewrites_preserveContent exampleFormat).1 exampleLog exampleIndex
      (exampleEntries.map Prod.fst) 2 exampleLog_prunable.wellFormed (by decide) (by decide +kernel),
    (blockLogRewrites_preserveContent exampleFormat).2 exampleLog exampleIndex exampleEntries 0 1
      [exampleFormat.transactionId .none [1]] (by decide) exampleLog_prunable (by decide)
      (by decide +kernel)⟩

/-- Whether a receipt's packed transaction has had its prunable data pruned to `none`. -/
def TransactionReceipt.prunedToNone (r : TransactionReceipt RH Sig) : Bool :=
  match r.trx with
  | .inl _ => false
  | .inr t =>
    match t.prunableData with
    | .none _ => true
    | _ => false

/-- **A listed transaction can stay unpruned.** Block 2 of `exampleLog` holds one transaction
twice. `prune_transactions(2, [id])` prunes the first, erases `id` from the list, and then
passes the second, whose id is no longer listed: read back from the file (its entry starts at
byte 158), the block's second transaction still has its context free data. -/
theorem pruneTransactions_duplicateId :
    PrunableLog exampleFormat exampleLog exampleIndex exampleEntries ∧
      ((pruneTransactions exampleFormat exampleLog exampleIndex exampleLog.lastBlockNum 2
        [exampleFormat.transactionId .none [1]]).bind fun x =>
          unpackEntry exampleFormat (x.1.drop 158)).map
        (fun x => x.2.transactions.map fun r => (r.packedId exampleFormat, r.prunedToNone)) =
        some [(some (exampleFormat.transactionId .none [1]), true),
          (some (exampleFormat.transactionId .none [1]), false)] :=
  ⟨exampleLog_prunable, by decide +kernel⟩

end Eosio.Chain
