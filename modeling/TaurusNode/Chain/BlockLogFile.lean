import Mathlib
import TaurusNode.Lib.Bytes
import TaurusNode.Chain.BlockLog
import TaurusNode.Chain.PrunableBlock

/-!
# The bytes of `blocks.log` and `blocks.index`

`blocks.log` is a preamble followed by one entry per block, and each entry ends in the 8 bytes of
its own position (block_log.cpp). `blocks.index` holds the same positions, 8 bytes a block. The
model keeps the files as their bytes: the entries are `placed` one after the other from the first
block's position, each body followed by its position, and `positions` lists where they start.
`WellFormed` says that a pair of files is laid out so, that each body holds its block's number
where `block_num_at` reads it, and that the numbers run on from the preamble's first block.

`trim_blocklog_front` writes a new `blocks.log` with a chain-id preamble and the bytes from the
first kept block on, then walks the copy backwards through its trailers with
`reverse_block_position_iterator`: at each trailer it reads the old position, writes the position
less the bytes trimmed to the trailer and to the index (`index_writer` fills the index from its
end), and moves to the trailer before the entry, read back from the value it has just written.
The walk stops at the preamble (`trimPositions_placed`). So the trimmed files are a well-formed
pair again, starting at the truncation block, holding the same entry bodies
(`wellFormed_trimmed`) and read in the same entry format.

`trim_blocklog_end` cuts both files after the last block to keep, at the position the index holds
for the block after it. Before the last block the cut files are the well-formed pair of the kept
bodies (`trimBlocklogEnd_eq`, `WellFormed.take`).
-/

namespace Eosio.Chain

open Bytes

/-- `block_log::npos`. -/
def npos : ℕ := 2 ^ 64 - 1

/-- Subtraction of two `uint64_t`s. -/
def u64Sub (a b : ℕ) : ℕ := (a + 2 ^ 64 - b) % 2 ^ 64

theorem u64Sub_eq {a b : ℕ} (hba : b ≤ a) (ha : a < 2 ^ 64) : u64Sub a b = a - b := by
  unfold u64Sub
  rw [show a + 2 ^ 64 - b = a - b + 2 ^ 64 by omega, Nat.add_mod_right, Nat.mod_eq_of_lt (by omega)]

/-- `genesis_state_or_chain_id_version`. -/
def genesisStateOrChainIdVersion : UInt32 := 3

/-- `block_log_preamble::nbytes_with_chain_id`: the version, the first block number, the chain id
and the totem. -/
def nbytesWithChainId : ℕ := 4 + 4 + 32 + 8

/-- `offset_to_block_start`: a version-4 entry starts with its size and its compression. -/
def offsetToBlockStart (version : UInt32) : ℕ :=
  if version ≥ prunedTransactionVersion then 4 + 1 else 0

/-- `read_buffer<uint64_t>`: the 8 little-endian bytes at `pos`. -/
def readU64 (bytes : List UInt8) (pos : ℕ) : ℕ := ofListLE (readAt bytes pos 8)

/-- `block_log_preamble::write_to` of a preamble with a version other than 1 and a chain id. -/
def preambleBytes (version firstBlockNum : UInt32) (chainId : Sha256) : List UInt8 :=
  toListLE 4 version.toNat ++ toListLE 4 firstBlockNum.toNat ++ chainId.bytes ++ toListLE 8 npos

@[simp] theorem length_preambleBytes (version firstBlockNum : UInt32) (chainId : Sha256) :
    (preambleBytes version firstBlockNum chainId).length = nbytesWithChainId := by
  simp [preambleBytes, chainId.length_bytes, nbytesWithChainId]

/-- `block_log_data` opened on `blocks.log`: its bytes, the preamble `read_from` parsed (the
version, the first block number, the chain id of the genesis state or the one stored) and the
position after the preamble. -/
structure BlockLogData where
  data : List UInt8
  version : UInt32
  firstBlockNum : UInt32
  chainId : Sha256
  firstBlockPosition : ℕ

namespace BlockLogData

/-- `block_num_at`: one more than the number in the previous block's id, whose first four bytes
are the number big-endian, at byte 14 of the header. -/
def blockNumAt (log : BlockLogData) (position : ℕ) : Option UInt32 :=
  if position ≤ log.data.length then
    some (UInt32.ofNat
      (ofListLE (readAt log.data (position + 14 + offsetToBlockStart log.version) 4).reverse) + 1)
  else none

/-- `last_block_position`: the trailer of the last entry. -/
def lastBlockPosition (log : BlockLogData) : ℕ := readU64 log.data (log.data.length - 8)

/-- `last_block_num`. -/
def lastBlockNum (log : BlockLogData) : Option UInt32 := log.blockNumAt log.lastBlockPosition

/-- `num_blocks`. -/
def numBlocks (log : BlockLogData) : Option ℕ :=
  if log.firstBlockPosition = log.data.length then some 0
  else log.lastBlockNum.map fun last => (last - log.firstBlockNum + 1).toNat

end BlockLogData

/-- `log_index::nth_block_position`. -/
def nthBlockPosition (index : List UInt8) (n : ℕ) : ℕ := readU64 index (8 * n)

/-! ### Entries laid out one after the other -/

/-- The bytes entries with these bodies take, each with its 8-byte trailer. -/
def entriesLength (bodies : List (List UInt8)) : ℕ := (bodies.map fun b => b.length + 8).sum

/-- Entries laid out from offset `o`, each body followed by the 8 bytes of its position plus `d`:
a log's entries end in their own positions (`d = 0`), the copy `trim_blocklog_front` makes ends
in their positions in the old file until the walk rewrites them. -/
def placed (o d : ℕ) : List (List UInt8) → List UInt8
  | [] => []
  | b :: bs => b ++ toListLE 8 (o + d) ++ placed (o + b.length + 8) d bs

/-- Where each entry laid out from `o` starts. -/
def positions (o : ℕ) : List (List UInt8) → List ℕ
  | [] => []
  | b :: bs => o :: positions (o + b.length + 8) bs

/-- The bytes of `blocks.index`: each position in 8 little-endian bytes. -/
def indexBytes (ps : List ℕ) : List UInt8 := ps.flatMap (toListLE 8)

/-- The block number a body holds, where `block_num_at` reads it. -/
def bodyBlockNum (version : UInt32) (body : List UInt8) : UInt32 :=
  UInt32.ofNat (ofListLE (readAt body (14 + offsetToBlockStart version) 4).reverse) + 1

@[simp] theorem entriesLength_nil : entriesLength [] = 0 := rfl

@[simp] theorem entriesLength_cons (b : List UInt8) (bs : List (List UInt8)) :
    entriesLength (b :: bs) = b.length + 8 + entriesLength bs := rfl

@[simp] theorem entriesLength_append (xs ys : List (List UInt8)) :
    entriesLength (xs ++ ys) = entriesLength xs + entriesLength ys := by
  simp [entriesLength]

theorem length_le_entriesLength (bs : List (List UInt8)) : bs.length ≤ entriesLength bs := by
  induction bs with
  | nil => rfl
  | cons b bs ih =>
    rw [entriesLength_cons, List.length_cons]
    omega

@[simp] theorem placed_nil (o d : ℕ) : placed o d [] = [] := rfl

@[simp] theorem length_placed (o d : ℕ) (bs : List (List UInt8)) :
    (placed o d bs).length = entriesLength bs := by
  induction bs generalizing o with
  | nil => rfl
  | cons b bs ih =>
    simp only [placed, List.length_append, length_toListLE, ih, entriesLength_cons]

theorem placed_append (o d : ℕ) (xs ys : List (List UInt8)) :
    placed o d (xs ++ ys) = placed o d xs ++ placed (o + entriesLength xs) d ys := by
  induction xs generalizing o with
  | nil => simp
  | cons b bs ih =>
    simp only [List.cons_append, placed, ih, entriesLength_cons, List.append_assoc]
    congr 4
    omega

/-- Laying out further on is laying out with trailers that hold positions further on. -/
theorem placed_add (o e d : ℕ) (bs : List (List UInt8)) :
    placed (o + e) d bs = placed o (e + d) bs := by
  induction bs generalizing o with
  | nil => rfl
  | cons b bs ih =>
    simp only [placed]
    rw [show o + e + b.length + 8 = o + b.length + 8 + e by omega, ih]
    congr 3
    omega

@[simp] theorem length_positions (o : ℕ) (bs : List (List UInt8)) :
    (positions o bs).length = bs.length := by
  induction bs generalizing o with
  | nil => rfl
  | cons b bs ih => simp [positions, ih]

theorem positions_append (o : ℕ) (xs ys : List (List UInt8)) :
    positions o (xs ++ ys) = positions o xs ++ positions (o + entriesLength xs) ys := by
  induction xs generalizing o with
  | nil => simp [positions]
  | cons b bs ih =>
    simp only [List.cons_append, positions, ih, entriesLength_cons, List.cons.injEq, true_and]
    congr 2
    omega

/-- The `k`-th entry starts after the first `k`. -/
theorem getElem_positions (o : ℕ) (bs : List (List UInt8)) (k : ℕ)
    (hk : k < (positions o bs).length) :
    (positions o bs)[k] = o + entriesLength (bs.take k) := by
  induction bs generalizing o k with
  | nil => simp [positions] at hk
  | cons b bs ih =>
    cases k with
    | zero => simp [positions]
    | succ k =>
      simp only [positions, List.getElem_cons_succ, List.take_succ_cons, entriesLength_cons]
      rw [ih _ k (by simpa [positions] using hk)]
      omega

@[simp] theorem indexBytes_nil : indexBytes [] = [] := rfl

@[simp] theorem length_indexBytes (ps : List ℕ) : (indexBytes ps).length = 8 * ps.length := by
  induction ps with
  | nil => rfl
  | cons p ps ih =>
    simp only [indexBytes, List.flatMap_cons, List.length_append, length_toListLE] at ih ⊢
    rw [ih, List.length_cons]
    omega

theorem indexBytes_append (ps qs : List ℕ) : indexBytes (ps ++ qs) = indexBytes ps ++ indexBytes qs :=
  List.flatMap_append

/-- The `k`-th word of an index is the `k`-th position. -/
theorem readU64_indexBytes {ps : List ℕ} (hps : ∀ p ∈ ps, p < 2 ^ 64) (k : ℕ) (hk : k < ps.length) :
    readU64 (indexBytes ps) (8 * k) = ps[k] := by
  induction ps generalizing k with
  | nil => simp at hk
  | cons p ps ih =>
    cases k with
    | zero =>
      simp only [readU64, indexBytes, List.flatMap_cons, Nat.mul_zero, List.getElem_cons_zero]
      rw [readAt_append_left (by simp), readAt_of_length_eq (length_toListLE 8 p),
        ofListLE_toListLE_of_lt (by simpa using hps p (by simp))]
    | succ k =>
      have hrest := ih (fun q hq => hps q (List.mem_cons_of_mem p hq)) k (by simpa using hk)
      simp only [readU64, indexBytes, List.flatMap_cons, List.getElem_cons_succ] at hrest ⊢
      rw [show 8 * (k + 1) = 8 + 8 * k by omega, readAt_append_right (length_toListLE 8 p)]
      exact hrest

/-- An 8-byte trailer reads back as the position it holds. -/
theorem readU64_trailer (a c : List UInt8) {v : ℕ} (hv : v < 2 ^ 64) :
    readU64 (a ++ toListLE 8 v ++ c) a.length = v := by
  unfold readU64
  rw [List.append_assoc, readAt_append_length, readAt_append_left (by simp),
    readAt_of_length_eq (length_toListLE 8 v), ofListLE_toListLE_of_lt (by simpa using hv)]

/-! ### A pair of files laid out so -/

/-- A `blocks.log` and a `blocks.index` as the block log writes them: after the preamble, one
entry per body ending in its position, the index holding the positions, every body long enough
to hold a header up to the previous block's id, and the bodies numbered on from the first block
of the preamble. -/
structure BlockLogData.WellFormed (log : BlockLogData) (index : List UInt8)
    (bodies : List (List UInt8)) : Prop where
  layout : ∃ pre : List UInt8, pre.length = log.firstBlockPosition ∧
    log.data = pre ++ placed log.firstBlockPosition 0 bodies
  index_eq : index = indexBytes (positions log.firstBlockPosition bodies)
  nonempty : bodies ≠ []
  headers : ∀ b ∈ bodies, 46 + offsetToBlockStart log.version ≤ b.length
  numbered : ∀ (j : ℕ) (hj : j < bodies.length),
    (bodyBlockNum log.version bodies[j]).toNat = log.firstBlockNum.toNat + j
  fits : log.data.length < 2 ^ 64
  first_pos : 0 < log.firstBlockNum.toNat
  no_wrap : log.firstBlockNum.toNat + bodies.length ≤ 2 ^ 32

/-! ### `trim_blocklog_front` -/

/-- `reverse_block_position_iterator`: the trailer it is at, and the one before the first entry,
where it stops. -/
structure ReverseBlockPositionIterator where
  beginPosition : ℕ
  currentPosition : ℕ

namespace ReverseBlockPositionIterator

/-- `make_reverse_block_position_iterator(data, first_block_position)`: at the last trailer. -/
def make (data : List UInt8) (firstBlockPosition : ℕ) : ReverseBlockPositionIterator :=
  ⟨u64Sub firstBlockPosition 8, u64Sub data.length 8⟩

/-- `get_value`: the position in the current trailer, `npos` once at the beginning. -/
def getValue (itr : ReverseBlockPositionIterator) (data : List UInt8) : ℕ :=
  if itr.currentPosition ≤ itr.beginPosition then npos else readU64 data itr.currentPosition

/-- `set_value`: overwrites the current trailer. -/
def setValue (itr : ReverseBlockPositionIterator) (data : List UInt8) (pos : ℕ) : List UInt8 :=
  writeAt data itr.currentPosition (toListLE 8 pos)

/-- `operator++`: to the trailer before the entry whose position the current trailer holds. -/
def next (itr : ReverseBlockPositionIterator) (data : List UInt8) :
    Option ReverseBlockPositionIterator :=
  if itr.beginPosition < itr.currentPosition ∧ itr.currentPosition < data.length then
    some { itr with currentPosition := u64Sub (readU64 data itr.currentPosition) 8 }
  else none

end ReverseBlockPositionIterator

/-- `index_writer`: a zeroed `blocks.index` of the expected size, filled from its end. -/
structure IndexWriter where
  index : List UInt8
  currentOffset : ℕ

namespace IndexWriter

def create (blocksExpected : ℕ) : IndexWriter :=
  ⟨List.replicate (8 * blocksExpected) 0, 8 * blocksExpected⟩

/-- `write`: the position into the word before the last one written; past the start of the file
the source writes out of bounds, and the model fails. -/
def write (w : IndexWriter) (pos : ℕ) : Option IndexWriter :=
  if 8 ≤ w.currentOffset then
    some ⟨writeAt w.index (w.currentOffset - 8) (toListLE 8 pos), w.currentOffset - 8⟩
  else none

end IndexWriter

/-- The loop of `trim_blocklog_front` over the trailers of the new file, from the last one back:
each position less the bytes trimmed, into the index and into the trailer. A well-formed file
takes one step an entry, and `fuel` bounds the steps; where the source would loop on, the model
stops with nothing. -/
def trimPositions (nbytesToTrim : ℕ) :
    ℕ → List UInt8 → IndexWriter → ReverseBlockPositionIterator → Option (List UInt8 × IndexWriter)
  | 0, _, _, _ => none
  | fuel + 1, file, index, itr =>
    if itr.getValue file = npos then some (file, index)
    else
      let newPos := u64Sub (itr.getValue file) nbytesToTrim
      (index.write newPos).bind fun index =>
        let file := itr.setValue file newPos
        (itr.next file).bind fun itr => trimPositions nbytesToTrim fuel file index itr

/-- The version of the trimmed log: an entry format of version 4 or above cannot be written in
version 3 or below, so those keep the old format under version 3. -/
def trimmedVersion (version : UInt32) : UInt32 :=
  if version < prunedTransactionVersion then genesisStateOrChainIdVersion else maxSupportedVersion

/-- `block_log::trim_blocklog_front(block_dir, temp_dir, truncate_at_block)` on the bytes of
`blocks.log` (as `block_log_data` opened it) and of `blocks.index`: the flag it returns and the
two files in the block directory afterwards. -/
def trimBlocklogFront (log : BlockLogData) (index : List UInt8) (truncateAtBlock : UInt32) :
    Option (Bool × List UInt8 × List UInt8) :=
  -- `block_log_bundle`: the index is whole words and agrees with the log on the number of blocks
  if index.length % 8 ≠ 0 then none else
  (log.numBlocks).bind fun logNumBlocks =>
  if logNumBlocks ≠ index.length / 8 then none else
  if truncateAtBlock ≤ log.firstBlockNum then some (false, log.data, index) else
  (log.lastBlockNum).bind fun lastBlockNum =>
  if truncateAtBlock > lastBlockNum then some (false, log.data, index) else
  let numBlocksToTruncate := (truncateAtBlock - log.firstBlockNum).toNat
  let firstKeptBlockPos := nthBlockPosition index numBlocksToTruncate
  let nbytesToTrim := u64Sub firstKeptBlockPos nbytesWithChainId
  let newBlockFileSize := u64Sub log.data.length nbytesToTrim
  -- the preamble is written into a file of the new size, and the kept bytes copied after it
  if newBlockFileSize < nbytesWithChainId then none else
  if log.data.length < firstKeptBlockPos + (newBlockFileSize - nbytesWithChainId) then none else
  let newFile := preambleBytes (trimmedVersion log.version) truncateAtBlock log.chainId ++
    readAt log.data firstKeptBlockPos (newBlockFileSize - nbytesWithChainId)
  (trimPositions nbytesToTrim newBlockFileSize newFile
      (IndexWriter.create (index.length / 8 - numBlocksToTruncate))
      (ReverseBlockPositionIterator.make newFile nbytesWithChainId)).map fun x =>
    (true, x.1, x.2.index)

/-! ### The walk -/

/-- One step of the walk, at the trailer of an entry `b` that starts at `a.length` and whose
trailer still holds its old position: the trailer and the index word before the ones written get
the new position, and the iterator moves to the trailer before `b`, read back from the value just
written. -/
theorem trimPositions_step {a b c r idx : List UInt8} {nb beginPosition fuel : ℕ}
    (hbegin : beginPosition < a.length + b.length) (hold : a.length + nb < npos)
    (hprev : 8 ≤ a.length) :
    trimPositions nb (fuel + 1) (a ++ b ++ toListLE 8 (a.length + nb) ++ c)
      ⟨r ++ List.replicate 8 0 ++ idx, r.length + 8⟩ ⟨beginPosition, a.length + b.length⟩ =
    trimPositions nb fuel (a ++ b ++ toListLE 8 a.length ++ c)
      ⟨r ++ toListLE 8 a.length ++ idx, r.length⟩ ⟨beginPosition, a.length - 8⟩ := by
  have hlt : a.length + nb < 2 ^ 64 := by unfold npos at hold; omega
  have hvalue : readU64 (a ++ b ++ toListLE 8 (a.length + nb) ++ c) (a.length + b.length) =
      a.length + nb := by
    rw [← List.length_append, readU64_trailer _ _ hlt]
  have hnew : u64Sub (a.length + nb) nb = a.length := by
    rw [u64Sub_eq (by omega) hlt]
    omega
  have hset : writeAt (a ++ b ++ toListLE 8 (a.length + nb) ++ c) (a.length + b.length)
      (toListLE 8 a.length) = a ++ b ++ toListLE 8 a.length ++ c := by
    rw [← List.length_append, writeAt_append _ _ _ _ (by simp)]
  have hindex : writeAt (r ++ List.replicate 8 0 ++ idx) r.length (toListLE 8 a.length) =
      r ++ toListLE 8 a.length ++ idx :=
    writeAt_append _ _ _ _ (by simp)
  have hback : readU64 (a ++ b ++ toListLE 8 a.length ++ c) (a.length + b.length) = a.length := by
    rw [← List.length_append, readU64_trailer _ _ (by omega)]
  have hlen : a.length + b.length < (a ++ b ++ toListLE 8 a.length ++ c).length := by
    simp only [List.length_append, length_toListLE]
    omega
  have hprevPos : u64Sub a.length 8 = a.length - 8 := u64Sub_eq hprev (by omega)
  -- what the iterator and the index writer do at this trailer
  have hget : ReverseBlockPositionIterator.getValue ⟨beginPosition, a.length + b.length⟩
      (a ++ b ++ toListLE 8 (a.length + nb) ++ c) = a.length + nb := by
    rw [ReverseBlockPositionIterator.getValue]
    dsimp only
    rw [if_neg (by omega), hvalue]
  have hwrite : IndexWriter.write ⟨r ++ List.replicate 8 0 ++ idx, r.length + 8⟩ a.length =
      some ⟨r ++ toListLE 8 a.length ++ idx, r.length⟩ := by
    rw [IndexWriter.write]
    dsimp only
    rw [if_pos (by omega), Nat.add_sub_cancel, hindex]
  have hnext : ReverseBlockPositionIterator.next ⟨beginPosition, a.length + b.length⟩
      (a ++ b ++ toListLE 8 a.length ++ c) = some ⟨beginPosition, a.length - 8⟩ := by
    rw [ReverseBlockPositionIterator.next]
    dsimp only
    rw [if_pos ⟨hbegin, hlen⟩, hback, hprevPos]
  rw [trimPositions, hget, if_neg (Nat.ne_of_lt hold), hnew]
  dsimp only
  rw [hwrite, Option.bind_some, ReverseBlockPositionIterator.setValue]
  dsimp only
  rw [hset, hnext, Option.bind_some]

/-- The whole walk over a copy whose trailers hold the old positions, `nb` more than the new ones:
from the last entry back to the first, every trailer and every index word gets the entry's new
position, and the walk stops at the preamble. By induction on the entries not yet rewritten. -/
theorem trimPositions_placed {pre : List UInt8} (hpre : pre.length = nbytesWithChainId) (nb : ℕ) :
    ∀ (xs ys : List (List UInt8)) (fuel : ℕ), xs.length < fuel →
      nbytesWithChainId + nb + entriesLength xs < 2 ^ 64 →
      trimPositions nb fuel
        (pre ++ placed nbytesWithChainId nb xs ++
          placed (nbytesWithChainId + entriesLength xs) 0 ys)
        ⟨List.replicate (8 * xs.length) 0 ++
          indexBytes (positions (nbytesWithChainId + entriesLength xs) ys), 8 * xs.length⟩
        ⟨nbytesWithChainId - 8, nbytesWithChainId + entriesLength xs - 8⟩ =
      some (pre ++ placed nbytesWithChainId 0 (xs ++ ys),
        ⟨indexBytes (positions nbytesWithChainId (xs ++ ys)), 0⟩) := by
  intro xs
  induction xs using List.reverseRecOn with
  | nil =>
    -- at the preamble: `get_value` is `npos`
    intro ys fuel hfuel _
    obtain ⟨f, rfl⟩ : ∃ f, fuel = f + 1 := ⟨fuel - 1, by simp at hfuel; omega⟩
    simp [trimPositions, ReverseBlockPositionIterator.getValue]
  | append_singleton xs b ih =>
    intro ys fuel hfuel hfits
    obtain ⟨f, rfl⟩ : ∃ f, fuel = f + 1 := ⟨fuel - 1, by simp at hfuel; omega⟩
    have hE : entriesLength (xs ++ [b]) = entriesLength xs + b.length + 8 := by simp; omega
    have ha : (pre ++ placed nbytesWithChainId nb xs).length =
        nbytesWithChainId + entriesLength xs := by simp [hpre]
    -- the file and the index, cut at the trailer of `b` and at the word for `b`
    have hfile : pre ++ placed nbytesWithChainId nb (xs ++ [b]) ++
        placed (nbytesWithChainId + entriesLength (xs ++ [b])) 0 ys =
        pre ++ placed nbytesWithChainId nb xs ++ b ++
          toListLE 8 ((pre ++ placed nbytesWithChainId nb xs).length + nb) ++
          placed (nbytesWithChainId + entriesLength xs + b.length + 8) 0 ys := by
      rw [placed_append, ha, hE]
      simp only [placed, List.append_assoc, List.append_nil, Nat.add_assoc]
    have hindex : List.replicate (8 * (xs ++ [b]).length) (0 : UInt8) ++
        indexBytes (positions (nbytesWithChainId + entriesLength (xs ++ [b])) ys) =
        List.replicate (8 * xs.length) 0 ++ List.replicate 8 0 ++
          indexBytes (positions (nbytesWithChainId + entriesLength xs + b.length + 8) ys) := by
      rw [List.length_append, List.length_singleton, Nat.mul_add, Nat.mul_one,
        ← List.replicate_append_replicate, hE]
      simp only [Nat.add_assoc]
    have hoff : 8 * (xs ++ [b]).length = (List.replicate (8 * xs.length) (0 : UInt8)).length + 8 := by
      simp only [List.length_append, List.length_singleton, List.length_replicate]
      omega
    have hcur : nbytesWithChainId + entriesLength (xs ++ [b]) - 8 =
        (pre ++ placed nbytesWithChainId nb xs).length + b.length := by
      rw [ha, hE]
      omega
    rw [hfile, hindex, hoff, hcur,
      trimPositions_step (by simp [nbytesWithChainId] at ha ⊢; omega)
        (by unfold npos; rw [ha]; omega) (by rw [ha]; simp [nbytesWithChainId]; omega)]
    -- what is left is the walk over `xs`, with `b` rewritten
    have hfile' : pre ++ placed nbytesWithChainId nb xs ++ b ++
        toListLE 8 (pre ++ placed nbytesWithChainId nb xs).length ++
        placed (nbytesWithChainId + entriesLength xs + b.length + 8) 0 ys =
        pre ++ placed nbytesWithChainId nb xs ++
          placed (nbytesWithChainId + entriesLength xs) 0 (b :: ys) := by
      rw [ha]
      simp only [placed, Nat.add_zero, List.append_assoc]
    have hindex' : List.replicate (8 * xs.length) (0 : UInt8) ++
        toListLE 8 (pre ++ placed nbytesWithChainId nb xs).length ++
        indexBytes (positions (nbytesWithChainId + entriesLength xs + b.length + 8) ys) =
        List.replicate (8 * xs.length) 0 ++
          indexBytes (positions (nbytesWithChainId + entriesLength xs) (b :: ys)) := by
      rw [ha]
      simp only [positions, indexBytes, List.flatMap_cons, List.append_assoc]
    rw [hfile', hindex', List.length_replicate, ha,
      ih (b :: ys) f (by simp at hfuel; omega) (by rw [hE] at hfits; omega)]
    simp

/-- The entries before the `k`-th, and the `k`-th, fit in all of them. -/
theorem entriesLength_take_lt {bodies : List (List UInt8)} {k : ℕ} (hk : k < bodies.length) :
    entriesLength (bodies.take k) + bodies[k].length + 8 ≤ entriesLength bodies := by
  have hsplit : bodies = bodies.take k ++ bodies[k] :: bodies.drop (k + 1) := by
    rw [← List.drop_eq_getElem_cons hk, List.take_append_drop]
  conv_rhs => rw [hsplit]
  simp only [entriesLength_append, entriesLength_cons]
  omega

/-! ### What a well-formed pair of files gives -/

namespace BlockLogData.WellFormed

variable {log : BlockLogData} {index : List UInt8} {bodies : List (List UInt8)}

theorem data_eq_split (hwf : log.WellFormed index bodies) (k : ℕ) :
    ∃ pre : List UInt8, pre.length = log.firstBlockPosition ∧
      log.data = pre ++ placed log.firstBlockPosition 0 (bodies.take k) ++
        placed (log.firstBlockPosition + entriesLength (bodies.take k)) 0 (bodies.drop k) := by
  obtain ⟨pre, hpre, hdata⟩ := hwf.layout
  refine ⟨pre, hpre, ?_⟩
  rw [hdata, List.append_assoc, ← placed_append, List.take_append_drop]

theorem length_data (hwf : log.WellFormed index bodies) :
    log.data.length = log.firstBlockPosition + entriesLength bodies := by
  obtain ⟨pre, hpre, hdata⟩ := hwf.layout
  rw [hdata, List.length_append, length_placed, hpre]

theorem positions_lt (hwf : log.WellFormed index bodies) :
    ∀ p ∈ positions log.firstBlockPosition bodies, p < 2 ^ 64 := by
  intro p hp
  obtain ⟨k, hk, rfl⟩ := List.getElem_of_mem hp
  have hk' : k < bodies.length := by simpa using hk
  rw [getElem_positions _ _ _ hk]
  have := entriesLength_take_lt hk'
  have := hwf.fits
  rw [hwf.length_data] at this
  omega

theorem length_index (hwf : log.WellFormed index bodies) : index.length = 8 * bodies.length := by
  rw [hwf.index_eq, length_indexBytes, length_positions]

/-- The index gives each block's position. -/
theorem nthBlockPosition_eq (hwf : log.WellFormed index bodies) {k : ℕ} (hk : k < bodies.length) :
    nthBlockPosition index k = log.firstBlockPosition + entriesLength (bodies.take k) := by
  rw [nthBlockPosition, hwf.index_eq,
    readU64_indexBytes hwf.positions_lt k (by simpa using hk),
    getElem_positions _ _ _ (by simpa using hk)]

/-- `block_num_at` at an entry's position reads the number its body holds. -/
theorem blockNumAt_eq (hwf : log.WellFormed index bodies) {k : ℕ} (hk : k < bodies.length) :
    log.blockNumAt (log.firstBlockPosition + entriesLength (bodies.take k)) =
      some (bodyBlockNum log.version bodies[k]) := by
  obtain ⟨pre, hpre, hdata⟩ := hwf.data_eq_split k
  have hdrop : bodies.drop k = bodies[k] :: bodies.drop (k + 1) := List.drop_eq_getElem_cons hk
  have hat : (pre ++ placed log.firstBlockPosition 0 (bodies.take k)).length =
      log.firstBlockPosition + entriesLength (bodies.take k) := by simp [hpre]
  have hhead := hwf.headers _ (List.getElem_mem hk)
  have hle : log.firstBlockPosition + entriesLength (bodies.take k) ≤ log.data.length := by
    have := entriesLength_take_lt hk
    rw [hwf.length_data]
    omega
  -- the four bytes sit inside the body, which sits after the entries before it
  have hsplit : log.data = (pre ++ placed log.firstBlockPosition 0 (bodies.take k)) ++ (bodies[k] ++
      (toListLE 8 (log.firstBlockPosition + entriesLength (bodies.take k) + 0) ++
        placed (log.firstBlockPosition + entriesLength (bodies.take k) + bodies[k].length + 8) 0
          (bodies.drop (k + 1)))) := by
    rw [hdata, hdrop, placed]
    simp only [List.append_assoc]
  have hoff : log.firstBlockPosition + entriesLength (bodies.take k) + 14 +
      offsetToBlockStart log.version =
      (pre ++ placed log.firstBlockPosition 0 (bodies.take k)).length +
        (14 + offsetToBlockStart log.version) := by
    rw [hat]
    omega
  rw [BlockLogData.blockNumAt, if_pos hle, bodyBlockNum, hoff, hsplit, readAt_append_right rfl,
    readAt_append_left (by omega)]

/-- `last_block_position`: the last trailer holds the last entry's position. -/
theorem lastBlockPosition_eq (hwf : log.WellFormed index bodies) :
    log.lastBlockPosition =
      log.firstBlockPosition + entriesLength (bodies.take (bodies.length - 1)) := by
  have hlen := List.length_pos_of_ne_nil hwf.nonempty
  have hk : bodies.length - 1 < bodies.length := by omega
  obtain ⟨pre, hpre, hdata⟩ := hwf.data_eq_split (bodies.length - 1)
  have hdrop : bodies.drop (bodies.length - 1) = [bodies[bodies.length - 1]] := by
    rw [List.drop_eq_getElem_cons hk, List.drop_eq_nil_of_le (by omega)]
  have hat : (pre ++ placed log.firstBlockPosition 0 (bodies.take (bodies.length - 1)) ++
      bodies[bodies.length - 1]).length =
      log.firstBlockPosition + entriesLength (bodies.take (bodies.length - 1)) +
        bodies[bodies.length - 1].length := by simp [hpre, Nat.add_assoc]
  have hE : entriesLength bodies = entriesLength (bodies.take (bodies.length - 1)) +
      bodies[bodies.length - 1].length + 8 := by
    conv_lhs => rw [← List.take_append_drop (bodies.length - 1) bodies, hdrop]
    simp only [entriesLength_append, entriesLength_cons, entriesLength_nil]
    omega
  have hfits := hwf.fits
  rw [hwf.length_data] at hfits
  have hdata' : log.data = pre ++ placed log.firstBlockPosition 0 (bodies.take (bodies.length - 1)) ++
      bodies[bodies.length - 1] ++
      toListLE 8 (log.firstBlockPosition + entriesLength (bodies.take (bodies.length - 1))) ++ [] := by
    rw [hdata, hdrop]
    simp [placed]
  have hsize : log.data.length - 8 = (pre ++ placed log.firstBlockPosition 0
      (bodies.take (bodies.length - 1)) ++ bodies[bodies.length - 1]).length := by
    rw [hwf.length_data, hat]
    omega
  rw [BlockLogData.lastBlockPosition, hsize, hdata', readU64_trailer _ _ (by omega)]

/-- `last_block_num`: the number of the last body, reached through the last trailer. -/
theorem lastBlockNum_eq (hwf : log.WellFormed index bodies) :
    ∃ last, log.lastBlockNum = some last ∧
      last.toNat = log.firstBlockNum.toNat + bodies.length - 1 := by
  have hlen := List.length_pos_of_ne_nil hwf.nonempty
  have hk : bodies.length - 1 < bodies.length := by omega
  refine ⟨_, by rw [BlockLogData.lastBlockNum, hwf.lastBlockPosition_eq, hwf.blockNumAt_eq hk], ?_⟩
  rw [hwf.numbered _ hk]
  omega

/-- From an entry's position on, the file holds its body and then the rest. -/
theorem drop_entry (hwf : log.WellFormed index bodies) {k : ℕ} (hk : k < bodies.length) :
    ∃ rest, log.data.drop (log.firstBlockPosition + entriesLength (bodies.take k)) =
      bodies[k] ++ rest := by
  obtain ⟨pre, hpre, hdata⟩ := hwf.data_eq_split k
  have hat : (pre ++ placed log.firstBlockPosition 0 (bodies.take k)).length =
      log.firstBlockPosition + entriesLength (bodies.take k) := by simp [hpre]
  refine ⟨toListLE 8 (log.firstBlockPosition + entriesLength (bodies.take k) + 0) ++
    placed (log.firstBlockPosition + entriesLength (bodies.take k) + bodies[k].length + 8) 0
      (bodies.drop (k + 1)), ?_⟩
  rw [hdata, List.drop_eq_getElem_cons hk, placed, ← hat, List.drop_left]
  simp only [List.append_assoc]

/-- `num_blocks`: the number of bodies. -/
theorem numBlocks_eq (hwf : log.WellFormed index bodies) : log.numBlocks = some bodies.length := by
  obtain ⟨last, hlast, hlastNat⟩ := hwf.lastBlockNum_eq
  have hlen := List.length_pos_of_ne_nil hwf.nonempty
  have hne : log.firstBlockPosition ≠ log.data.length := by
    rw [hwf.length_data]
    have : 0 < entriesLength bodies := by
      obtain ⟨b, bs, hbs⟩ := List.exists_cons_of_ne_nil hwf.nonempty
      rw [hbs, entriesLength_cons]
      omega
    omega
  have hfirst := hwf.first_pos
  have hwrap := hwf.no_wrap
  have hle : log.firstBlockNum ≤ last := by
    rw [UInt32.le_iff_toNat_le]
    omega
  rw [BlockLogData.numBlocks, if_neg hne, hlast, Option.map_some, Option.some.injEq,
    UInt32.toNat_add, UInt32.toNat_sub_of_le _ _ hle]
  simp only [UInt32.toNat_one]
  rw [Nat.mod_eq_of_lt (by omega)]
  omega

/-- The bytes from the `k`-th entry to the end of the file are the entries from the `k`-th on. -/
theorem readAt_from (hwf : log.WellFormed index bodies) (k : ℕ) :
    readAt log.data (log.firstBlockPosition + entriesLength (bodies.take k))
      (log.data.length - (log.firstBlockPosition + entriesLength (bodies.take k))) =
      placed (log.firstBlockPosition + entriesLength (bodies.take k)) 0 (bodies.drop k) := by
  obtain ⟨pre, hpre, hdata⟩ := hwf.data_eq_split k
  have hat : (pre ++ placed log.firstBlockPosition 0 (bodies.take k)).length =
      log.firstBlockPosition + entriesLength (bodies.take k) := by simp [hpre]
  have hrest : log.data.length - (log.firstBlockPosition + entriesLength (bodies.take k)) =
      (placed (log.firstBlockPosition + entriesLength (bodies.take k)) 0 (bodies.drop k)).length := by
    rw [hdata]
    simp [hpre]
    omega
  rw [hrest]
  conv_lhs => rw [hdata, ← hat, ← Nat.add_zero (List.length _)]
  rw [readAt_append_right rfl, readAt_of_length_eq rfl, Nat.add_zero, hat]

/-- The file is the entries before the `k`-th and the entries from it on. -/
theorem length_data_split (hwf : log.WellFormed index bodies) (k : ℕ) :
    log.data.length = log.firstBlockPosition + entriesLength (bodies.take k) +
      entriesLength (bodies.drop k) := by
  rw [hwf.length_data, ← List.take_append_drop k bodies, entriesLength_append,
    List.take_append_drop, Nat.add_assoc]

/-- A kept entry starts after the first one, which alone, a header and a trailer, is longer than
a chain-id preamble. -/
theorem nbytesWithChainId_le (hwf : log.WellFormed index bodies) {k : ℕ} (hkpos : 0 < k)
    (hklt : k < bodies.length) :
    nbytesWithChainId ≤ log.firstBlockPosition + entriesLength (bodies.take k) := by
  have hfront := entriesLength_take_lt (show 0 < (bodies.take k).length by simp; omega)
  simp only [List.take_zero, entriesLength_nil, List.getElem_take] at hfront
  have hhead := hwf.headers _ (List.getElem_mem (show 0 < bodies.length by omega))
  simp only [nbytesWithChainId]
  omega

end BlockLogData.WellFormed

/-! ### The trimmed files -/

/-- The trimmed log's version has the old one's entry layout. -/
theorem offsetToBlockStart_trimmedVersion (version : UInt32) :
    offsetToBlockStart (trimmedVersion version) = offsetToBlockStart version := by
  unfold trimmedVersion offsetToBlockStart
  by_cases h : version < prunedTransactionVersion
  · have hv : ¬ version ≥ prunedTransactionVersion := by
      rw [GE.ge, UInt32.le_iff_toNat_le]
      rw [UInt32.lt_iff_toNat_lt] at h
      omega
    rw [if_pos h, if_neg hv, if_neg (by decide)]
  · have hv : version ≥ prunedTransactionVersion := by
      rw [GE.ge, UInt32.le_iff_toNat_le]
      rw [UInt32.lt_iff_toNat_lt] at h
      omega
    rw [if_neg h, if_pos hv, if_pos (by decide)]

/-- The trimmed log's entries are read in the old one's entry format. -/
theorem entryFormat_trimmedVersion (version : UInt32) :
    entryFormat (trimmedVersion version) = entryFormat version := by
  unfold trimmedVersion entryFormat
  by_cases h : version < prunedTransactionVersion
  · have hv : ¬ version ≥ prunedTransactionVersion := by
      rw [GE.ge, UInt32.le_iff_toNat_le]
      rw [UInt32.lt_iff_toNat_lt] at h
      omega
    rw [if_pos h, if_neg hv, if_neg (by decide)]
  · have hv : version ≥ prunedTransactionVersion := by
      rw [GE.ge, UInt32.le_iff_toNat_le]
      rw [UInt32.lt_iff_toNat_lt] at h
      omega
    rw [if_neg h, if_pos hv, if_pos (by decide)]

section Trim

variable {log : BlockLogData} {index : List UInt8} {bodies : List (List UInt8)}

/-- `trim_blocklog_front` at a block after the first and not after the last of a well-formed pair
of files: it trims, writing a chain-id preamble that starts at that block, the bodies from it on,
each trailer holding the entry's new position, and an index of the new positions. -/
theorem trimBlocklogFront_eq (hwf : log.WellFormed index bodies) {n : UInt32}
    (hfirst : log.firstBlockNum < n) (hn : n.toNat < log.firstBlockNum.toNat + bodies.length) :
    trimBlocklogFront log index n = some (true,
      preambleBytes (trimmedVersion log.version) n log.chainId ++
        placed nbytesWithChainId 0 (bodies.drop (n - log.firstBlockNum).toNat),
      indexBytes (positions nbytesWithChainId (bodies.drop (n - log.firstBlockNum).toNat))) := by
  have hfirstNat : log.firstBlockNum.toNat < n.toNat := UInt32.lt_iff_toNat_lt.mp hfirst
  have hkNat : (n - log.firstBlockNum).toNat = n.toNat - log.firstBlockNum.toNat :=
    UInt32.toNat_sub_of_le _ _ (by rw [UInt32.le_iff_toNat_le]; omega)
  obtain ⟨k, hk⟩ : ∃ k, k = (n - log.firstBlockNum).toNat := ⟨_, rfl⟩
  rw [← hk]
  have hklt : k < bodies.length := by omega
  have hkpos : 0 < k := by omega
  obtain ⟨last, hlast, hlastNat⟩ := hwf.lastBlockNum_eq
  have hnlast : ¬ n > last := by
    rw [gt_iff_lt, UInt32.lt_iff_toNat_lt]
    omega
  -- where the first kept entry starts, and how many bytes go
  obtain ⟨K, hK⟩ : ∃ K, K = log.firstBlockPosition + entriesLength (bodies.take k) := ⟨_, rfl⟩
  have hsize : log.data.length = K + entriesLength (bodies.drop k) := by
    rw [hK, hwf.length_data_split k]
  have hK48 : nbytesWithChainId ≤ K := hK ▸ hwf.nbytesWithChainId_le hkpos hklt
  have hfits := hwf.fits
  have hnb : u64Sub K nbytesWithChainId = K - nbytesWithChainId := u64Sub_eq hK48 (by omega)
  have hnew : u64Sub log.data.length (K - nbytesWithChainId) =
      nbytesWithChainId + entriesLength (bodies.drop k) := by
    rw [u64Sub_eq (by omega) hfits]
    omega
  -- the copy: the preamble, then the kept entries with trailers `K - 48` too far on
  have hcopy : readAt log.data K (nbytesWithChainId + entriesLength (bodies.drop k) -
      nbytesWithChainId) = placed nbytesWithChainId (K - nbytesWithChainId) (bodies.drop k) := by
    rw [show nbytesWithChainId + entriesLength (bodies.drop k) - nbytesWithChainId =
      log.data.length - K by omega, hK, hwf.readAt_from k, ← hK,
      show K = nbytesWithChainId + (K - nbytesWithChainId) by omega, placed_add, Nat.add_zero,
      Nat.add_sub_cancel_left]
  have hfuel : (bodies.drop k).length < nbytesWithChainId + entriesLength (bodies.drop k) := by
    have := length_le_entriesLength (bodies.drop k)
    simp only [nbytesWithChainId]
    omega
  have hbound : nbytesWithChainId + (K - nbytesWithChainId) + entriesLength (bodies.drop k) <
      2 ^ 64 := by omega
  have hwalk := trimPositions_placed (length_preambleBytes (trimmedVersion log.version) n log.chainId)
    (K - nbytesWithChainId) (bodies.drop k) [] (nbytesWithChainId + entriesLength (bodies.drop k))
    hfuel hbound
  simp only [placed_nil, List.append_nil, positions, indexBytes_nil] at hwalk
  have hcount : index.length / 8 - k = (bodies.drop k).length := by
    rw [hwf.length_index, List.length_drop]
    omega
  have hmake : ReverseBlockPositionIterator.make (preambleBytes (trimmedVersion log.version) n
      log.chainId ++ placed nbytesWithChainId (K - nbytesWithChainId) (bodies.drop k))
      nbytesWithChainId =
      ⟨nbytesWithChainId - 8, nbytesWithChainId + entriesLength (bodies.drop k) - 8⟩ := by
    simp only [ReverseBlockPositionIterator.make, List.length_append, length_preambleBytes,
      length_placed]
    rw [u64Sub_eq (by simp [nbytesWithChainId]) (by simp [nbytesWithChainId]),
      u64Sub_eq (by simp [nbytesWithChainId]; omega) (by omega)]
  unfold trimBlocklogFront
  rw [if_neg (by rw [hwf.length_index]; omega), hwf.numBlocks_eq, Option.bind_some,
    if_neg (by rw [hwf.length_index]; omega), if_neg (by rw [UInt32.le_iff_toNat_le]; omega), hlast,
    Option.bind_some, if_neg hnlast]
  dsimp only
  rw [← hk, hwf.nthBlockPosition_eq hklt, ← hK, hnb, hnew, if_neg (by omega),
    if_neg (by omega), hcopy, hcount, hmake]
  simp only [IndexWriter.create, hwalk, Option.map_some]

/-- A truncation block at or before the first leaves the files as they are. -/
theorem trimBlocklogFront_of_le (hwf : log.WellFormed index bodies) {n : UInt32}
    (hn : n ≤ log.firstBlockNum) : trimBlocklogFront log index n = some (false, log.data, index) := by
  unfold trimBlocklogFront
  rw [if_neg (by rw [hwf.length_index]; omega), hwf.numBlocks_eq, Option.bind_some,
    if_neg (by rw [hwf.length_index]; omega), if_pos hn]

/-- A truncation block after the last leaves the files as they are. -/
theorem trimBlocklogFront_of_lt (hwf : log.WellFormed index bodies) {n : UInt32}
    (hn : log.firstBlockNum.toNat + bodies.length ≤ n.toNat) :
    trimBlocklogFront log index n = some (false, log.data, index) := by
  have hlen := List.length_pos_of_ne_nil hwf.nonempty
  obtain ⟨last, hlast, hlastNat⟩ := hwf.lastBlockNum_eq
  have hfirst : ¬ n ≤ log.firstBlockNum := by
    rw [UInt32.le_iff_toNat_le]
    omega
  have hlast' : n > last := by
    rw [gt_iff_lt, UInt32.lt_iff_toNat_lt]
    omega
  unfold trimBlocklogFront
  rw [if_neg (by rw [hwf.length_index]; omega), hwf.numBlocks_eq, Option.bind_some,
    if_neg (by rw [hwf.length_index]; omega), if_neg hfirst, hlast, Option.bind_some, if_pos hlast']

/-- The trimmed files are a well-formed pair again: the preamble starts at the truncation block,
and the bodies are those of the old file from that block on. -/
theorem wellFormed_trimmed (hwf : log.WellFormed index bodies) {n : UInt32}
    (hfirst : log.firstBlockNum < n) (hn : n.toNat < log.firstBlockNum.toNat + bodies.length) :
    (BlockLogData.mk (preambleBytes (trimmedVersion log.version) n log.chainId ++
        placed nbytesWithChainId 0 (bodies.drop (n - log.firstBlockNum).toNat))
      (trimmedVersion log.version) n log.chainId nbytesWithChainId).WellFormed
      (indexBytes (positions nbytesWithChainId (bodies.drop (n - log.firstBlockNum).toNat)))
      (bodies.drop (n - log.firstBlockNum).toNat) := by
  have hfirstNat : log.firstBlockNum.toNat < n.toNat := UInt32.lt_iff_toNat_lt.mp hfirst
  have hkNat : (n - log.firstBlockNum).toNat = n.toNat - log.firstBlockNum.toNat :=
    UInt32.toNat_sub_of_le _ _ (by rw [UInt32.le_iff_toNat_le]; omega)
  obtain ⟨k, hk⟩ : ∃ k, k = (n - log.firstBlockNum).toNat := ⟨_, rfl⟩
  rw [← hk]
  have hklt : k < bodies.length := by omega
  have hK48 := hwf.nbytesWithChainId_le (show 0 < k by omega) hklt
  have hsize := hwf.length_data_split k
  have hfits := hwf.fits
  have hwrap := hwf.no_wrap
  refine ⟨⟨_, length_preambleBytes _ _ _, rfl⟩, rfl, ?_, ?_, ?_, ?_, ?_, ?_⟩
  · rw [Ne, List.drop_eq_nil_iff]
    omega
  · intro b hb
    rw [offsetToBlockStart_trimmedVersion]
    exact hwf.headers b (List.mem_of_mem_drop hb)
  · -- the `j`-th kept body is the `k + j`-th old one, numbered `first + k + j = n + j`
    intro j hj
    have hkj : k + j < bodies.length := by
      rw [List.length_drop] at hj
      omega
    have hbody : bodyBlockNum (trimmedVersion log.version) (bodies.drop k)[j] =
        bodyBlockNum log.version bodies[k + j] := by
      rw [List.getElem_drop, bodyBlockNum, bodyBlockNum, offsetToBlockStart_trimmedVersion]
    show (bodyBlockNum (trimmedVersion log.version) (bodies.drop k)[j]).toNat = n.toNat + j
    rw [hbody, hwf.numbered _ hkj]
    omega
  · simp only [List.length_append, length_preambleBytes, length_placed]
    omega
  · show 0 < n.toNat
    omega
  · show n.toNat + (bodies.drop k).length ≤ 2 ^ 32
    rw [List.length_drop]
    omega

end Trim

/-! ### `trim_blocklog_end` -/

/-- `block_log::trim_blocklog_end(block_dir, n)` on the bytes of `blocks.log` and of
`blocks.index`, `n` being the last block to keep: the code it returns and the two files
afterwards. The position the log is cut at is read from the index word after the last kept block
(`log_index::nth_block_position`, which checks no bound; where the index ends the model reads no
bytes, so zero), and both files are resized. -/
def trimBlocklogEnd (log : BlockLogData) (index : List UInt8) (n : UInt32) :
    Option (ℕ × List UInt8 × List UInt8) :=
  -- `block_log_bundle`, as for `trim_blocklog_front`
  if index.length % 8 ≠ 0 then none else
  (log.numBlocks).bind fun logNumBlocks =>
  if logNumBlocks ≠ index.length / 8 then none else
  if n < log.firstBlockNum then some (1, log.data, index) else
  (log.lastBlockNum).bind fun lastBlockNum =>
  if n > lastBlockNum then some (2, log.data, index) else
  let toTrimBlockIndex := n + 1 - log.firstBlockNum
  let toTrimBlockPosition := nthBlockPosition index toTrimBlockIndex.toNat
  let indexFileSize := toTrimBlockIndex.toNat * 8
  some (0, resize log.data toTrimBlockPosition, resize index indexFileSize)

section TrimEnd

variable {log : BlockLogData} {index : List UInt8} {bodies : List (List UInt8)}

/-- The index cut after `k` words is the index of the first `k` bodies. -/
theorem BlockLogData.WellFormed.take_index (hwf : log.WellFormed index bodies) (k : ℕ) :
    index.take (8 * k) = indexBytes (positions log.firstBlockPosition (bodies.take k)) := by
  have hsplit : index = indexBytes (positions log.firstBlockPosition (bodies.take k)) ++
      indexBytes (positions (log.firstBlockPosition + entriesLength (bodies.take k))
        (bodies.drop k)) := by
    rw [← indexBytes_append, ← positions_append, List.take_append_drop, hwf.index_eq]
  by_cases hk : k ≤ bodies.length
  · rw [hsplit, List.take_left' (by simp [hk])]
  · -- past the last body both the cut and the bodies are whole
    rw [List.take_of_length_le (by rw [hwf.length_index]; omega),
      List.take_of_length_le (by omega), hwf.index_eq]

/-- Cutting a well-formed pair of files after the entry of the `k`-th body, from the first on,
leaves a well-formed pair of files of the first `k` bodies under the same preamble. -/
theorem BlockLogData.WellFormed.take (hwf : log.WellFormed index bodies) {k : ℕ} (hkpos : 0 < k)
    (hk : k ≤ bodies.length) :
    ({ log with data := log.data.take (log.firstBlockPosition + entriesLength (bodies.take k)) }
      : BlockLogData).WellFormed (index.take (8 * k)) (bodies.take k) := by
  obtain ⟨pre, hpre, hdata⟩ := hwf.data_eq_split k
  have hfits := hwf.fits
  refine ⟨⟨pre, hpre, ?_⟩, hwf.take_index k, ?_, fun b hb => hwf.headers b (List.mem_of_mem_take hb),
    ?_, ?_, hwf.first_pos, ?_⟩
  · show log.data.take _ = _
    rw [hdata, List.take_left' (by simp [hpre])]
  · rw [Ne, List.take_eq_nil_iff]
    rintro (h | h)
    · omega
    · exact hwf.nonempty h
  · intro j hj
    rw [List.getElem_take]
    exact hwf.numbered j (by simp at hj; omega)
  · show (log.data.take _).length < 2 ^ 64
    rw [List.length_take]
    omega
  · have := hwf.no_wrap
    show log.firstBlockNum.toNat + (bodies.take k).length ≤ 2 ^ 32
    rw [List.length_take]
    omega

/-- A last block to keep before the first leaves the files as they are, with code 1. -/
theorem trimBlocklogEnd_of_lt (hwf : log.WellFormed index bodies) {n : UInt32}
    (hn : n < log.firstBlockNum) : trimBlocklogEnd log index n = some (1, log.data, index) := by
  unfold trimBlocklogEnd
  rw [if_neg (by rw [hwf.length_index]; omega), hwf.numBlocks_eq, Option.bind_some,
    if_neg (by rw [hwf.length_index]; omega), if_pos hn]

/-- A last block to keep after the last leaves the files as they are, with code 2. -/
theorem trimBlocklogEnd_of_gt (hwf : log.WellFormed index bodies) {n : UInt32}
    (hn : log.firstBlockNum.toNat + bodies.length ≤ n.toNat) :
    trimBlocklogEnd log index n = some (2, log.data, index) := by
  have hlen := List.length_pos_of_ne_nil hwf.nonempty
  obtain ⟨last, hlast, hlastNat⟩ := hwf.lastBlockNum_eq
  have hfirst : ¬ n < log.firstBlockNum := by
    rw [UInt32.lt_iff_toNat_lt]
    omega
  have hlast' : n > last := by
    rw [gt_iff_lt, UInt32.lt_iff_toNat_lt]
    omega
  unfold trimBlocklogEnd
  rw [if_neg (by rw [hwf.length_index]; omega), hwf.numBlocks_eq, Option.bind_some,
    if_neg (by rw [hwf.length_index]; omega), if_neg hfirst, hlast, Option.bind_some, if_pos hlast']

/-- The number of entries `trim_blocklog_end` keeps, `n + 1 - first` in 32 bits: one more than
the distance from the first block, even where `n + 1` wraps. -/
theorem BlockLogData.WellFormed.toNat_toTrimBlockIndex (hwf : log.WellFormed index bodies) {n : UInt32}
    (hfirst : log.firstBlockNum ≤ n) :
    (n + 1 - log.firstBlockNum).toNat = n.toNat + 1 - log.firstBlockNum.toNat := by
  have hpos := hwf.first_pos
  have hloNat := UInt32.le_iff_toNat_le.mp hfirst
  have hlt := n.toNat_lt
  rw [UInt32.toNat_sub, UInt32.toNat_add, UInt32.toNat_one]
  -- `n + 1` wraps only at the last number, and then the difference wraps back
  by_cases hmax : n.toNat + 1 < 2 ^ 32
  · rw [Nat.mod_eq_of_lt hmax]
    omega
  · have hn1 : (n.toNat + 1) % 2 ^ 32 = 0 := by
      rw [show n.toNat + 1 = 2 ^ 32 by omega, Nat.mod_self]
    rw [hn1]
    omega

/-- `trim_blocklog_end` at a block from the first on and before the last of a well-formed pair
of files cuts `blocks.log` after that block's entry and `blocks.index` after its word. -/
theorem trimBlocklogEnd_eq (hwf : log.WellFormed index bodies) {n : UInt32}
    (hfirst : log.firstBlockNum ≤ n) (hn : n.toNat + 1 < log.firstBlockNum.toNat + bodies.length) :
    trimBlocklogEnd log index n = some (0,
      log.data.take (log.firstBlockPosition +
        entriesLength (bodies.take (n + 1 - log.firstBlockNum).toNat)),
      index.take (8 * (n + 1 - log.firstBlockNum).toNat)) := by
  have hk := hwf.toNat_toTrimBlockIndex hfirst
  have hloNat := UInt32.le_iff_toNat_le.mp hfirst
  obtain ⟨last, hlast, hlastNat⟩ := hwf.lastBlockNum_eq
  have hfirst' : ¬ n < log.firstBlockNum := by
    rw [UInt32.lt_iff_toNat_lt]
    omega
  have hnlast : ¬ n > last := by
    rw [gt_iff_lt, UInt32.lt_iff_toNat_lt]
    omega
  have hklt : (n + 1 - log.firstBlockNum).toNat < bodies.length := by omega
  -- the kept entries end inside the file, and their words inside the index
  have hle : log.firstBlockPosition + entriesLength (bodies.take (n + 1 - log.firstBlockNum).toNat) ≤
      log.data.length := by
    rw [hwf.length_data_split (n + 1 - log.firstBlockNum).toNat]
    omega
  have hleIndex : (n + 1 - log.firstBlockNum).toNat * 8 ≤ index.length := by
    rw [hwf.length_index]
    omega
  unfold trimBlocklogEnd
  rw [if_neg (by rw [hwf.length_index]; omega), hwf.numBlocks_eq, Option.bind_some,
    if_neg (by rw [hwf.length_index]; omega), if_neg hfirst', hlast, Option.bind_some,
    if_neg hnlast]
  dsimp only
  rw [hwf.nthBlockPosition_eq hklt, resize_of_le hle, resize_of_le hleIndex, Nat.mul_comm]

end TrimEnd

end Eosio.Chain
