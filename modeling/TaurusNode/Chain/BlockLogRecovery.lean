import Mathlib
import TaurusNode.Chain.BlockLogStore

/-!
# Opening the block log after a crash

`block_log::append` writes an entry and its trailer to `blocks.log`, then the entry's position to
`blocks.index`, and flushes. A crash can stop each file anywhere between its old and its new
content. The constructor of `block_log` compares the last trailer of `blocks.log` with the last
word of `blocks.index`; with `fix_irreversible_blocks` a difference is taken for such a crash and
repaired:

* `recover_from_incomplete_block_head` reads the entry at the index's last position and, when it
  is whole and holds the block the index counts to, cuts `blocks.log` after it;
* otherwise `repair_log` scans the entries from the front (`full_validate_block_entry`: the entry
  unpacks and its trailer holds its position) and keeps the file up to the last one that
  validates, and `construct_index` writes the index again, walking the trailers back from the
  last one.

On a log whose entries hold their blocks, `construct_index` rebuilds the index byte for byte
(`WellFormed.constructIndex_eq`) and `repair_log` keeps every entry and drops a torn entry after
them (`PrunableLog.repairLog_torn`). So opening the files after a crash at any point of an append
gives the files before the append or after it (`openLog_appendCrash`), provided the last eight
bytes of a torn entry do not happen to hold the position in the index's last word: then the
files are taken as they are (`openLog_keepsTornEntry`).

`repair_log` with a truncation block is another way to cut the log after a block, and it keeps the
same bytes as `trim_blocklog_end` (`repairLog_eq_trimBlocklogEnd`).

Reading a version-3 entry (`signed_block_v0`) is not modelled: on such a log the functions here
give nothing.
-/

namespace Eosio.Chain

open Bytes RawPack

variable {H RH Sig Ext : Type} (F : BlockFormat H RH Sig Ext)

/-! ### Validating an entry from the front -/

/-- `unpack` of an entry reads at least its size, its compression and its trailer. -/
theorem unpackEntry_size_ge {bytes : List UInt8} {e : ℕ × SignedBlock H RH Sig Ext}
    (h : unpackEntry F bytes = some e) : 4 + 1 + 8 ≤ e.1 := by
  match bytes, h with
  | s0 :: s1 :: s2 :: s3 :: compression :: rest, h =>
    simp only [unpackEntry] at h
    split_ifs at h
    obtain ⟨x, -, hx⟩ := Option.bind_eq_some_iff.mp h
    split_ifs at hx with hsize
    cases hx
    omega

/-- `block_log_data::full_validate_block_entry(ds, ...)` on the entry at `pos` of a version-4
file: the entry unpacked, then its trailer, which must hold `pos` (a read with fewer than 8 bytes
left leaves `npos`). Gives the block's number and the position after the entry. That the block
follows the previous one is only logged. -/
def fullValidateBlockEntry (data : List UInt8) (pos : ℕ) : Option (UInt32 × ℕ) :=
  (unpackEntry F (data.drop pos)).bind fun entry =>
    let trailerPos := pos + entry.1 - 8
    let tmpPos := if trailerPos + 8 ≤ data.length then readU64 data trailerPos else npos
    if pos ≠ tmpPos then none else some (entry.2.blockNum F, trailerPos + 8)

/-- A validated entry ends after it starts. -/
theorem lt_of_fullValidateBlockEntry {data : List UInt8} {pos pos' : ℕ} {blockNum : UInt32}
    (h : fullValidateBlockEntry F data pos = some (blockNum, pos')) : pos < pos' := by
  obtain ⟨e, he, hv⟩ := Option.bind_eq_some_iff.mp h
  have hsize := unpackEntry_size_ge F he
  dsimp only at hv
  -- with fewer than 8 bytes left the trailer reads `npos`, which `pos` may be too
  split_ifs at hv
  all_goals
    cases hv
    omega

/-- The loop of `repair_log`: while bytes are left and the last block read is before the
truncation block, validate the next entry; stop at the first that does not validate. Gives the
position after the last entry kept and the number of its block. -/
def repairLoop (data : List UInt8) (truncateAtBlock : UInt32) (pos : ℕ) (blockNum : UInt32) :
    ℕ × UInt32 :=
  if h : pos < data.length ∧ blockNum < truncateAtBlock then
    match hv : fullValidateBlockEntry F data pos with
    | some (blockNum', pos') => repairLoop data truncateAtBlock pos' blockNum'
    | none => (pos, blockNum)
  else (pos, blockNum)
termination_by data.length - pos
decreasing_by
  have := lt_of_fullValidateBlockEntry F hv
  omega

/-- `UINT32_MAX`. -/
def uint32Max : UInt32 := 4294967295

/-- `block_log::repair_log(data_dir, truncate_at_block)` on a version-4 `blocks.log`: the new
`blocks.log`, the bytes up to the end of the last entry that validates, going no further than the
truncation block (`0` for none). The old files go to a backup directory, `blocks.index` with
them. -/
def repairLog (log : BlockLogData) (truncateAtBlock : UInt32) : Option (List UInt8) :=
  if log.version < prunedTransactionVersion then none else
  let truncateAtBlock := if truncateAtBlock = 0 then uint32Max else truncateAtBlock
  some (log.data.take
    (repairLoop F log.data truncateAtBlock log.firstBlockPosition (log.firstBlockNum - 1)).1)

/-! ### Rebuilding the index -/

/-- The loop of `construct_index`, `remaining` being the blocks not yet found: while the iterator
reads a position, write it into the index from its end and step to the previous trailer. Gives
the index writer and the number of blocks found. -/
def constructIndexLoop (data : List UInt8) :
    ℕ → IndexWriter → ReverseBlockPositionIterator → Option (IndexWriter × ℕ)
  | 0, index, _ => some (index, 0)
  | remaining + 1, index, itr =>
    if itr.getValue data = npos then some (index, 0)
    else
      (index.write (itr.getValue data)).bind fun index =>
        (itr.next data).bind fun itr =>
          (constructIndexLoop data remaining index itr).map fun r => (r.1, r.2 + 1)

/-- `block_log_data::construct_index(index_file)`: the `blocks.index` it leaves, given the file
there before (`none` for no file): with no block it writes nothing, and it throws (`none`) unless
it finds as many blocks as `num_blocks` says. -/
def BlockLogData.constructIndex (log : BlockLogData) (old : Option (List UInt8)) :
    Option (Option (List UInt8)) :=
  (log.numBlocks).bind fun numBlocks =>
  if numBlocks = 0 then some old else
  (constructIndexLoop log.data numBlocks (IndexWriter.create numBlocks)
      (ReverseBlockPositionIterator.make log.data log.firstBlockPosition)).bind fun r =>
    if r.2 ≠ numBlocks then none else some (some r.1.index)

/-! ### Opening the files -/

/-- `log_index::back()`: the last word of the index. -/
def indexBack (index : List UInt8) : ℕ := readU64 index (index.length - 8)

/-- `block_log_impl::recover_from_incomplete_block_head(log_data, index)` on a version-4 log: when
the entry at the index's last position unpacks, holds the block the index counts to and ends in
its own position, `blocks.log` cut after that entry (what follows goes to a `blocks-bad-tail`
file); `none` where it gives `false`, a read past the end of the file included. -/
def recoverFromIncompleteBlockHead (log : BlockLogData) (index : List UInt8) :
    Option (List UInt8) :=
  let pos := indexBack index
  if log.data.length ≤ pos then none else
  if log.version < prunedTransactionVersion then none else
  let expectedBlockNum := log.firstBlockNum + UInt32.ofNat (index.length / 8) - 1
  (unpackEntry F (log.data.drop pos)).bind fun entry =>
    if entry.2.blockNum F ≠ expectedBlockNum then none else
    let trailerPos := pos + entry.1 - 8
    if log.data.length < trailerPos + 8 then none else
    if readU64 log.data trailerPos ≠ pos then none else
    some (log.data.take (trailerPos + 8))

/-- The constructor of `block_log` with a stride other than zero, on `blocks.log` (parsed as
`log`) and `blocks.index` (made to exist, possibly empty): the two files it leaves, `none` where
it throws, a missing index when it opens the files again included. A last trailer of
`blocks.log` other than the index's last word is taken for a crash: with
`fix_irreversible_blocks` the incomplete block head is cut off, or else the log is repaired and
the index rebuilt; without it the index is rebuilt. -/
def openLog (fixIrreversibleBlocks : Bool) (log : BlockLogData) (index : List UInt8) :
    Option (List UInt8 × List UInt8) :=
  let reopen (data : List UInt8) (index : Option (List UInt8)) :=
    index.map fun index => (data, index)
  -- `repair_log(dir, UINT32_MAX)` moves the index away; `construct_index` writes a new one
  let repairAndConstruct :=
    (repairLog F log uint32Max).bind fun data =>
      ({ log with data := data } : BlockLogData).constructIndex none |>.bind (reopen data)
  if log.data.length = 0 then
    some (log.data, if index.length ≠ 0 then [] else index)
  else if index.length = 0 then
    (log.constructIndex (some index)).bind (reopen log.data)
  else if index.length % 8 = 0 then
    if log.lastBlockPosition ≠ indexBack index then
      if !fixIrreversibleBlocks then (log.constructIndex (some index)).bind (reopen log.data)
      else match recoverFromIncompleteBlockHead F log index with
        | some data => some (data, index)
        | none => repairAndConstruct
    else some (log.data, index)
  else if fixIrreversibleBlocks then repairAndConstruct
  else (log.constructIndex (some index)).bind (reopen log.data)

/-! ### One entry -/

section Entry

variable {F}

/-- The loop stops where no bytes are left or the truncation block is reached. -/
theorem repairLoop_stop {data : List UInt8} {truncateAtBlock : UInt32} {pos : ℕ}
    {blockNum : UInt32} (h : ¬ (pos < data.length ∧ blockNum < truncateAtBlock)) :
    repairLoop F data truncateAtBlock pos blockNum = (pos, blockNum) := by
  rw [repairLoop, dif_neg h]

/-- The loop stops at an entry that does not validate. -/
theorem repairLoop_invalid {data : List UInt8} {truncateAtBlock : UInt32} {pos : ℕ}
    {blockNum : UInt32} (h : pos < data.length ∧ blockNum < truncateAtBlock)
    (hv : fullValidateBlockEntry F data pos = none) :
    repairLoop F data truncateAtBlock pos blockNum = (pos, blockNum) := by
  rw [repairLoop, dif_pos h]
  split
  · rename_i heq
    rw [hv] at heq
    cases heq
  · rfl

/-- The loop goes on after an entry that validates. -/
theorem repairLoop_valid {data : List UInt8} {truncateAtBlock : UInt32} {pos pos' : ℕ}
    {blockNum blockNum' : UInt32} (h : pos < data.length ∧ blockNum < truncateAtBlock)
    (hv : fullValidateBlockEntry F data pos = some (blockNum', pos')) :
    repairLoop F data truncateAtBlock pos blockNum =
      repairLoop F data truncateAtBlock pos' blockNum' := by
  rw [repairLoop, dif_pos h]
  split
  · rename_i heq
    rw [hv, Option.some.injEq, Prod.mk.injEq] at heq
    obtain ⟨rfl, rfl⟩ := heq
    rfl
  · rename_i heq
    rw [hv] at heq
    cases heq

/-- An entry that holds its block and ends in its own position validates, and the scan goes on
after its trailer. -/
theorem fullValidateBlockEntry_entry {pre body rest : List UInt8} {b : SignedBlock H RH Sig Ext}
    (hb : HoldsBlock F body b) (hpos : pre.length < 2 ^ 64) :
    fullValidateBlockEntry F (pre ++ body ++ toListLE 8 pre.length ++ rest) pre.length =
      some (b.blockNum F, pre.length + body.length + 8) := by
  have hdrop : (pre ++ body ++ toListLE 8 pre.length ++ rest).drop pre.length =
      body ++ (toListLE 8 pre.length ++ rest) := by
    simp only [List.append_assoc, List.drop_left]
  -- the trailer is where the size says, and holds the entry's position
  have htrailer : pre.length + (body.length + 8) - 8 = (pre ++ body).length := by
    simp only [List.length_append]
    omega
  have hread : readU64 (pre ++ body ++ toListLE 8 pre.length ++ rest) (pre ++ body).length =
      pre.length := readU64_trailer _ _ hpos
  have hin : (pre ++ body).length + 8 ≤ (pre ++ body ++ toListLE 8 pre.length ++ rest).length := by
    simp only [List.length_append, length_toListLE]
    omega
  rw [fullValidateBlockEntry, hdrop, hb.unpackEntry_eq, Option.bind_some]
  dsimp only
  rw [htrailer, if_pos hin, hread, if_neg (not_not.mpr rfl), List.length_append]

/-- A torn copy of an entry holding its block, cut before the end of its trailer, reads no other
size than the whole entry's. -/
theorem unpackEntry_torn {torn q body trailer : List UInt8} {b : SignedBlock H RH Sig Ext}
    (hb : HoldsBlock F body b) (htorn : torn ++ q = body ++ trailer)
    {e : ℕ × SignedBlock H RH Sig Ext} (h : unpackEntry F torn = some e) :
    e.1 = body.length + 8 := by
  obtain ⟨pad, hbody⟩ := hb.layout
  match torn, h, htorn with
  | s0 :: s1 :: s2 :: s3 :: compression :: rest, h, htorn =>
    -- the first four bytes of the torn copy are the entry's size field
    have hfield : [s0, s1, s2, s3] = toListLE 4 (body.length + 8) := by
      have := congrArg (List.take 4) htorn
      rw [hbody] at this
      simpa using this
    simp only [unpackEntry] at h
    split_ifs at h
    obtain ⟨x, -, hx⟩ := Option.bind_eq_some_iff.mp h
    split_ifs at hx
    cases hx
    rw [hfield, ofListLE_toListLE_of_lt (by have := hb.size_lt; simp; omega)]

/-- A copy cut before the end of an entry's trailer is shorter than the entry. -/
theorem length_torn_lt {torn q body : List UInt8} {v : ℕ} (htorn : torn ++ q = body ++ toListLE 8 v)
    (hq : q ≠ []) : torn.length < body.length + 8 := by
  have hlen := congrArg List.length htorn
  have hqpos := List.length_pos_of_ne_nil hq
  simp only [List.length_append, length_toListLE] at hlen
  omega

/-- A torn entry, cut before the end of its trailer, does not validate. -/
theorem fullValidateBlockEntry_torn {pre torn q body : List UInt8} {b : SignedBlock H RH Sig Ext}
    (hb : HoldsBlock F body b) (htorn : torn ++ q = body ++ toListLE 8 pre.length) (hq : q ≠ [])
    (hpos : pre.length ≠ npos) :
    fullValidateBlockEntry F (pre ++ torn) pre.length = none := by
  have hshort := length_torn_lt htorn hq
  rw [fullValidateBlockEntry, List.drop_left]
  cases hun : unpackEntry F torn with
  | none => rfl
  | some e =>
    have hsize := unpackEntry_torn hb htorn hun
    -- the trailer would end past the file, so `tmp_pos` keeps `npos`
    have hout : ¬ (pre.length + e.1 - 8 + 8 ≤ (pre ++ torn).length) := by
      simp only [List.length_append]
      omega
    rw [Option.bind_some]
    dsimp only
    rw [if_neg hout, if_pos hpos]

end Entry

/-! ### The scan of `repair_log` -/

section Scan

variable {F}

/-- **The scan over entries that hold their blocks.** From the first of entries laid out one
after the other, each holding its block, numbered on from `prev`, the scan validates them all
when the truncation block is not before the last, and goes on after the last one with its number.
By induction on the entries. -/
theorem repairLoop_placed (truncateAtBlock : UInt32) (tail : List UInt8) :
    ∀ (es : List (List UInt8 × SignedBlock H RH Sig Ext)) (pre : List UInt8) (prev : UInt32),
      (∀ e ∈ es, HoldsBlock F e.1 e.2) →
      (∀ (j : ℕ) (hj : j < es.length), (es[j].2.blockNum F).toNat = prev.toNat + 1 + j) →
      prev.toNat + es.length ≤ truncateAtBlock.toNat →
      pre.length + entriesLength (es.map Prod.fst) < 2 ^ 64 →
      ∃ last : UInt32, last.toNat = prev.toNat + es.length ∧
        repairLoop F (pre ++ placed pre.length 0 (es.map Prod.fst) ++ tail) truncateAtBlock
            pre.length prev =
          repairLoop F (pre ++ placed pre.length 0 (es.map Prod.fst) ++ tail) truncateAtBlock
            (pre.length + entriesLength (es.map Prod.fst)) last := by
  intro es
  induction es with
  | nil =>
    intro pre prev _ _ _ _
    exact ⟨prev, by simp, by simp⟩
  | cons e es ih =>
    intro pre prev hholds hnum htrunc hfits
    have he := hholds e List.mem_cons_self
    have hE : entriesLength ((e :: es).map Prod.fst) =
        e.1.length + 8 + entriesLength (es.map Prod.fst) := by simp
    -- the file seen from the entry after `e`
    obtain ⟨pre', hpre'⟩ : ∃ pre', pre' = pre ++ e.1 ++ toListLE 8 pre.length := ⟨_, rfl⟩
    have hlen' : pre'.length = pre.length + e.1.length + 8 := by
      simp only [hpre', List.length_append, length_toListLE]
    have hdata : pre ++ placed pre.length 0 ((e :: es).map Prod.fst) ++ tail =
        pre' ++ placed pre'.length 0 (es.map Prod.fst) ++ tail := by
      simp only [hpre', List.map_cons, placed, Nat.add_zero, List.length_append, length_toListLE,
        List.append_assoc, Nat.add_assoc]
    -- `e` validates, as the first entry of the scan
    have hv : fullValidateBlockEntry F (pre' ++ placed pre'.length 0 (es.map Prod.fst) ++ tail)
        pre.length = some (e.2.blockNum F, pre'.length) := by
      rw [hlen', hpre']
      simp only [List.append_assoc]
      rw [← List.append_assoc pre, ← List.append_assoc (pre ++ e.1)]
      exact fullValidateBlockEntry_entry he (by rw [hE] at hfits; omega)
    have hnum₀ := hnum 0 (by simp)
    simp only [List.getElem_cons_zero, Nat.add_zero] at hnum₀
    have hprev : prev < truncateAtBlock := by
      rw [UInt32.lt_iff_toNat_lt]
      simp only [List.length_cons] at htrunc
      omega
    have hin : pre.length < (pre' ++ placed pre'.length 0 (es.map Prod.fst) ++ tail).length := by
      simp only [List.length_append, hlen']
      omega
    obtain ⟨last, hlast, hrest⟩ := ih pre' (e.2.blockNum F)
      (fun x hx => hholds x (List.mem_cons_of_mem _ hx))
      (fun j hj => by
        have := hnum (j + 1) (by simp only [List.length_cons]; omega)
        simp only [List.getElem_cons_succ] at this
        omega)
      (by simp only [List.length_cons] at htrunc; omega)
      (by rw [hlen']; rw [hE] at hfits; omega)
    refine ⟨last, by simp only [List.length_cons]; omega, ?_⟩
    rw [hdata, repairLoop_valid ⟨hin, hprev⟩ hv, hrest, hlen', hE]
    congr 1
    omega

end Scan

/-! ### The walk of `construct_index` -/

/-- One step of the walk of `construct_index`, at the trailer of an entry `b` that starts at
`a.length`: the index word before the ones written gets the entry's position, and the iterator
moves to the trailer before `b`. -/
theorem constructIndexLoop_step {a b c r idx : List UInt8} {beginPosition remaining : ℕ}
    (hbegin : beginPosition < a.length + b.length) (hpos : a.length < npos) (hprev : 8 ≤ a.length) :
    constructIndexLoop (a ++ b ++ toListLE 8 a.length ++ c) (remaining + 1)
        ⟨r ++ List.replicate 8 0 ++ idx, r.length + 8⟩ ⟨beginPosition, a.length + b.length⟩ =
      (constructIndexLoop (a ++ b ++ toListLE 8 a.length ++ c) remaining
        ⟨r ++ toListLE 8 a.length ++ idx, r.length⟩ ⟨beginPosition, a.length - 8⟩).map
          fun x => (x.1, x.2 + 1) := by
  have hlt : a.length < 2 ^ 64 := by unfold npos at hpos; omega
  have hvalue : readU64 (a ++ b ++ toListLE 8 a.length ++ c) (a.length + b.length) = a.length := by
    rw [← List.length_append, readU64_trailer _ _ hlt]
  have hlen : a.length + b.length < (a ++ b ++ toListLE 8 a.length ++ c).length := by
    simp only [List.length_append, length_toListLE]
    omega
  -- what the iterator and the index writer do at this trailer
  have hget : ReverseBlockPositionIterator.getValue ⟨beginPosition, a.length + b.length⟩
      (a ++ b ++ toListLE 8 a.length ++ c) = a.length := by
    rw [ReverseBlockPositionIterator.getValue]
    dsimp only
    rw [if_neg (by omega), hvalue]
  have hwrite : IndexWriter.write ⟨r ++ List.replicate 8 0 ++ idx, r.length + 8⟩ a.length =
      some ⟨r ++ toListLE 8 a.length ++ idx, r.length⟩ := by
    rw [IndexWriter.write]
    dsimp only
    rw [if_pos (by omega), Nat.add_sub_cancel, writeAt_append _ _ _ _ (by simp)]
  have hnext : ReverseBlockPositionIterator.next ⟨beginPosition, a.length + b.length⟩
      (a ++ b ++ toListLE 8 a.length ++ c) = some ⟨beginPosition, a.length - 8⟩ := by
    rw [ReverseBlockPositionIterator.next]
    dsimp only
    rw [if_pos ⟨hbegin, hlen⟩, hvalue, u64Sub_eq hprev (by omega)]
  rw [constructIndexLoop, hget, if_neg (Nat.ne_of_lt hpos), hwrite, Option.bind_some, hnext,
    Option.bind_some]

/-- The whole walk of `construct_index`, from the last trailer back to the first: every index
word gets its entry's position, and as many blocks are found as there are entries. By induction on
the entries not yet reached. -/
theorem constructIndexLoop_placed {pre : List UInt8} {o : ℕ} (hpre : pre.length = o) (ho : 8 ≤ o) :
    ∀ (xs ys : List (List UInt8)), o + entriesLength (xs ++ ys) < 2 ^ 64 →
      constructIndexLoop (pre ++ placed o 0 (xs ++ ys)) xs.length
          ⟨List.replicate (8 * xs.length) 0 ++ indexBytes (positions (o + entriesLength xs) ys),
            8 * xs.length⟩
          ⟨o - 8, o + entriesLength xs - 8⟩ =
        some (⟨indexBytes (positions o (xs ++ ys)), 0⟩, xs.length) := by
  intro xs
  induction xs using List.reverseRecOn with
  | nil =>
    intro ys _
    simp [constructIndexLoop]
  | append_singleton xs b ih =>
    intro ys hfits
    have hE : entriesLength (xs ++ [b]) = entriesLength xs + b.length + 8 := by simp; omega
    have ha : (pre ++ placed o 0 xs).length = o + entriesLength xs := by simp [hpre]
    -- the file cut at the trailer of `b`, and the index at the word for `b`
    have hfile : pre ++ placed o 0 (xs ++ [b] ++ ys) =
        pre ++ placed o 0 xs ++ b ++ toListLE 8 (pre ++ placed o 0 xs).length ++
          placed (o + entriesLength xs + b.length + 8) 0 ys := by
      rw [List.append_assoc xs, placed_append, ha, List.singleton_append]
      simp only [placed, List.append_assoc, Nat.add_zero]
    have hindex : List.replicate (8 * (xs ++ [b]).length) (0 : UInt8) ++
        indexBytes (positions (o + entriesLength (xs ++ [b])) ys) =
        List.replicate (8 * xs.length) 0 ++ List.replicate 8 0 ++
          indexBytes (positions (o + entriesLength xs + b.length + 8) ys) := by
      rw [List.length_append, List.length_singleton, Nat.mul_add, Nat.mul_one,
        ← List.replicate_append_replicate, hE]
      simp only [Nat.add_assoc]
    have hoff : 8 * (xs ++ [b]).length = (List.replicate (8 * xs.length) (0 : UInt8)).length + 8 := by
      simp only [List.length_append, List.length_singleton, List.length_replicate]
      omega
    have hcur : o + entriesLength (xs ++ [b]) - 8 = (pre ++ placed o 0 xs).length + b.length := by
      rw [ha, hE]
      omega
    have hremaining : (xs ++ [b]).length = xs.length + 1 := by simp
    have hfits' : o + entriesLength (xs ++ b :: ys) < 2 ^ 64 := by
      rw [← List.singleton_append, ← List.append_assoc]
      exact hfits
    rw [hfile, hindex, hoff, hcur, hremaining,
      constructIndexLoop_step (by rw [ha]; omega) (by unfold npos; rw [ha]; simp at hfits; omega)
        (by rw [ha]; omega)]
    -- what is left is the walk over `xs`, with the word for `b` written
    have hfile' : pre ++ placed o 0 xs ++ b ++ toListLE 8 (pre ++ placed o 0 xs).length ++
        placed (o + entriesLength xs + b.length + 8) 0 ys = pre ++ placed o 0 (xs ++ b :: ys) := by
      rw [placed_append, ha]
      simp only [placed, Nat.add_zero, List.append_assoc]
    have hindex' : List.replicate (8 * xs.length) (0 : UInt8) ++
        toListLE 8 (pre ++ placed o 0 xs).length ++
        indexBytes (positions (o + entriesLength xs + b.length + 8) ys) =
        List.replicate (8 * xs.length) 0 ++ indexBytes (positions (o + entriesLength xs) (b :: ys)) := by
      rw [ha]
      simp only [positions, indexBytes, List.flatMap_cons, List.append_assoc]
    rw [hfile', hindex', List.length_replicate, ha, ih (b :: ys) hfits', Option.map_some]
    simp

section Construct

variable {log : BlockLogData} {index : List UInt8} {bodies : List (List UInt8)}

/-- **`construct_index` rebuilds the index.** On a well-formed pair of files whose preamble holds
at least a trailer's 8 bytes, the index `construct_index` writes is the index of the pair, byte for
byte, whatever file was there before. -/
theorem BlockLogData.WellFormed.constructIndex_eq (hwf : log.WellFormed index bodies)
    (hpre : 8 ≤ log.firstBlockPosition) (old : Option (List UInt8)) :
    log.constructIndex old = some (some index) := by
  obtain ⟨pre, hprelen, hdata⟩ := hwf.layout
  have hlen := List.length_pos_of_ne_nil hwf.nonempty
  have hfits := hwf.fits
  rw [hwf.length_data] at hfits
  have hmake : ReverseBlockPositionIterator.make log.data log.firstBlockPosition =
      ⟨log.firstBlockPosition - 8, log.firstBlockPosition + entriesLength bodies - 8⟩ := by
    rw [ReverseBlockPositionIterator.make, hwf.length_data, u64Sub_eq hpre (by omega),
      u64Sub_eq (by omega) (by omega)]
  have hcreate : IndexWriter.create bodies.length =
      ⟨List.replicate (8 * bodies.length) 0 ++
        indexBytes (positions (log.firstBlockPosition + entriesLength bodies) []), 8 * bodies.length⟩ := by
    simp [IndexWriter.create, positions, indexBytes]
  have hwalk := constructIndexLoop_placed hprelen hpre bodies [] (by simpa using hfits)
  rw [List.append_nil, ← hdata] at hwalk
  rw [BlockLogData.constructIndex, hwf.numBlocks_eq, Option.bind_some, if_neg (by omega), hmake,
    hcreate, hwalk, Option.bind_some, if_neg (not_not.mpr rfl), hwf.index_eq]

end Construct

/-- A truncation block of zero stands for the largest block number, so it is not before any block
a log can hold. -/
theorem le_toNat_truncateAtBlock {k : ℕ} (hk : k ≤ 2 ^ 32) {truncateAtBlock : UInt32}
    (htrunc : truncateAtBlock = 0 ∨ k ≤ truncateAtBlock.toNat + 1) :
    k ≤ (if truncateAtBlock = 0 then uint32Max else truncateAtBlock).toNat + 1 := by
  by_cases h0 : truncateAtBlock = 0
  · rw [if_pos h0]
    show _ ≤ 4294967295 + 1
    omega
  · rw [if_neg h0]
    exact htrunc.resolve_left h0

/-! ### On a log whose entries hold their blocks -/

namespace PrunableLog

variable {F} {log : BlockLogData} {index : List UInt8}
  {entries : List (List UInt8 × SignedBlock H RH Sig Ext)}

/-- The last trailer of the log and the last word of its index hold the same position. -/
theorem lastBlockPosition_eq_indexBack (hlog : PrunableLog F log index entries) :
    log.lastBlockPosition = indexBack index := by
  have hwf := hlog.wellFormed
  have hlen := List.length_pos_of_ne_nil hwf.nonempty
  have hword : index.length - 8 = 8 * ((entries.map Prod.fst).length - 1) := by
    rw [hwf.length_index]
    omega
  rw [hwf.lastBlockPosition_eq, indexBack, hword, ← nthBlockPosition,
    hwf.nthBlockPosition_eq (by omega)]

/-- The last entry starts inside the file. -/
theorem lastBlockPosition_lt_length (hlog : PrunableLog F log index entries) :
    log.lastBlockPosition < log.data.length := by
  have hwf := hlog.wellFormed
  have hlen := List.length_pos_of_ne_nil hwf.nonempty
  have hlt := entriesLength_take_lt
    (show (entries.map Prod.fst).length - 1 < (entries.map Prod.fst).length by omega)
  rw [hwf.lastBlockPosition_eq, hwf.length_data]
  omega

/-- The block of the `j`-th entry is numbered `j` on from the first block. -/
theorem toNat_blockNum_getElem (hlog : PrunableLog F log index entries) {j : ℕ}
    (hj : j < entries.length) :
    (entries[j].2.blockNum F).toNat = log.firstBlockNum.toNat + j := by
  have hnum := hlog.wellFormed.numbered j (by simpa using hj)
  rwa [List.getElem_map, bodyBlockNum_of_le hlog.version,
    (hlog.holds _ (List.getElem_mem hj)).bodyBlockNum_eq] at hnum

/-- The scan of `repair_log` validates the first `k` entries when the truncation block is not
before the `k`-th, whatever follows the log. -/
theorem repairLoop_take (hlog : PrunableLog F log index entries) (tail : List UInt8) {k : ℕ}
    (hk : k ≤ entries.length) {truncateAtBlock : UInt32}
    (htrunc : log.firstBlockNum.toNat + k ≤ truncateAtBlock.toNat + 1) :
    ∃ last : UInt32, last.toNat = log.firstBlockNum.toNat + k - 1 ∧
      repairLoop F (log.data ++ tail) truncateAtBlock log.firstBlockPosition
          (log.firstBlockNum - 1) =
        repairLoop F (log.data ++ tail) truncateAtBlock
          (log.firstBlockPosition + entriesLength ((entries.map Prod.fst).take k)) last := by
  have hwf := hlog.wellFormed
  have hfirst := hwf.first_pos
  have hprev : (log.firstBlockNum - 1).toNat = log.firstBlockNum.toNat - 1 :=
    UInt32.toNat_sub_of_le _ _ (by rw [UInt32.le_iff_toNat_le]; simp; omega)
  obtain ⟨pre, hpre, hdata⟩ := hwf.data_eq_split k
  have hfits := hwf.fits
  rw [hwf.length_data_split k] at hfits
  -- the file after the first `k` entries is part of what follows them
  obtain ⟨rest, hrest⟩ : ∃ rest, rest = placed (log.firstBlockPosition +
      entriesLength ((entries.map Prod.fst).take k)) 0 ((entries.map Prod.fst).drop k) ++ tail :=
    ⟨_, rfl⟩
  have hsplit : log.data ++ tail =
      pre ++ placed pre.length 0 ((entries.take k).map Prod.fst) ++ rest := by
    rw [hdata, hpre, List.map_take, hrest]
    simp only [List.append_assoc]
  obtain ⟨last, hlast, hscan⟩ := repairLoop_placed truncateAtBlock rest (entries.take k) pre
    (log.firstBlockNum - 1) (fun e he => hlog.holds e (List.mem_of_mem_take he))
    (fun j hj => by
      have hjk : j < entries.length := by simp at hj; omega
      rw [List.getElem_take, hlog.toNat_blockNum_getElem hjk, hprev]
      omega)
    (by simp only [List.length_take, hprev]; omega)
    (by rw [hpre, List.map_take]; omega)
  refine ⟨last, by rw [hlast, hprev, List.length_take]; omega, ?_⟩
  rw [hsplit, ← hpre, ← List.map_take]
  exact hscan

/-- The entries end where the file ends. -/
theorem end_eq_length (hlog : PrunableLog F log index entries) :
    log.firstBlockPosition + entriesLength ((entries.map Prod.fst).take entries.length) =
      log.data.length := by
  rw [List.take_of_length_le (by simp), hlog.wellFormed.length_data]

/-- **`repair_log` keeps the log and drops a torn entry after it.** On a log whose entries hold
their blocks, followed by a torn copy of an entry written after it (cut before the end of its
trailer, possibly empty), `repair_log` with no truncation block, or one not before the last block,
keeps exactly the log. -/
theorem repairLog_torn (hlog : PrunableLog F log index entries) {torn q body : List UInt8}
    {b : SignedBlock H RH Sig Ext} (hb : HoldsBlock F body b)
    (htorn : torn ++ q = body ++ toListLE 8 log.data.length) (hq : q ≠ [])
    (hroom : (log.data ++ torn).length < 2 ^ 64) {truncateAtBlock : UInt32}
    (htrunc : truncateAtBlock = 0 ∨
      log.firstBlockNum.toNat + entries.length ≤ truncateAtBlock.toNat + 1) :
    repairLog F { log with data := log.data ++ torn } truncateAtBlock = some log.data := by
  have hwf := hlog.wellFormed
  have hwrap := hwf.no_wrap
  have hfits := hwf.fits
  rw [List.length_map] at hwrap
  obtain ⟨T, hT⟩ : ∃ T, T = if truncateAtBlock = 0 then uint32Max else truncateAtBlock := ⟨_, rfl⟩
  have hTle := le_toNat_truncateAtBlock hwrap htrunc
  rw [← hT] at hTle
  obtain ⟨last, -, hscan⟩ := hlog.repairLoop_take torn (le_refl _) hTle
  rw [hlog.end_eq_length] at hscan
  -- after the last entry the scan stops: at the end of the file, or at the torn entry
  have hstop : repairLoop F (log.data ++ torn) T log.data.length last = (log.data.length, last) := by
    by_cases hgo : log.data.length < (log.data ++ torn).length ∧ last < T
    · have hne : log.data.length ≠ npos := by
        unfold npos
        omega
      exact repairLoop_invalid hgo (fullValidateBlockEntry_torn hb htorn hq hne)
    · exact repairLoop_stop hgo
  unfold repairLog
  dsimp only
  rw [if_neg (UInt32.not_lt.mpr hlog.version), ← hT, hscan, hstop, List.take_left' rfl]

/-- `repair_log` with no truncation block, or one not before the last block, keeps a log whose
entries hold their blocks as it is. -/
theorem repairLog_self (hlog : PrunableLog F log index entries) {truncateAtBlock : UInt32}
    (htrunc : truncateAtBlock = 0 ∨
      log.firstBlockNum.toNat + entries.length ≤ truncateAtBlock.toNat + 1) :
    repairLog F log truncateAtBlock = some log.data := by
  have hwrap := hlog.wellFormed.no_wrap
  rw [List.length_map] at hwrap
  obtain ⟨last, -, hscan⟩ := hlog.repairLoop_take [] (le_refl _)
    (le_toNat_truncateAtBlock hwrap htrunc)
  rw [hlog.end_eq_length, List.append_nil] at hscan
  unfold repairLog
  dsimp only
  rw [if_neg (UInt32.not_lt.mpr hlog.version), hscan, repairLoop_stop (by omega), List.take_length]

/-- **Two ways to cut the log after a block agree.** For a block `n` of the log from the first on
and before the last, `repair_log(dir, n)` writes the same `blocks.log` as
`trim_blocklog_end(dir, n)`. -/
theorem repairLog_eq_trimBlocklogEnd (hlog : PrunableLog F log index entries) {n : UInt32}
    (hfirst : log.firstBlockNum ≤ n) (hn : n.toNat + 1 < log.firstBlockNum.toNat + entries.length) :
    ∃ data' index', repairLog F log n = some data' ∧
      trimBlocklogEnd log index n = some (0, data', index') := by
  have hwf := hlog.wellFormed
  have hk := hwf.toNat_toTrimBlockIndex hfirst
  have hloNat := UInt32.le_iff_toNat_le.mp hfirst
  have hpos := hwf.first_pos
  obtain ⟨last, hlast, hscan⟩ := hlog.repairLoop_take [] (k := (n + 1 - log.firstBlockNum).toNat)
    (by omega) (show _ ≤ n.toNat + 1 by omega)
  rw [List.append_nil] at hscan
  -- the scan stops after block `n`, the truncation block
  have hlastn : last = n := UInt32.toNat_inj.mp (by omega)
  have hstop : repairLoop F log.data n (log.firstBlockPosition +
      entriesLength ((entries.map Prod.fst).take (n + 1 - log.firstBlockNum).toNat)) last =
      (log.firstBlockPosition +
        entriesLength ((entries.map Prod.fst).take (n + 1 - log.firstBlockNum).toNat), last) :=
    repairLoop_stop (fun h => by rw [hlastn, UInt32.lt_iff_toNat_lt] at h; omega)
  have hn0 : ¬ n = 0 := fun h => by rw [h] at hloNat; simp at hloNat; omega
  refine ⟨_, _, ?_, trimBlocklogEnd_eq hwf hfirst (by simpa using hn)⟩
  unfold repairLog
  dsimp only
  rw [if_neg (UInt32.not_lt.mpr hlog.version), if_neg hn0, hscan, hstop]

/-- `recover_from_incomplete_block_head` cuts whatever follows the log, and keeps the log. -/
theorem recoverFromIncompleteBlockHead_append (hlog : PrunableLog F log index entries)
    (tail : List UInt8) :
    recoverFromIncompleteBlockHead F { log with data := log.data ++ tail } index =
      some log.data := by
  have hwf := hlog.wellFormed
  have hlen := List.length_pos_of_ne_nil hwf.nonempty
  rw [List.length_map] at hlen
  have hj : entries.length - 1 < entries.length := by omega
  have hjb : entries.length - 1 < (entries.map Prod.fst).length := by simpa using hj
  have hholds := hlog.holds _ (List.getElem_mem hj)
  -- the last entry: where the index's last word points, and up to the end of the file
  obtain ⟨P, hP⟩ : ∃ P, P = log.firstBlockPosition +
      entriesLength ((entries.map Prod.fst).take (entries.length - 1)) := ⟨_, rfl⟩
  have hback : indexBack index = P := by
    rw [hP, ← hlog.lastBlockPosition_eq_indexBack, hwf.lastBlockPosition_eq, List.length_map]
  have hend : P + entries[entries.length - 1].1.length + 8 = log.data.length := by
    have hsplit := hwf.length_data_split (entries.length - 1)
    rw [List.drop_eq_getElem_cons hjb, List.drop_eq_nil_of_le (by simp; omega)] at hsplit
    simp only [entriesLength_cons, entriesLength_nil, List.getElem_map] at hsplit
    omega
  obtain ⟨rest, hrest⟩ := hwf.drop_entry hjb
  rw [List.getElem_map, ← hP] at hrest
  have hdrop : (log.data ++ tail).drop P = entries[entries.length - 1].1 ++ (rest ++ tail) := by
    rw [List.drop_append_of_le_length (by omega), hrest, List.append_assoc]
  -- the index counts to the last block, `first + count - 1` in 32 bits
  have hexpected : log.firstBlockNum + UInt32.ofNat (index.length / 8) - 1 =
      entries[entries.length - 1].2.blockNum F := by
    have hnum := hlog.toNat_blockNum_getElem hj
    have hwrap := hwf.no_wrap
    have hpos := hwf.first_pos
    rw [List.length_map] at hwrap
    have hcount : index.length / 8 = entries.length := by
      rw [hwf.length_index, List.length_map, Nat.mul_div_cancel_left _ (by norm_num)]
    have hofNat : (UInt32.ofNat entries.length).toNat = entries.length :=
      UInt32.toNat_ofNat_of_lt' (show entries.length < 4294967296 by omega)
    apply UInt32.toNat_inj.mp
    rw [hnum, hcount, UInt32.toNat_sub, UInt32.toNat_add, hofNat, UInt32.toNat_one]
    omega
  have htrailer : readU64 (log.data ++ tail) (P + (entries[entries.length - 1].1.length + 8) - 8) =
      P := by
    rw [show P + (entries[entries.length - 1].1.length + 8) - 8 = log.data.length - 8 by omega,
      readU64, readAt_append_left (by omega), ← readU64, ← BlockLogData.lastBlockPosition,
      hwf.lastBlockPosition_eq, List.length_map, ← hP]
  have hnotle : ¬ (log.data ++ tail).length ≤ P := by
    simp only [List.length_append]
    omega
  have hnotlt : ¬ (log.data ++ tail).length <
      P + (entries[entries.length - 1].1.length + 8) - 8 + 8 := by
    simp only [List.length_append]
    omega
  unfold recoverFromIncompleteBlockHead
  dsimp only
  rw [hback, if_neg hnotle, if_neg (UInt32.not_lt.mpr hlog.version), hdrop, hholds.unpackEntry_eq, Option.bind_some]
  dsimp only
  rw [hexpected, if_neg (not_not.mpr rfl), if_neg hnotlt, htrailer, if_neg (not_not.mpr rfl),
    show P + (entries[entries.length - 1].1.length + 8) - 8 + 8 = log.data.length by omega,
    List.take_left' rfl]

end PrunableLog

/-! ### The branches of opening -/

section Open

variable {F} {log : BlockLogData} {index : List UInt8}

/-- Files whose last trailer and last index word agree are opened as they are. -/
theorem openLog_of_agree (fix : Bool) (hdata : log.data.length ≠ 0) (hindex : index.length ≠ 0)
    (haligned : index.length % 8 = 0) (hagree : log.lastBlockPosition = indexBack index) :
    openLog F fix log index = some (log.data, index) := by
  unfold openLog
  rw [if_neg hdata, if_neg hindex, if_pos haligned, if_neg (not_not.mpr hagree)]

/-- With `fix_irreversible_blocks`, files that disagree have their incomplete block head cut off
when `recover_from_incomplete_block_head` succeeds. -/
theorem openLog_of_recover {data : List UInt8} (hdata : log.data.length ≠ 0)
    (hindex : index.length ≠ 0) (haligned : index.length % 8 = 0)
    (hdisagree : log.lastBlockPosition ≠ indexBack index)
    (hrecover : recoverFromIncompleteBlockHead F log index = some data) :
    openLog F true log index = some (data, index) := by
  unfold openLog
  rw [if_neg hdata, if_neg hindex, if_pos haligned, if_pos hdisagree, hrecover]
  rfl

/-- With `fix_irreversible_blocks`, files that disagree and whose block head cannot be recovered
are repaired, and the index rebuilt. -/
theorem openLog_of_recover_none (hdata : log.data.length ≠ 0) (hindex : index.length ≠ 0)
    (haligned : index.length % 8 = 0) (hdisagree : log.lastBlockPosition ≠ indexBack index)
    (hrecover : recoverFromIncompleteBlockHead F log index = none) :
    openLog F true log index = (repairLog F log uint32Max).bind fun data =>
      (({ log with data := data } : BlockLogData).constructIndex none).bind
        fun index => index.map fun index => (data, index) := by
  unfold openLog
  rw [if_neg hdata, if_neg hindex, if_pos haligned, if_pos hdisagree, hrecover]
  rfl

/-- With `fix_irreversible_blocks`, an index that is not whole words makes the log repaired and
the index rebuilt. -/
theorem openLog_of_misaligned (hdata : log.data.length ≠ 0) (hindex : index.length ≠ 0)
    (hmisaligned : index.length % 8 ≠ 0) :
    openLog F true log index = (repairLog F log uint32Max).bind fun data =>
      (({ log with data := data } : BlockLogData).constructIndex none).bind
        fun index => index.map fun index => (data, index) := by
  unfold openLog
  rw [if_neg hdata, if_neg hindex, if_neg hmisaligned]
  rfl

/-- A torn entry at the end of the log cannot be taken for a whole one by
`recover_from_incomplete_block_head`, when the index's last word points at it. -/
theorem recoverFromIncompleteBlockHead_torn {idx torn q body : List UInt8}
    {b : SignedBlock H RH Sig Ext} (hb : HoldsBlock F body b)
    (htorn : torn ++ q = body ++ toListLE 8 log.data.length) (hq : q ≠ [])
    (hback : indexBack idx = log.data.length) :
    recoverFromIncompleteBlockHead F { log with data := log.data ++ torn } idx = none := by
  have hshort := length_torn_lt htorn hq
  unfold recoverFromIncompleteBlockHead
  dsimp only
  rw [hback]
  by_cases hempty : (log.data ++ torn).length ≤ log.data.length
  · rw [if_pos hempty]
  rw [if_neg hempty]
  split_ifs
  · rfl
  rw [List.drop_left]
  cases hun : unpackEntry F torn with
  | none => rfl
  | some e =>
    -- the entry's trailer would end past the file
    have hsize := unpackEntry_torn hb htorn hun
    have hout : (log.data ++ torn).length < log.data.length + e.1 - 8 + 8 := by
      simp only [List.length_append]
      omega
    rw [Option.bind_some]
    -- `split_ifs` decides the trailer's check by `hout`
    split_ifs
    all_goals rfl

end Open

/-! ### A crash during an append -/

/-- The last trailer of a file that ends in an entry's trailer. -/
theorem lastBlockPosition_append_trailer (log : BlockLogData) (body : List UInt8) {v : ℕ}
    (hv : v < 2 ^ 64) :
    ({ log with data := log.data ++ body ++ toListLE 8 v } : BlockLogData).lastBlockPosition = v := by
  unfold BlockLogData.lastBlockPosition
  have hlen : (log.data ++ body ++ toListLE 8 v).length - 8 = (log.data ++ body).length := by
    simp only [List.length_append, length_toListLE]
    omega
  rw [hlen, ← List.append_nil (log.data ++ body ++ toListLE 8 v), readU64_trailer _ _ hv]

/-- The last word of an index that ends in a position. -/
theorem indexBack_append_word (index : List UInt8) {v : ℕ} (hv : v < 2 ^ 64) :
    indexBack (index ++ toListLE 8 v) = v := by
  unfold indexBack
  have hlen : (index ++ toListLE 8 v).length - 8 = index.length := by
    simp only [List.length_append, length_toListLE]
    omega
  rw [hlen, ← List.append_nil (index ++ toListLE 8 v), readU64_trailer _ _ hv]

namespace PrunableLog

variable {F} {log : BlockLogData} {index : List UInt8}
  {entries : List (List UInt8 × SignedBlock H RH Sig Ext)}

/-- Where `repair_log` gives back a log whose entries hold their blocks, `construct_index` rebuilds
its index. -/
theorem repairAndConstruct_eq (hlog : PrunableLog F log index entries)
    (hpre : 8 ≤ log.firstBlockPosition) {data : List UInt8}
    (hrepair : repairLog F { log with data := data } uint32Max = some log.data) :
    ((repairLog F { log with data := data } uint32Max).bind fun data =>
      (({ log with data := data } : BlockLogData).constructIndex none).bind
        fun index => index.map fun index => (data, index)) = some (log.data, index) := by
  rw [hrepair, Option.bind_some]
  -- the repaired file is the log itself
  show (log.constructIndex none).bind _ = _
  rw [hlog.wellFormed.constructIndex_eq hpre none]
  rfl

/-- **A crash that tears the appended entry opens as the log before the append.** With
`fix_irreversible_blocks`, a log followed by a torn copy of the entry an append writes after it
(cut before the end of its trailer), with its index followed by any part of the entry's word,
opens as the log and the index before the append, provided the last eight bytes of the torn file
do not hold the position the index's last word holds. -/
theorem openLog_torn (hlog : PrunableLog F log index entries) (hpre : 8 ≤ log.firstBlockPosition)
    {torn q body p r : List UInt8} {b : SignedBlock H RH Sig Ext} (hb : HoldsBlock F body b)
    (htorn : torn ++ q = body ++ toListLE 8 log.data.length) (hq : q ≠ [])
    (hword : p ++ r = toListLE 8 log.data.length)
    (hroom : log.data.length + body.length + 8 < 2 ^ 64)
    (hlast : log.firstBlockNum.toNat + entries.length < 2 ^ 32)
    (hdetect : torn ≠ [] → (index ++ p).length % 8 = 0 →
      ({ log with data := log.data ++ torn } : BlockLogData).lastBlockPosition ≠
        indexBack (index ++ p)) :
    openLog F true { log with data := log.data ++ torn } (index ++ p) = some (log.data, index) := by
  have hwf := hlog.wellFormed
  have hlen := List.length_pos_of_ne_nil hwf.nonempty
  have hshort := length_torn_lt htorn hq
  have hwordlen : p.length + r.length = 8 := by
    simpa using congrArg List.length hword
  have hlast' := hlog.lastBlockPosition_eq_indexBack
  have hP := hlog.lastBlockPosition_lt_length
  have hdatalen : (log.data ++ torn).length ≠ 0 := by
    simp only [List.length_append]
    omega
  have hindexlen : (index ++ p).length ≠ 0 := by
    rw [List.length_append, hwf.length_index]
    omega
  have hrepair := hlog.repairAndConstruct_eq hpre (hlog.repairLog_torn hb htorn hq
    (by simp only [List.length_append]; omega) (Or.inr (by show _ ≤ 4294967295 + 1; omega)))
  by_cases hr : r = []
  · -- the index word was written whole: it points at the torn entry, which is not recovered
    rw [hr, List.append_nil] at hword
    subst hword
    have hback : indexBack (index ++ toListLE 8 log.data.length) = log.data.length :=
      indexBack_append_word index (by omega)
    have hdisagree : ({ log with data := log.data ++ torn } : BlockLogData).lastBlockPosition ≠
        indexBack (index ++ toListLE 8 log.data.length) := by
      by_cases htorn0 : torn = []
      · subst htorn0
        rw [hback, List.append_nil]
        show log.lastBlockPosition ≠ _
        omega
      · exact hdetect htorn0 (by rw [List.length_append, hwf.length_index]; simp)
    rw [openLog_of_recover_none hdatalen hindexlen
      (by rw [List.length_append, hwf.length_index]; simp) hdisagree
      (recoverFromIncompleteBlockHead_torn hb htorn hq hback)]
    exact hrepair
  by_cases hp : p = []
  · -- nothing of the index word was written
    subst hp
    rw [List.append_nil]
    by_cases htorn0 : torn = []
    · subst htorn0
      rw [List.append_nil] at hdatalen ⊢
      exact openLog_of_agree true hdatalen (by simpa using hindexlen)
        (by rw [hwf.length_index]; simp) hlast'
    · have hdisagree := hdetect htorn0 (by rw [List.append_nil, hwf.length_index]; simp)
      rw [List.append_nil] at hdisagree
      exact openLog_of_recover hdatalen (by simpa using hindexlen)
        (by rw [hwf.length_index]; simp) hdisagree (hlog.recoverFromIncompleteBlockHead_append torn)
  · -- part of the index word: the index is not whole words
    have hmisaligned : (index ++ p).length % 8 ≠ 0 := by
      have hppos := List.length_pos_of_ne_nil hp
      have hrpos := List.length_pos_of_ne_nil hr
      rw [List.length_append, hwf.length_index]
      omega
    rw [openLog_of_misaligned hdatalen hindexlen hmisaligned]
    exact hrepair

/-- **A crash during an append opens as the log before it or the log after it.** `append` writes
the entry and its position to `blocks.log` and the position to `blocks.index`; a crash may leave
any part of each write. With `fix_irreversible_blocks`, files cut anywhere in between open as the
files before the append or the files after it, provided that a torn entry whose index is whole
words does not end in the eight bytes of the index's last position. -/
theorem openLog_appendCrash (hlog : PrunableLog F log index entries)
    (hpre : 8 ≤ log.firstBlockPosition) {b : SignedBlock H RH Sig Ext} {log' : BlockLogData}
    {index' : List UInt8} (hb : log.append F index b = some (log', index'))
    (hnum : b.blockNum F ≠ 0)
    (hsize : ∀ body, packBody F b = some body →
      46 + (4 + 1) ≤ body.length ∧ body.length + 8 < 2 ^ 32)
    (hfits : log'.data.length < 2 ^ 64) {data idx : List UInt8}
    (hdata : log.data <+: data ∧ data <+: log'.data) (hidx : index <+: idx ∧ idx <+: index')
    (hdetect : log.data.length < data.length → data.length < log'.data.length →
      idx.length % 8 = 0 →
      ({ log with data := data } : BlockLogData).lastBlockPosition ≠ indexBack idx) :
    openLog F true { log with data := data } idx = some (log.data, index) ∨
      openLog F true { log with data := data } idx = some (log'.data, index') := by
  obtain ⟨hblockNum, body, hbody, hwrite, hlog'⟩ := hlog.append hb hnum hsize hfits
  have hholds := packBody_holdsBlock F hbody (hsize body hbody).2
  have hwf := hlog.wellFormed
  -- the files after the append: the entry and its position after the log, the position after
  -- the index
  simp only [BlockLogData.writeLogEntry, Prod.mk.injEq] at hwrite
  obtain ⟨rfl, rfl⟩ := hwrite
  dsimp only at hdata hfits hdetect ⊢
  obtain ⟨torn, rfl⟩ := hdata.1
  obtain ⟨q, htorn⟩ : torn <+: body ++ toListLE 8 log.data.length := by
    have h := hdata.2
    rwa [List.append_assoc, List.prefix_append_right_inj] at h
  obtain ⟨p, rfl⟩ := hidx.1
  obtain ⟨r, hword⟩ : p <+: toListLE 8 log.data.length :=
    (List.prefix_append_right_inj index).mp hidx.2
  have hlast : log.firstBlockNum.toNat + entries.length < 2 ^ 32 := by
    have := (b.blockNum F).toNat_lt
    omega
  have hroom : log.data.length + body.length + 8 < 2 ^ 64 := by
    simpa only [List.length_append, length_toListLE] using hfits
  by_cases hq : q = []
  · -- the entry was written whole
    subst hq
    rw [List.append_nil] at htorn
    subst htorn
    rw [← List.append_assoc]
    have hdatalen : (log.data ++ body ++ toListLE 8 log.data.length).length ≠ 0 := by
      simp only [List.length_append, length_toListLE]
      omega
    have hindexlen : (index ++ p).length ≠ 0 := by
      have := List.length_pos_of_ne_nil hwf.nonempty
      rw [List.length_append, hwf.length_index]
      omega
    by_cases hr : r = []
    · -- and so was its position: the files agree
      rw [hr, List.append_nil] at hword
      subst hword
      right
      exact openLog_of_agree true hdatalen hindexlen
        (by rw [hlog'.wellFormed.length_index]; simp) hlog'.lastBlockPosition_eq_indexBack
    by_cases hp : p = []
    · -- nothing of the position: the entry is cut off again
      subst hp
      left
      rw [List.append_nil] at hindexlen ⊢
      have hdisagree : ({ log with data := log.data ++ body ++ toListLE 8 log.data.length } :
          BlockLogData).lastBlockPosition ≠ indexBack index := by
        rw [lastBlockPosition_append_trailer log body (by omega),
          ← hlog.lastBlockPosition_eq_indexBack]
        exact Nat.ne_of_gt hlog.lastBlockPosition_lt_length
      refine openLog_of_recover hdatalen hindexlen (by rw [hwf.length_index]; simp) hdisagree ?_
      rw [List.append_assoc]
      exact hlog.recoverFromIncompleteBlockHead_append _
    · -- part of the position: the index is not whole words, and is rebuilt
      right
      have hmisaligned : (index ++ p).length % 8 ≠ 0 := by
        have hppos := List.length_pos_of_ne_nil hp
        have hrpos := List.length_pos_of_ne_nil hr
        have hwordlen : p.length + r.length = 8 := by
          simpa using congrArg List.length hword
        rw [List.length_append, hwf.length_index]
        omega
      have htrunc : log.firstBlockNum.toNat + (entries ++ [(body, b)]).length ≤
          uint32Max.toNat + 1 := by
        rw [List.length_append, List.length_singleton]
        show _ ≤ 4294967295 + 1
        omega
      rw [openLog_of_misaligned hdatalen hindexlen hmisaligned]
      exact hlog'.repairAndConstruct_eq hpre (hlog'.repairLog_self (Or.inr htrunc))
  · -- the entry was torn
    left
    have hshort := length_torn_lt htorn hq
    refine hlog.openLog_torn hpre hholds htorn hq hword hroom hlast fun htorn0 haligned => ?_
    refine hdetect ?_ ?_ haligned
    · have := List.length_pos_of_ne_nil htorn0
      simp only [List.length_append]
      omega
    · simp only [List.length_append, length_toListLE]
      omega

theorem openLog_appendCrash_exampleLog :
    openLog exampleFormat true
        { exampleLog with
          data := ((exampleLog.append exampleFormat exampleIndex exampleBlock3).get
            (by decide +kernel)).1.data.take 300 } exampleIndex =
        some (exampleLog.data, exampleIndex) ∨
      openLog exampleFormat true
        { exampleLog with
          data := ((exampleLog.append exampleFormat exampleIndex exampleBlock3).get
            (by decide +kernel)).1.data.take 300 } exampleIndex =
        some (((exampleLog.append exampleFormat exampleIndex exampleBlock3).get
            (by decide +kernel)).1.data,
          ((exampleLog.append exampleFormat exampleIndex exampleBlock3).get
            (by decide +kernel)).2) :=
  exampleLog_prunable.openLog_appendCrash (by decide)
    (show exampleLog.append exampleFormat exampleIndex exampleBlock3 = some (((exampleLog.append exampleFormat exampleIndex exampleBlock3).get
        (by decide +kernel)).1, ((exampleLog.append exampleFormat exampleIndex exampleBlock3).get
        (by decide +kernel)).2) from (Option.some_get (by decide +kernel)).symm) (by decide +kernel)
    (fun body hbody => by
      obtain ⟨hsome, rfl⟩ := Option.eq_some_iff_get_eq.mp hbody
      exact ⟨by decide +kernel +revert, by decide +kernel +revert⟩)
    (by decide +kernel) ⟨List.prefix_iff_eq_take.mpr (by decide +kernel), List.take_prefix _ _⟩
    ⟨List.prefix_refl _, List.prefix_iff_eq_take.mpr (by decide +kernel)⟩ (by decide +kernel)

/-- The check on opening compares only the last eight bytes of `blocks.log` with the last word of
`blocks.index`: bytes after the log that end in the position of the index's last word are kept,
whether `fix_irreversible_blocks` is set or not. -/
theorem openLog_keepsTornEntry (hlog : PrunableLog F log index entries) (fix : Bool)
    {pre : List UInt8} :
    openLog F fix { log with data := log.data ++ (pre ++ toListLE 8 (indexBack index)) } index =
      some (log.data ++ (pre ++ toListLE 8 (indexBack index)), index) := by
  have hwf := hlog.wellFormed
  have hback : indexBack index < 2 ^ 64 := by
    have := hlog.lastBlockPosition_lt_length
    have := hwf.fits
    rw [hlog.lastBlockPosition_eq_indexBack] at *
    omega
  rw [← List.append_assoc]
  refine openLog_of_agree fix (by simp) ?_ (by rw [hwf.length_index]; simp)
    (lastBlockPosition_append_trailer log pre hback)
  have := List.length_pos_of_ne_nil hwf.nonempty
  rw [hwf.length_index]
  omega

end PrunableLog

/-- **Cutting after a block by `repair_log` and by `trim_blocklog_end`, on `exampleLog`.** -/
theorem repairLog_eq_trimBlocklogEnd_exampleLog :
    ∃ data' index', repairLog exampleFormat exampleLog 1 = some data' ∧
      trimBlocklogEnd exampleLog exampleIndex 1 = some (0, data', index') :=
  exampleLog_prunable.repairLog_eq_trimBlocklogEnd (by decide) (by decide +kernel)

end Eosio.Chain
