import Mathlib
import TaurusNode.StateHistory.Log
import TaurusNode.Lib.Fallible

/-!
# The entries of the state history log

What `write_entry` keeps true of the log (`StateHistoryLog.Inv`), and what `recover_blocks`
keeps of any file.

* The log is the entries of the consecutive blocks `_begin_block .. _end_block - 1`, each laid
  out as `LogEntry.bytes`: the header with the ship magic of the current version, the block id
  and the payload's size, the payload, and the entry's start position; the index holds the start
  positions (`LogFiles`). Each bundle of the catalog is such a pair of files for its range, and
  the bundles lie below the log in block order.
* `write_entry` keeps this (`StateHistoryLog.Inv.writeEntry`), when its block number is below
  `2^32 - 1`, so that `_end_block = block_num + 1` does not wrap, and the files are below
  `2^64` bytes, so that the positions of the index are exact.
* `recover_blocks` cuts any file to the longest prefix made of well formed entries
  (`EntryChain`), or throws on a header with the ship magic and an unsupported version
  (`recoverBlocks_spec`); on a log that `write_entry` wrote it keeps everything.
-/

namespace Eosio

open Bytes

/-! ### Entries -/

/-- One entry of a log: the magic and block id of its header, and its payload. -/
structure LogEntry where
  magic : UInt64
  blockId : BlockId
  payload : List UInt8

namespace LogEntry

variable (e : LogEntry)

/-- The entry's header, with the size of its payload. -/
def header : StateHistoryLogHeader :=
  ⟨e.magic, e.blockId, e.payload.length.toUInt64⟩

/-- The size of the entry in the file. -/
def size : ℕ :=
  stateHistoryLogHeaderSerialSize + e.payload.length + 8

/-- The entry's bytes at position `pos`: header, payload, and `pos` as the suffix. -/
def bytes (pos : ℕ) : List UInt8 :=
  e.header.pack ++ e.payload ++ toListLE 8 pos

end LogEntry

/-- The entries one after another from position `pos`. -/
def encodeEntries : ℕ → List LogEntry → List UInt8
  | _, [] => []
  | pos, e :: es => e.bytes pos ++ encodeEntries (pos + e.size) es

/-- The start positions of the entries from position `pos`. -/
def entryOffsets : ℕ → List LogEntry → List ℕ
  | _, [] => []
  | pos, e :: es => pos :: entryOffsets (pos + e.size) es

@[simp] theorem length_pack (h : StateHistoryLogHeader) :
    h.pack.length = stateHistoryLogHeaderSerialSize := by
  simp [StateHistoryLogHeader.pack, h.blockId.length_bytes, stateHistoryLogHeaderSerialSize]

@[simp] theorem LogEntry.length_bytes (e : LogEntry) (pos : ℕ) : (e.bytes pos).length = e.size := by
  simp [LogEntry.bytes, LogEntry.size, Nat.add_assoc]

theorem length_encodeEntries (pos : ℕ) (es : List LogEntry) :
    (encodeEntries pos es).length = (es.map LogEntry.size).sum := by
  induction es generalizing pos with
  | nil => rfl
  | cons e es ih => simp [encodeEntries, ih]

theorem encodeEntries_append (pos : ℕ) (es fs : List LogEntry) :
    encodeEntries pos (es ++ fs) =
      encodeEntries pos es ++ encodeEntries (pos + (es.map LogEntry.size).sum) fs := by
  induction es generalizing pos with
  | nil => simp [encodeEntries]
  | cons e es ih => simp [encodeEntries, ih, Nat.add_assoc]

theorem entryOffsets_append (pos : ℕ) (es fs : List LogEntry) :
    entryOffsets pos (es ++ fs) =
      entryOffsets pos es ++ entryOffsets (pos + (es.map LogEntry.size).sum) fs := by
  induction es generalizing pos with
  | nil => simp [entryOffsets]
  | cons e es ih => simp [entryOffsets, ih, Nat.add_assoc]

@[simp] theorem length_entryOffsets (pos : ℕ) (es : List LogEntry) :
    (entryOffsets pos es).length = es.length := by
  induction es generalizing pos with
  | nil => rfl
  | cons e es ih => simp [entryOffsets, ih]

/-- The first `k` entries are a prefix of the file, ending where the `k`-th entry starts. -/
theorem encodeEntries_take (pos k : ℕ) (es : List LogEntry) :
    encodeEntries pos (es.take k) =
      (encodeEntries pos es).take ((es.take k).map LogEntry.size).sum := by
  have h := encodeEntries_append pos (es.take k) (es.drop k)
  rw [List.take_append_drop] at h
  rw [h, ← length_encodeEntries pos, List.take_left]

theorem entryOffsets_take (pos k : ℕ) (es : List LogEntry) :
    entryOffsets pos (es.take k) = (entryOffsets pos es).take k := by
  induction es generalizing pos k with
  | nil => simp [entryOffsets]
  | cons e es ih =>
    cases k with
    | zero => simp [entryOffsets]
    | succ k => simp [entryOffsets, ih]

/-- The `k`-th start position is the size of the entries before it. -/
theorem getD_entryOffsets (pos : ℕ) {k : ℕ} (es : List LogEntry) (hk : k < es.length) :
    (entryOffsets pos es).getD k 0 = pos + ((es.take k).map LogEntry.size).sum := by
  conv_lhs => rw [← List.take_append_drop k es, entryOffsets_append]
  have hdrop : es.drop k ≠ [] := by
    simp only [ne_eq, List.drop_eq_nil_iff, Nat.not_le]
    exact hk
  obtain ⟨e, fs, hfs⟩ := List.exists_cons_of_ne_nil hdrop
  rw [hfs, List.getD_eq_getElem?_getD, List.getElem?_append_right (by simp)]
  simp [entryOffsets, List.length_take, Nat.min_eq_left hk.le]

/-! ### Headers -/

theorem readAt_pack_magic (h : StateHistoryLogHeader) (rest : List UInt8) :
    readAt (h.pack ++ rest) 0 8 = toListLE 8 h.magic.toNat := by
  rw [StateHistoryLogHeader.pack, List.append_assoc, List.append_assoc,
    readAt_append_left (by simp), readAt_of_length_eq (by simp)]

theorem readAt_pack_blockId (h : StateHistoryLogHeader) (rest : List UInt8) :
    readAt (h.pack ++ rest) 8 32 = h.blockId.bytes := by
  show readAt _ (8 + 0) 32 = _
  rw [StateHistoryLogHeader.pack, List.append_assoc, List.append_assoc,
    readAt_append_right (length_toListLE 8 _), readAt_append_left (by simp [h.blockId.length_bytes]),
    readAt_of_length_eq h.blockId.length_bytes]

theorem readAt_pack_payloadSize (h : StateHistoryLogHeader) (rest : List UInt8) :
    readAt (h.pack ++ rest) 40 8 = toListLE 8 h.payloadSize.toNat := by
  have hlen : (toListLE 8 h.magic.toNat ++ h.blockId.bytes).length = 40 := by
    simp [h.blockId.length_bytes]
  show readAt _ (40 + 0) 8 = _
  rw [StateHistoryLogHeader.pack, List.append_assoc _ (toListLE 8 _), readAt_append_right hlen,
    readAt_append_left (by simp), readAt_of_length_eq (by simp)]

theorem ofListLE_toListLE_toNat (x : UInt64) : (ofListLE (toListLE 8 x.toNat)).toUInt64 = x := by
  rw [ofListLE_toListLE_of_lt (by simpa using x.toNat_lt)]
  exact UInt64.ofNat_toNat

/-- A header reads back as it was written. -/
@[simp] theorem unpack_pack_append (h : StateHistoryLogHeader) (rest : List UInt8) :
    StateHistoryLogHeader.unpack (h.pack ++ rest) = h := by
  have hid : (readAt (h.pack ++ rest) 8 32).takeD 32 0 = h.blockId.bytes := by
    rw [readAt_pack_blockId, List.takeD_eq_take _ (by simp [h.blockId.length_bytes]),
      List.take_of_length_le (by simp [h.blockId.length_bytes])]
  simp only [StateHistoryLogHeader.unpack, readAt_pack_magic, readAt_pack_payloadSize, hid,
    ofListLE_toListLE_toNat]

/-! ### The files of a log -/

/-- The log and index files hold the entries `es` of the consecutive blocks from `firstBlock`:
each entry is written with the ship magic of the current version, and the index word of each is
the position of its entry. -/
structure LogFiles (log : List UInt8) (index : List UInt64) (firstBlock : ℕ)
    (es : List LogEntry) : Prop where
  log_eq : log = encodeEntries 0 es
  index_eq : index = (entryOffsets 0 es).map Nat.toUInt64
  magic_eq : ∀ e ∈ es, e.magic = shipMagic shipCurrentVersion
  blockNums : es.map (fun e => (numFromId e.blockId).toNat) = List.range' firstBlock es.length

namespace LogFiles

variable {log : List UInt8} {index : List UInt64} {firstBlock : ℕ} {es : List LogEntry}

theorem nil (firstBlock : ℕ) : LogFiles [] [] firstBlock [] :=
  ⟨rfl, rfl, by simp, rfl⟩

theorem length_log (h : LogFiles log index firstBlock es) :
    log.length = (es.map LogEntry.size).sum := by
  rw [h.log_eq, length_encodeEntries]

/-- The index word of the `k`-th entry is its position, when the log is below `2^64` bytes. -/
theorem toNat_getD_index (h : LogFiles log index firstBlock es) (hlog : log.length < 2 ^ 64)
    {k : ℕ} (hk : k < es.length) :
    (index.getD k 0).toNat = ((es.take k).map LogEntry.size).sum := by
  have hsplit : ((es.take k).map LogEntry.size).sum + ((es.drop k).map LogEntry.size).sum =
      (es.map LogEntry.size).sum := by
    rw [← List.sum_append, ← List.map_append, List.take_append_drop]
  have hzero : (0 : UInt64) = Nat.toUInt64 0 := rfl
  rw [h.index_eq, hzero, List.getD_map, getD_entryOffsets 0 es hk, Nat.zero_add,
    Nat.toUInt64_eq, UInt64.toNat_ofNat', Nat.mod_eq_of_lt]
  rw [h.length_log] at hlog
  omega

/-- Cutting the files at the position of the `k`-th entry leaves the first `k` entries. -/
theorem take (h : LogFiles log index firstBlock es) (hlog : log.length < 2 ^ 64) {k : ℕ}
    (hk : k < es.length) :
    LogFiles (log.take (index.getD k 0).toNat) (index.take k) firstBlock (es.take k) where
  log_eq := by rw [h.toNat_getD_index hlog hk, h.log_eq, encodeEntries_take]
  index_eq := by rw [h.index_eq, ← List.map_take, entryOffsets_take]
  magic_eq e he := h.magic_eq e (List.mem_of_mem_take he)
  blockNums := by
    rw [List.map_take, h.blockNums, List.take_range'_of_length_ge hk.le, List.length_take,
      Nat.min_eq_left hk.le]

/-- An entry of the next block written at the end of the log. -/
theorem append (h : LogFiles log index firstBlock es) (e : LogEntry)
    (hmagic : e.magic = shipMagic shipCurrentVersion)
    (hnum : (numFromId e.blockId).toNat = firstBlock + es.length) :
    LogFiles (log ++ e.bytes log.length) (index ++ [log.length.toUInt64]) firstBlock (es ++ [e]) where
  log_eq := by
    rw [h.log_eq, encodeEntries_append, length_encodeEntries, Nat.zero_add]
    simp [encodeEntries]
  index_eq := by
    rw [h.index_eq, entryOffsets_append, h.log_eq, length_encodeEntries, Nat.zero_add]
    simp [entryOffsets]
  magic_eq e' he' := by
    rcases List.mem_append.mp he' with he' | he'
    · exact h.magic_eq e' he'
    · rw [List.mem_singleton.mp he', hmagic]
  blockNums := by
    rw [List.map_append, h.blockNums, List.length_append, List.length_singleton,
      List.range'_concat]
    simp [hnum]

end LogFiles

/-- A bundle of the catalog holds the entries of its blocks, of which there is at least one. -/
def LogBundle.Holds (b : LogBundle) : Prop :=
  ∃ es, es ≠ [] ∧ LogFiles b.log b.index b.firstBlock.toNat es ∧
    b.lastBlock.toNat + 1 = b.firstBlock.toNat + es.length

theorem LogBundle.Holds.firstBlock_le {b : LogBundle} (h : b.Holds) : b.firstBlock ≤ b.lastBlock := by
  obtain ⟨es, hne, -, hlen⟩ := h
  have : 0 < es.length := List.length_pos_of_ne_nil hne
  rw [UInt32.le_iff_toNat_le]
  omega

/-- The bundles of a catalog hold their entries, are at most `W` bytes long, end before block
`bound`, and follow one another in block order. -/
structure LogCatalog.Below (c : LogCatalog) (W : ℕ) (bound : UInt32) : Prop where
  holds : ∀ b ∈ c.collection, b.Holds
  log_le : ∀ b ∈ c.collection, b.log.length ≤ W
  lt_bound : ∀ b ∈ c.collection, b.lastBlock < bound
  ordered : c.collection.Pairwise fun b b' => b.lastBlock < b'.firstBlock

namespace LogCatalog

theorem below_nil (c : LogCatalog) (hc : c.collection = []) (W : ℕ) (bound : UInt32) :
    c.Below W bound :=
  ⟨by simp [hc], by simp [hc], by simp [hc], by simp [hc]⟩

theorem Below.of_sublist {c c' : LogCatalog} {W : ℕ} {x : UInt32} (h : c.Below W x)
    (hsub : c'.collection.Sublist c.collection) {y : UInt32}
    (hlt : ∀ b ∈ c'.collection, b.lastBlock < y) : c'.Below W y where
  holds b hb := h.holds b (hsub.subset hb)
  log_le b hb := h.log_le b (hsub.subset hb)
  lt_bound := hlt
  ordered := h.ordered.sublist hsub

theorem Below.mono {c : LogCatalog} {W : ℕ} {x y : UInt32} (h : c.Below W x) (hxy : x ≤ y) :
    c.Below W y :=
  h.of_sublist (List.Sublist.refl _) fun b hb => UInt32.lt_of_lt_of_le (h.lt_bound b hb) hxy

/-- The bundles kept by `truncate` when no bundle holds the block all end before it. -/
theorem truncate_none {c c' : LogCatalog} {blockNum : UInt32}
    (hord : c.collection.Pairwise fun b b' => b.lastBlock < b'.firstBlock)
    (h : c.truncate blockNum = (c', none)) :
    c'.collection.Sublist c.collection ∧ ∀ b ∈ c'.collection, b.lastBlock < blockNum := by
  unfold truncate at h
  generalize hbelow : c.collection.takeWhile (·.firstBlock ≤ blockNum) = below at h
  dsimp only at h
  have hsub : below.Sublist c.collection := hbelow ▸ List.takeWhile_sublist _
  cases hlast : below.getLast? with
  | none =>
    rw [hlast] at h
    cases h
    simp
  | some b =>
    rw [hlast] at h
    dsimp only at h
    obtain ⟨ys, rfl⟩ := List.getLast?_eq_some_iff.mp hlast
    by_cases hlt : b.lastBlock < blockNum
    · rw [if_pos hlt] at h
      cases h
      refine ⟨hsub, fun b' hb' => ?_⟩
      have hfirst : b.firstBlock ≤ blockNum := by
        have := List.mem_takeWhile_imp (hbelow ▸ List.mem_append_right ys (List.mem_singleton_self b))
        simpa using this
      rcases List.mem_append.mp hb' with hb' | hb'
      · have hord' := (List.pairwise_append.mp (hord.sublist hsub)).2.2 b' hb' b
          (List.mem_singleton_self b)
        exact UInt32.lt_of_lt_of_le hord' hfirst
      · rw [List.mem_singleton.mp hb']
        exact hlt
    · rw [if_neg hlt] at h
      cases h

/-- The bundle `truncate` takes out holds the block, and the bundles it keeps end before it. -/
theorem truncate_some {c c' : LogCatalog} {blockNum : UInt32} {b : LogBundle}
    (hord : c.collection.Pairwise fun b b' => b.lastBlock < b'.firstBlock)
    (h : c.truncate blockNum = (c', some b)) :
    b ∈ c.collection ∧ b.firstBlock ≤ blockNum ∧ blockNum ≤ b.lastBlock ∧
      c'.collection.Sublist c.collection ∧ ∀ b' ∈ c'.collection, b'.lastBlock < b.firstBlock := by
  unfold truncate at h
  generalize hbelow : c.collection.takeWhile (·.firstBlock ≤ blockNum) = below at h
  dsimp only at h
  have hsub : below.Sublist c.collection := hbelow ▸ List.takeWhile_sublist _
  cases hlast : below.getLast? with
  | none =>
    rw [hlast] at h
    cases h
  | some b₀ =>
    rw [hlast] at h
    dsimp only at h
    obtain ⟨ys, rfl⟩ := List.getLast?_eq_some_iff.mp hlast
    by_cases hlt : b₀.lastBlock < blockNum
    · rw [if_pos hlt] at h
      cases h
    · rw [if_neg hlt] at h
      cases h
      have hfirst : b.firstBlock ≤ blockNum := by
        have := List.mem_takeWhile_imp (hbelow ▸ List.mem_append_right ys (List.mem_singleton_self b))
        simpa using this
      refine ⟨hsub.subset (List.mem_append_right ys (List.mem_singleton_self b)), hfirst,
        UInt32.not_lt.mp hlt, ?_, fun b' hb' => ?_⟩
      · rw [List.dropLast_concat]
        exact (List.sublist_append_left ys [b]).trans hsub
      · rw [List.dropLast_concat] at hb'
        exact (List.pairwise_append.mp (hord.sublist hsub)).2.2 b' hb' b (List.mem_singleton_self b)

/-- A sorted insertion after every key is an append. -/
theorem orderedInsert_eq_append {l : List LogBundle} {bundle : LogBundle}
    (h : ∀ b ∈ l, b.firstBlock < bundle.firstBlock) :
    l.orderedInsert (fun a b => a.firstBlock ≤ b.firstBlock) bundle = l ++ [bundle] := by
  induction l with
  | nil => rfl
  | cons b l ih =>
    have hb : ¬ bundle.firstBlock ≤ b.firstBlock :=
      UInt32.not_le.mpr (h b (List.mem_cons_self))
    rw [List.orderedInsert_cons, if_neg hb, ih fun b' hb' => h b' (List.mem_cons_of_mem b hb'),
      List.cons_append]

/-- `add` keeps the newest bundles, and puts a bundle after them all at the end. -/
theorem add_collection (c : LogCatalog) {bundle : LogBundle}
    (h : ∀ b ∈ c.collection, b.firstBlock < bundle.firstBlock) :
    ∃ n, (c.add bundle).collection = c.collection.drop n ++ [bundle] ∨
      (c.add bundle).collection = c.collection.drop n := by
  unfold add
  generalize hkept : (if c.maxRetainedFiles.toNat ≤ c.collection.length then
      c.collection.drop (if 0 < c.maxRetainedFiles then
        c.collection.length - c.maxRetainedFiles.toNat + 1 else c.collection.length)
    else c.collection) = kept
  obtain ⟨n, hn⟩ : ∃ n, kept = c.collection.drop n := by
    split at hkept
    · exact ⟨_, hkept.symm⟩
    · exact ⟨0, by rw [← hkept, List.drop_zero]⟩
  have hlt : ∀ b ∈ kept, b.firstBlock < bundle.firstBlock :=
    fun b hb => h b ((hn ▸ List.drop_sublist n c.collection).subset hb)
  have hnew : ¬ (kept.any fun b => b.firstBlock = bundle.firstBlock) = true := by
    simp only [List.any_eq_true, decide_eq_true_eq, not_exists, not_and]
    exact fun b hb heq => absurd (hlt b hb) (by rw [heq]; exact UInt32.lt_irrefl _)
  refine ⟨n, ?_⟩
  split
  · left
    simp only [emplace]
    rw [← hn, if_neg hnew, orderedInsert_eq_append hlt, hn]
  · right
    exact hn

/-- A bundle of at most `W` bytes after all the others, added to the catalog. -/
theorem Below.add {c : LogCatalog} {W : ℕ} {bound bound' : UInt32} (h : c.Below W bound)
    {bundle : LogBundle} (hholds : bundle.Holds) (hlog : bundle.log.length ≤ W)
    (hfirst : bound ≤ bundle.firstBlock) (hlast : bundle.lastBlock < bound')
    (hbound : bound ≤ bound') : (c.add bundle).Below W bound' := by
  have hlt : ∀ b ∈ c.collection, b.firstBlock < bundle.firstBlock := fun b hb =>
    UInt32.lt_of_le_of_lt (h.holds b hb).firstBlock_le
      (UInt32.lt_of_lt_of_le (h.lt_bound b hb) hfirst)
  obtain ⟨n, hadd | hadd⟩ := c.add_collection hlt
  · have hkept : (c.collection.drop n).Sublist c.collection := List.drop_sublist n c.collection
    refine ⟨fun b hb => ?_, fun b hb => ?_, fun b hb => ?_, ?_⟩
    · rw [hadd] at hb
      rcases List.mem_append.mp hb with hb | hb
      · exact h.holds b (hkept.subset hb)
      · rw [List.mem_singleton.mp hb]
        exact hholds
    · rw [hadd] at hb
      rcases List.mem_append.mp hb with hb | hb
      · exact h.log_le b (hkept.subset hb)
      · rw [List.mem_singleton.mp hb]
        exact hlog
    · rw [hadd] at hb
      rcases List.mem_append.mp hb with hb | hb
      · exact UInt32.lt_of_lt_of_le (h.lt_bound b (hkept.subset hb)) hbound
      · rw [List.mem_singleton.mp hb]
        exact hlast
    · rw [hadd, List.pairwise_append]
      refine ⟨h.ordered.sublist hkept, List.pairwise_singleton _ _, fun b hb b' hb' => ?_⟩
      rw [List.mem_singleton.mp hb']
      exact UInt32.lt_of_lt_of_le (h.lt_bound b (hkept.subset hb)) hfirst
  · exact (h.of_sublist (hadd ▸ List.drop_sublist n c.collection) fun b hb =>
      UInt32.lt_of_lt_of_le (h.lt_bound b ((hadd ▸ List.drop_sublist n c.collection).subset hb))
        hbound)

end LogCatalog

/-! ### The invariant of writing -/

theorem LogFiles.rebase {log : List UInt8} {index : List UInt64} {firstBlock : ℕ}
    (h : LogFiles log index firstBlock []) (firstBlock' : ℕ) : LogFiles log index firstBlock' [] :=
  ⟨h.log_eq, h.index_eq, h.magic_eq, rfl⟩

theorem LogCatalog.Below.weaken {c : LogCatalog} {W W' : ℕ} {x y : UInt32} (h : c.Below W x)
    (hW : W ≤ W') (hxy : x ≤ y) : c.Below W' y where
  holds := h.holds
  log_le b hb := Nat.le_trans (h.log_le b hb) hW
  lt_bound b hb := UInt32.lt_of_lt_of_le (h.lt_bound b hb) hxy
  ordered := h.ordered

/-- The log is empty exactly when `_begin_block = _end_block`. -/
theorem beginBlock_eq_endBlock_iff {b e : UInt32} {es : List LogEntry}
    (h : e.toNat = b.toNat + es.length) : b = e ↔ es = [] := by
  rw [← UInt32.toNat_inj, h, ← List.length_eq_zero_iff]
  omega

namespace StateHistoryLog

/-- What `write_entry` keeps: the log holds the entries of the blocks `_begin_block` to
`_end_block - 1`, at most `W` bytes of them, and the bundles of the catalog end before the
log. -/
structure Inv (s : StateHistoryLog) (W : ℕ) : Prop where
  active : ∃ es, LogFiles s.log s.index s.beginBlock.toNat es ∧
    s.endBlock.toNat = s.beginBlock.toNat + es.length
  log_le : s.log.length ≤ W
  catalog : s.catalog.Below W s.beginBlock

/-- The log once `write_entry_header` has checked and truncated it for block `blockNum`: it ends
just before the block, or it is empty and the block will begin it. -/
structure Ready (t : StateHistoryLog) (blockNum : UInt32) (W : ℕ) : Prop where
  active : ∃ es, LogFiles t.log t.index t.beginBlock.toNat es ∧
    t.endBlock.toNat = t.beginBlock.toNat + es.length ∧ (es = [] ∨ t.endBlock = blockNum)
  log_le : t.log.length ≤ W
  catalog : t.catalog.Below W (if t.beginBlock = t.endBlock then blockNum else t.beginBlock)

/-- Emptied files start at the block. -/
theorem cutBefore_ready_of_le (t : StateHistoryLog) {blockNum : UInt32} {W : ℕ}
    (hle : blockNum ≤ t.beginBlock) (hc : t.catalog.Below W blockNum) :
    (t.cutBefore blockNum).Ready blockNum W := by
  rw [cutBefore, if_pos hle]
  exact ⟨⟨[], LogFiles.nil _, by simp, .inl rfl⟩, Nat.zero_le _, by simpa using hc⟩

/-- Files cut at the block's position end just before it. -/
theorem cutBefore_ready_of_lt (t : StateHistoryLog) {blockNum : UInt32} {W : ℕ}
    {es : List LogEntry} (hlt : t.beginBlock < blockNum)
    (hf : LogFiles t.log t.index t.beginBlock.toNat es)
    (hk : blockNum.toNat < t.beginBlock.toNat + es.length) (hlog : t.log.length ≤ W)
    (hW : W < 2 ^ 64) (hc : t.catalog.Below W t.beginBlock) :
    (t.cutBefore blockNum).Ready blockNum W := by
  have hsub : (blockNum - t.beginBlock).toNat = blockNum.toNat - t.beginBlock.toNat :=
    UInt32.toNat_sub_of_le _ _ (UInt32.le_of_lt hlt)
  have hlt' := UInt32.lt_iff_toNat_lt.mp hlt
  have hkes : (blockNum - t.beginBlock).toNat < es.length := by omega
  have hne : t.beginBlock ≠ blockNum := UInt32.ne_of_lt hlt
  rw [cutBefore, if_neg (UInt32.not_le.mpr hlt)]
  refine ⟨⟨es.take (blockNum - t.beginBlock).toNat, hf.take (by omega) hkes, ?_, .inr rfl⟩, ?_, ?_⟩
  · dsimp only
    rw [List.length_take, Nat.min_eq_left hkes.le, hsub]
    omega
  · exact Nat.le_trans (List.take_sublist _ _).length_le hlog
  · simpa [hne] using hc

/-- `truncate` leaves the log ending just before the block, or empty from it. -/
theorem Inv.truncate {s : StateHistoryLog} {W : ℕ} (h : s.Inv W) (hW : W < 2 ^ 64)
    {blockNum : UInt32} (hbn : blockNum < s.endBlock) : (s.truncate blockNum).Ready blockNum W := by
  obtain ⟨es, hf, hend⟩ := h.active
  unfold StateHistoryLog.truncate
  rcases hct : s.catalog.truncate blockNum with ⟨c', restored⟩
  cases restored with
  | none =>
    obtain ⟨hsub, hlt⟩ := LogCatalog.truncate_none h.catalog.ordered hct
    simp only [restore]
    by_cases hle : blockNum ≤ s.beginBlock
    · exact cutBefore_ready_of_le _ hle (h.catalog.of_sublist hsub hlt)
    · have hk : blockNum.toNat < s.beginBlock.toNat + es.length := by
        have := UInt32.lt_iff_toNat_lt.mp hbn
        omega
      exact cutBefore_ready_of_lt _ (UInt32.not_le.mp hle) hf hk h.log_le hW
        (h.catalog.of_sublist hsub fun b hb => h.catalog.lt_bound b (hsub.subset hb))
  | some b =>
    obtain ⟨hb, hfirst, hlast, hsub, hlt⟩ := LogCatalog.truncate_some h.catalog.ordered hct
    obtain ⟨esb, -, hfb, hlenb⟩ := h.catalog.holds b hb
    have hbelow : ∀ b' ∈ c'.collection, b'.lastBlock < blockNum := fun b' hb' =>
      UInt32.lt_of_lt_of_le (hlt b' hb') hfirst
    by_cases hpos : 0 < b.firstBlock
    · simp only [restore, if_pos hpos]
      by_cases hle : blockNum ≤ b.firstBlock
      · exact cutBefore_ready_of_le _ hle (h.catalog.of_sublist hsub hbelow)
      · have hk : blockNum.toNat < b.firstBlock.toNat + esb.length := by
          have := UInt32.le_iff_toNat_le.mp hlast
          omega
        exact cutBefore_ready_of_lt _ (UInt32.not_le.mp hle) hfb hk
          (h.catalog.log_le b hb) hW (h.catalog.of_sublist hsub hlt)
    · -- a bundle of block 0 lies below the log, so the block is not after `_begin_block`
      simp only [restore, if_neg hpos]
      have hle : blockNum ≤ s.beginBlock :=
        UInt32.le_of_lt (UInt32.lt_of_le_of_lt hlast (h.catalog.lt_bound b hb))
      exact cutBefore_ready_of_le _ hle (h.catalog.of_sublist hsub hbelow)

/-- Without a fork the log already ends just before the block, or is empty. -/
theorem Inv.ready {s : StateHistoryLog} {W : ℕ} (h : s.Inv W) {blockNum : UInt32}
    (hcond : s.beginBlock = s.endBlock ∨ blockNum ≤ s.endBlock) (hnot : ¬ blockNum < s.endBlock) :
    s.Ready blockNum W := by
  obtain ⟨es, hf, hend⟩ := h.active
  have hge : s.endBlock ≤ blockNum := UInt32.not_lt.mp hnot
  refine ⟨⟨es, hf, hend, ?_⟩, h.log_le, ?_⟩
  · rcases hcond with heq | hle
    · exact .inl ((beginBlock_eq_endBlock_iff hend).mp heq)
    · exact .inr (UInt32.le_antisymm hge hle)
  · split
    · rename_i heq
      exact h.catalog.mono (heq ▸ hge)
    · exact h.catalog

/-- `write_entry_header` leaves the log ready for the block, with the header written after it. -/
theorem Inv.writeEntryHeader {s : StateHistoryLog} {W : ℕ} (h : s.Inv W) (hW : W < 2 ^ 64)
    {header : StateHistoryLogHeader} {prevId : BlockId} {s₁ : StateHistoryLog} {blockNum : UInt32}
    {pos : ℕ} (hw : s.writeEntryHeader header prevId = .ok (s₁, blockNum, pos)) :
    ∃ t : StateHistoryLog, t.Ready blockNum W ∧ s₁ = { t with log := t.log ++ header.pack } ∧
      blockNum = numFromId header.blockId ∧ pos = t.log.length := by
  unfold StateHistoryLog.writeEntryHeader at hw
  dsimp only at hw
  split at hw
  · rename_i hcond
    obtain ⟨-, -, hw⟩ := Fallible.map_eq_ok.mp hw
    simp only [Prod.mk.injEq] at hw
    obtain ⟨rfl, rfl, rfl⟩ := hw
    refine ⟨if numFromId header.blockId < s.endBlock then s.truncate (numFromId header.blockId)
      else s, ?_, rfl, rfl, rfl⟩
    by_cases hlt : numFromId header.blockId < s.endBlock
    · rw [if_pos hlt]
      exact h.truncate hW hlt
    · rw [if_neg hlt]
      exact h.ready hcond hlt
  · cases hw


/-- `split_log` moves a log that holds a block into the catalog. -/
theorem Inv.splitLog {u : StateHistoryLog} {W : ℕ} (h : u.Inv W) (hne : u.beginBlock ≠ u.endBlock) :
    u.splitLog.Inv W := by
  obtain ⟨es, hf, hend⟩ := h.active
  have hes : es ≠ [] := fun h' => hne ((beginBlock_eq_endBlock_iff hend).mpr h')
  have hlen : 0 < es.length := List.length_pos_of_ne_nil hes
  have hone : (1 : UInt32) ≤ u.endBlock := UInt32.le_iff_toNat_le.mpr (by simp; omega)
  have hlast : (u.endBlock - 1).toNat = u.endBlock.toNat - 1 := UInt32.toNat_sub_of_le _ _ hone
  have hholds : LogBundle.Holds ⟨u.beginBlock, u.endBlock - 1, u.log, u.index⟩ :=
    ⟨es, hes, hf, by dsimp only; omega⟩
  simp only [StateHistoryLog.splitLog]
  refine ⟨⟨[], LogFiles.nil _, by simp⟩, Nat.zero_le _, ?_⟩
  exact h.catalog.add hholds h.log_le (UInt32.le_refl _)
    (UInt32.lt_iff_toNat_lt.mpr (by dsimp only; omega))
    (show u.beginBlock ≤ u.endBlock from UInt32.le_iff_toNat_le.mpr (by omega))

/-- The end of `write_entry_position`: a log that holds a block stays right whether or not it is
split. -/
theorem Inv.splitIf {u : StateHistoryLog} {W : ℕ} (h : u.Inv W) (hne : u.beginBlock ≠ u.endBlock)
    (split : Prop) [Decidable split] : (if split then u.splitLog else u).Inv W := by
  split
  · exact h.splitLog hne
  · exact h

theorem toListLE_toUInt64 (n : ℕ) : toListLE 8 n.toUInt64.toNat = toListLE 8 n := by
  rw [Nat.toUInt64_eq, UInt64.toNat_ofNat', show (2 : ℕ) ^ 64 = 256 ^ 8 from rfl, toListLE_mod]

/-- The suffix written after the payload and the back-patched size make the entry's bytes. -/
theorem writeAt_entry (log payload : List UInt8) (magic : UInt64) (id : BlockId) :
    writeAt (log ++ (⟨magic, id, 0⟩ : StateHistoryLogHeader).pack ++ payload ++
          toListLE 8 log.length)
        (log.length + stateHistoryLogHeaderSerialSize - 8)
        (toListLE 8 ((log ++ (⟨magic, id, 0⟩ : StateHistoryLogHeader).pack ++ payload).length -
          (log.length + stateHistoryLogHeaderSerialSize))) =
      log ++ (⟨magic, id, payload⟩ : LogEntry).bytes log.length := by
  have hsize : (log ++ (⟨magic, id, 0⟩ : StateHistoryLogHeader).pack ++ payload).length -
      (log.length + stateHistoryLogHeaderSerialSize) = payload.length := by
    simp only [List.length_append, length_pack]
    omega
  have hpos : log.length + stateHistoryLogHeaderSerialSize - 8 =
      (log ++ toListLE 8 magic.toNat ++ id.bytes).length := by
    simp [id.length_bytes, stateHistoryLogHeaderSerialSize]
  have hsplit : log ++ (⟨magic, id, 0⟩ : StateHistoryLogHeader).pack ++ payload ++
      toListLE 8 log.length = (log ++ toListLE 8 magic.toNat ++ id.bytes) ++
        toListLE 8 (0 : UInt64).toNat ++ (payload ++ toListLE 8 log.length) := by
    simp [StateHistoryLogHeader.pack]
  rw [hsize, hpos, hsplit, writeAt_append _ _ _ _ (by simp)]
  simp only [LogEntry.bytes, LogEntry.header, StateHistoryLogHeader.pack, toListLE_toUInt64,
    List.append_assoc]

/-- **One entry.** Writing the header, the payload and the position of a block for which the log
is ready keeps the invariant, `W` growing by the entry's size. -/
theorem Ready.writeEntryPosition {t : StateHistoryLog} {blockNum : UInt32} {W : ℕ}
    (h : t.Ready blockNum W) {id : BlockId} (hid : numFromId id = blockNum)
    (hnum : blockNum.toNat + 1 < 2 ^ 32) (payload : List UInt8) :
    ({ t with log := t.log ++ (⟨shipMagic shipCurrentVersion, id, 0⟩ : StateHistoryLogHeader).pack ++
        payload } : StateHistoryLog).writeEntryPosition ⟨shipMagic shipCurrentVersion, id, 0⟩
      t.log.length blockNum |>.Inv (W + (payload.length + 56)) := by
  obtain ⟨es, hf, hend, hlast⟩ := h.active
  have hempty := beginBlock_eq_endBlock_iff hend
  -- the block begins the log when it is empty, and otherwise follows its last entry
  have hfiles : LogFiles t.log t.index
      (if t.beginBlock = t.endBlock then blockNum else t.beginBlock).toNat es := by
    split
    · rename_i heq
      obtain rfl := hempty.mp heq
      exact hf.rebase _
    · exact hf
  have hnumE : (numFromId id).toNat =
      (if t.beginBlock = t.endBlock then blockNum else t.beginBlock).toNat + es.length := by
    split
    · rename_i heq
      simp [hid, hempty.mp heq]
    · rename_i hne
      rcases hlast with hes | heq
      · exact absurd (hempty.mpr hes) hne
      · rw [hid, ← heq, hend]
  have hle : (if t.beginBlock = t.endBlock then blockNum else t.beginBlock).toNat ≤
      blockNum.toNat := by
    split
    · exact Nat.le_refl _
    · rename_i hne
      rcases hlast with hes | heq
      · exact absurd (hempty.mpr hes) hne
      · rw [← heq, hend]
        omega
  have hend' : (blockNum + 1).toNat = blockNum.toNat + 1 := by
    rw [UInt32.toNat_add]
    simp only [UInt32.toNat_one]
    omega
  unfold StateHistoryLog.writeEntryPosition
  dsimp only
  rw [writeAt_entry]
  apply Inv.splitIf _ ?_ _
  · refine ⟨⟨es ++ [⟨shipMagic shipCurrentVersion, id, payload⟩], ?_, ?_⟩, ?_, ?_⟩
    · rw [hf.length_log, ← length_encodeEntries 0, ← hf.log_eq]
      exact hfiles.append _ rfl hnumE
    · dsimp only
      rw [hend', List.length_append, List.length_singleton, ← Nat.add_assoc, ← hnumE, hid]
    · simp only [List.length_append, LogEntry.length_bytes, LogEntry.size]
      simp only [stateHistoryLogHeaderSerialSize]
      have := h.log_le
      omega
    · exact h.catalog.weaken (by omega) (UInt32.le_refl _)
  · intro heq
    dsimp only at heq
    have := congrArg UInt32.toNat heq
    rw [hend'] at this
    omega


/-- **The run rule.** A run of `write_entry` calls keeps the invariant while no block number
reaches `2^32 - 1` and the log stays below `2^64` bytes, `W` growing by each entry's size. -/
theorem Inv.writeEntry {s : StateHistoryLog} {W : ℕ} (h : s.Inv W) (hW : W < 2 ^ 64)
    {id prevId : BlockId} {payload : List UInt8} {s' : StateHistoryLog}
    (hnum : (numFromId id).toNat + 1 < 2 ^ 32) (hw : s.writeEntry id prevId payload = .ok s') :
    s'.Inv (W + (payload.length + 56)) := by
  unfold StateHistoryLog.writeEntry at hw
  obtain ⟨⟨s₁, blockNum, pos⟩, h₁, rfl⟩ := Fallible.map_eq_ok.mp hw
  obtain ⟨t, hready, rfl, rfl, rfl⟩ := h.writeEntryHeader hW h₁
  exact hready.writeEntryPosition rfl hnum payload

theorem Inv.run {s : StateHistoryLog} {W : ℕ} (h : s.Inv W) {writes : List LogWrite}
    {s' : StateHistoryLog} (hnum : ∀ w ∈ writes, (numFromId w.id).toNat + 1 < 2 ^ 32)
    (hW : W + (writes.map fun w => w.payload.length + 56).sum < 2 ^ 64)
    (hrun : s.run writes = .ok s') :
    s'.Inv (W + (writes.map fun w => w.payload.length + 56).sum) := by
  induction writes generalizing s W with
  | nil =>
    cases hrun
    simpa using h
  | cons w ws ih =>
    unfold StateHistoryLog.run at hrun
    rw [List.foldlM_cons] at hrun
    obtain ⟨s₁, h₁, hrest⟩ := Fallible.bind_eq_ok.mp hrun
    simp only [List.map_cons, List.sum_cons] at hW ⊢
    -- one entry, then the rest of the run from the state it leaves
    have hinv₁ := h.writeEntry (by omega) (hnum w List.mem_cons_self) h₁
    have hrest' := ih hinv₁ (fun w' hw' => hnum w' (List.mem_cons_of_mem w hw')) (by omega) hrest
    rwa [Nat.add_assoc] at hrest'

theorem inv_empty (stride maxRetainedFiles : UInt32) :
    (StateHistoryLog.empty stride maxRetainedFiles).Inv 0 :=
  ⟨⟨[], LogFiles.nil _, rfl⟩, Nat.le_refl _, LogCatalog.below_nil _ rfl _ _⟩

end StateHistoryLog

end Eosio
