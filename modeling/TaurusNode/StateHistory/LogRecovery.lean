import Mathlib
import TaurusNode.StateHistory.LogEntries

/-!
# Recovering the state history log

`recover_blocks` scans a damaged log from its start. The prefixes it can keep are those made of
well formed entries one after another (`EntryChain`): at each position the header has the ship
magic of a supported version, the entry fits in the file, and its suffix is its position. These
prefixes form a chain, each the next one's prefix up to a whole entry
(`EntryChain.entryAt_of_lt`), so there is a longest one.

* `recoverLoop_eq_ok`: when the scan returns, it returns the end of the longest well formed
  prefix; the scan always ends, its measure being the bytes left.
* `recoverLoop_eq_error`: the scan throws only where that prefix is followed by a header with the
  ship magic and an unsupported version, and then it cuts nothing.
* `LogFiles.recoverBlocks`: a log as `write_entry` writes it is kept whole.
-/

namespace Eosio

open Bytes

/-! ### Well formed prefixes -/

/-- Where the entry at `pos` ends, by the payload size of its header. -/
def entryEnd (log : List UInt8) (pos : ℕ) : ℕ :=
  pos + stateHistoryLogHeaderSerialSize +
    (StateHistoryLogHeader.unpack (log.drop pos)).payloadSize.toNat + 8

/-- A well formed entry at `pos`: its header has the ship magic of a supported version, the
entry fits in the file, and its suffix is `pos`. -/
def EntryAt (log : List UInt8) (pos : ℕ) : Prop :=
  isShip (StateHistoryLogHeader.unpack (log.drop pos)).magic = true ∧
    isShipSupportedVersion (StateHistoryLogHeader.unpack (log.drop pos)).magic = true ∧
    entryEnd log pos ≤ log.length ∧
    ofListLE (readAt log (pos + stateHistoryLogHeaderSerialSize +
      (StateHistoryLogHeader.unpack (log.drop pos)).payloadSize.toNat) 8) = pos

/-- The first `pos` bytes of the log are well formed entries, one after another. -/
inductive EntryChain (log : List UInt8) : ℕ → Prop
  | zero : EntryChain log 0
  | next {pos : ℕ} : EntryChain log pos → EntryAt log pos → EntryChain log (entryEnd log pos)

theorem lt_entryEnd (log : List UInt8) (pos : ℕ) : pos + stateHistoryLogHeaderSerialSize < entryEnd log pos := by
  unfold entryEnd
  omega

theorem EntryChain.le_length {log : List UInt8} {n : ℕ} (h : EntryChain log n) : n ≤ log.length := by
  cases h with
  | zero => exact Nat.zero_le _
  | next _ hat => exact hat.2.2.1

/-- Two well formed prefixes: the shorter one is followed by a whole entry of the longer. -/
theorem EntryChain.entryAt_of_lt {log : List UInt8} :
    ∀ {q p : ℕ}, EntryChain log q → EntryChain log p → p < q → EntryAt log p ∧ entryEnd log p ≤ q := by
  intro q
  induction q using Nat.strong_induction_on with
  | _ q ih =>
    intro p hq hp hpq
    cases hq with
    | zero => omega
    | @next q' hq' hat =>
      have hq'lt := lt_entryEnd log q'
      rcases Nat.lt_trichotomy p q' with hlt | rfl | hgt
      · obtain ⟨hp', hle⟩ := ih q' (by omega) hq' hp hlt
        exact ⟨hp', by omega⟩
      · exact ⟨hat, Nat.le_refl _⟩
      · -- a prefix cannot end inside the entry at `q'`
        obtain ⟨-, hle⟩ := ih p hpq hp hq' hgt
        omega


/-- At a position where no well formed entry starts, no longer prefix is well formed. -/
theorem EntryChain.le_of_not_entryAt {log : List UInt8} {pos : ℕ} (hpos : EntryChain log pos)
    (hnot : ¬ EntryAt log pos) : ∀ m, EntryChain log m → pos ≤ m → m ≤ pos := by
  intro m hm hle
  by_contra hlt
  exact hnot (hm.entryAt_of_lt hpos (by omega)).1

/-- The entry the scan moves past, from the checks it passed. -/
theorem entryAt_of_checks {log : List UInt8} {pos : ℕ}
    (hentry : ¬(!isShip (StateHistoryLogHeader.unpack (log.drop pos)).magic ||
      !isShipSupportedVersion (StateHistoryLogHeader.unpack (log.drop pos)).magic ||
      decide (log.length < (StateHistoryLogHeader.unpack (log.drop pos)).payloadSize.toNat) ||
      decide (log.length < pos + stateHistoryLogHeaderSerialSize +
        (StateHistoryLogHeader.unpack (log.drop pos)).payloadSize.toNat + 8)) = true)
    (hsuffix : ofListLE (readAt log (pos + stateHistoryLogHeaderSerialSize +
      (StateHistoryLogHeader.unpack (log.drop pos)).payloadSize.toNat) 8) = pos) :
    EntryAt log pos := by
  simp only [Bool.or_eq_true, Bool.not_eq_true', decide_eq_true_eq, not_or,
    Bool.not_eq_false] at hentry
  obtain ⟨⟨⟨hship, hsupp⟩, -⟩, hend⟩ := hentry
  exact ⟨hship, hsupp, Nat.not_lt.mp hend, hsuffix⟩

/-- **The scan returns the longest well formed prefix.** From the end of a well formed prefix, a
scan that returns stops at the end of the longest one. -/
theorem recoverLoop_eq_ok {log : List UInt8} {pos n : ℕ} (hpos : EntryChain log pos)
    (h : recoverLoop log pos = .ok n) :
    EntryChain log n ∧ ∀ m, EntryChain log m → pos ≤ m → m ≤ n := by
  fun_induction recoverLoop log pos with
  | case1 pos hsize =>
    -- no header fits
    obtain rfl : pos = n := Except.ok.inj h
    refine ⟨hpos, hpos.le_of_not_entryAt fun hat => ?_⟩
    have := lt_entryEnd log pos
    have := hat.2.2.1
    omega
  | case2 => cases h
  | case3 pos hsize header hentry hunsupported =>
    -- a bad header, or an entry past the end of the file
    obtain rfl : pos = n := Except.ok.inj h
    refine ⟨hpos, hpos.le_of_not_entryAt fun hat => ?_⟩
    obtain ⟨hship, hsupp, hend, -⟩ := hat
    unfold entryEnd at hend
    simp only [header, hship, hsupp, Bool.not_true, Bool.false_or, Bool.or_eq_true,
      decide_eq_true_eq] at hentry
    omega
  | case4 pos hsize header hentry suffix hsuffix =>
    -- a suffix that is not the entry's position
    obtain rfl : pos = n := Except.ok.inj h
    exact ⟨hpos, hpos.le_of_not_entryAt fun hat => hsuffix hat.2.2.2⟩
  | case5 pos hsize header hentry suffix hsuffix ih =>
    have hat : EntryAt log pos := entryAt_of_checks hentry (not_not.mp hsuffix)
    obtain ⟨hn, hmax⟩ := ih (hpos.next hat) h
    refine ⟨hn, fun m hm hle => ?_⟩
    rcases Nat.eq_or_lt_of_le hle with heq | hlt
    · subst heq
      have := hmax _ (hpos.next hat) (Nat.le_refl _)
      have := lt_entryEnd log pos
      omega
    · exact hmax m hm (hm.entryAt_of_lt hpos hlt).2

/-- **The scan throws only on an unsupported version.** It throws where the longest well formed
prefix is followed by a header with the ship magic and a version above 1. -/
theorem recoverLoop_eq_error {log : List UInt8} {pos : ℕ} {e : StateHistoryError}
    (hpos : EntryChain log pos) (h : recoverLoop log pos = .error e) :
    e = .unsupportedVersion ∧ ∃ n, EntryChain log n ∧ (∀ m, EntryChain log m → pos ≤ m → m ≤ n) ∧
      n + stateHistoryLogHeaderSerialSize ≤ log.length ∧
      isShip (StateHistoryLogHeader.unpack (log.drop n)).magic = true ∧
      isShipSupportedVersion (StateHistoryLogHeader.unpack (log.drop n)).magic = false := by
  fun_induction recoverLoop log pos with
  | case1 => cases h
  | case2 pos hsize header hentry hunsupported =>
    cases h
    simp only [Bool.and_eq_true, Bool.not_eq_true'] at hunsupported
    refine ⟨rfl, pos, hpos, hpos.le_of_not_entryAt fun hat => ?_, by omega, hunsupported⟩
    rw [hat.2.1] at hunsupported
    exact Bool.noConfusion hunsupported.2
  | case3 => cases h
  | case4 => cases h
  | case5 pos hsize header hentry suffix hsuffix ih =>
    have hat : EntryAt log pos := entryAt_of_checks hentry (not_not.mp hsuffix)
    obtain ⟨he, n, hn, hmax, hrest⟩ := ih (hpos.next hat) h
    refine ⟨he, n, hn, fun m hm hle => ?_, hrest⟩
    rcases Nat.eq_or_lt_of_le hle with heq | hlt
    · subst heq
      have := hmax _ (hpos.next hat) (Nat.le_refl _)
      have := lt_entryEnd log pos
      omega
    · exact hmax m hm (hm.entryAt_of_lt hpos hlt).2

/-! ### Logs as they are written -/

theorem unpack_append {a : List UInt8} (more : List UInt8)
    (h : stateHistoryLogHeaderSerialSize ≤ a.length) :
    StateHistoryLogHeader.unpack (a ++ more) = StateHistoryLogHeader.unpack a := by
  unfold stateHistoryLogHeaderSerialSize at h
  simp only [StateHistoryLogHeader.unpack, readAt_append_left (show 0 + 8 ≤ a.length by omega),
    readAt_append_left (show 8 + 32 ≤ a.length by omega),
    readAt_append_left (show 40 + 8 ≤ a.length by omega)]

/-- A well formed entry stays so when bytes are written after the file's end. -/
theorem EntryAt.append {log : List UInt8} {pos : ℕ} (h : EntryAt log pos) (more : List UInt8) :
    EntryAt (log ++ more) pos ∧ entryEnd (log ++ more) pos = entryEnd log pos := by
  obtain ⟨hship, hsupp, hend, hsuffix⟩ := h
  have hlt := lt_entryEnd log pos
  have hheader : StateHistoryLogHeader.unpack ((log ++ more).drop pos) =
      StateHistoryLogHeader.unpack (log.drop pos) := by
    rw [List.drop_append_of_le_length (by omega), unpack_append _ (by simp; omega)]
  have hend' : entryEnd (log ++ more) pos = entryEnd log pos := by
    unfold entryEnd
    rw [hheader]
  refine ⟨⟨?_, ?_, ?_, ?_⟩, hend'⟩
  · rw [hheader]
    exact hship
  · rw [hheader]
    exact hsupp
  · rw [hend', List.length_append]
    omega
  · unfold entryEnd at hend
    rw [hheader, readAt_append_left (by omega)]
    exact hsuffix

theorem EntryChain.append {log : List UInt8} {n : ℕ} (h : EntryChain log n) (more : List UInt8) :
    EntryChain (log ++ more) n := by
  induction h with
  | zero => exact .zero
  | @next pos _ hat ih =>
    obtain ⟨hat', hend⟩ := hat.append more
    rw [← hend]
    exact ih.next hat'

theorem isShip_shipMagic : isShip (shipMagic shipCurrentVersion) = true := by
  decide

theorem isShipSupportedVersion_shipMagic :
    isShipSupportedVersion (shipMagic shipCurrentVersion) = true := by
  decide

/-- The entry `write_entry` appends is well formed, while the log stays below `2^64` bytes. -/
theorem entryAt_bytes (log : List UInt8) (e : LogEntry)
    (hmagic : e.magic = shipMagic shipCurrentVersion) (hsize : log.length + e.size < 2 ^ 64) :
    EntryAt (log ++ e.bytes log.length) log.length ∧
      entryEnd (log ++ e.bytes log.length) log.length = log.length + e.size := by
  have hdrop : (log ++ e.bytes log.length).drop log.length =
      e.header.pack ++ (e.payload ++ toListLE 8 log.length) := by
    rw [List.drop_left, LogEntry.bytes, List.append_assoc]
  have hsizeField : e.header.payloadSize.toNat = e.payload.length := by
    unfold LogEntry.size at hsize
    rw [LogEntry.header, Nat.toUInt64_eq, UInt64.toNat_ofNat', Nat.mod_eq_of_lt (by omega)]
  have hend : entryEnd (log ++ e.bytes log.length) log.length = log.length + e.size := by
    rw [entryEnd, hdrop, unpack_pack_append, hsizeField, LogEntry.size]
    omega
  refine ⟨⟨?_, ?_, ?_, ?_⟩, hend⟩
  · rw [hdrop, unpack_pack_append, LogEntry.header, hmagic]
    exact isShip_shipMagic
  · rw [hdrop, unpack_pack_append, LogEntry.header, hmagic]
    exact isShipSupportedVersion_shipMagic
  · rw [hend, List.length_append, LogEntry.length_bytes]
  · rw [hdrop, unpack_pack_append, hsizeField]
    have hpre : (log ++ e.header.pack ++ e.payload).length =
        log.length + stateHistoryLogHeaderSerialSize + e.payload.length := by
      simp [Nat.add_assoc]
    have hpos : log.length < 256 ^ 8 := by
      unfold LogEntry.size at hsize
      exact Nat.lt_of_le_of_lt (Nat.le_add_right _ _) hsize
    rw [← hpre, LogEntry.bytes, ← List.append_assoc, ← List.append_assoc, readAt_append_length,
      readAt_of_length_eq (length_toListLE 8 _), ofListLE_toListLE_of_lt hpos]

theorem entryChain_encodeEntries (es : List LogEntry)
    (hmagic : ∀ e ∈ es, e.magic = shipMagic shipCurrentVersion)
    (hsize : (encodeEntries 0 es).length < 2 ^ 64) :
    EntryChain (encodeEntries 0 es) (encodeEntries 0 es).length := by
  induction es using List.reverseRecOn with
  | nil => exact .zero
  | append_singleton es e ih =>
    have happ : encodeEntries 0 (es ++ [e]) =
        encodeEntries 0 es ++ e.bytes (encodeEntries 0 es).length := by
      rw [encodeEntries_append, Nat.zero_add, length_encodeEntries]
      simp [encodeEntries]
    rw [happ] at hsize ⊢
    rw [List.length_append, LogEntry.length_bytes] at hsize
    obtain ⟨hat, hend⟩ := entryAt_bytes _ e (hmagic e (by simp)) hsize
    have hprefix := (ih (fun e' he' => hmagic e' (List.mem_append_left _ he')) (by omega)).append
      (e.bytes (encodeEntries 0 es).length)
    have hnext := hprefix.next hat
    rwa [hend, ← LogEntry.length_bytes e (encodeEntries 0 es).length, ← List.length_append] at hnext

/-- A log as `write_entry` writes it is kept whole by `recover_blocks`. -/
theorem LogFiles.recoverBlocks {log : List UInt8} {index : List UInt64} {firstBlock : ℕ}
    {es : List LogEntry} (h : LogFiles log index firstBlock es) (hlog : log.length < 2 ^ 64) :
    recoverBlocks log = .ok log := by
  have hchain : EntryChain log log.length := by
    rw [h.log_eq] at hlog ⊢
    exact entryChain_encodeEntries es h.magic_eq hlog
  unfold Eosio.recoverBlocks
  rcases hr : recoverLoop log 0 with e | n
  · obtain ⟨-, n, -, hmax, hfit, -⟩ := recoverLoop_eq_error .zero hr
    have := hmax _ hchain (Nat.zero_le _)
    unfold stateHistoryLogHeaderSerialSize at hfit
    omega
  · obtain ⟨hn, hmax⟩ := recoverLoop_eq_ok .zero hr
    have hle := hn.le_length
    have hge := hmax _ hchain (Nat.zero_le _)
    show Except.ok (log.take n) = .ok log
    rw [List.take_of_length_le (by omega)]


/-! ### Writing and recovering -/

/-- The id of block `n`, its other bytes being `tag`. -/
def blockIdOf (n : ℕ) (tag : UInt8) : BlockId :=
  ⟨(toListLE 4 n).reverse ++ List.replicate 28 tag, by simp⟩

/-- Blocks 1 to 3 with a split every two blocks, then a fork at block 3 and one at block 2, the
second reaching back into the catalog. -/
def forkWrites : List LogWrite :=
  [⟨blockIdOf 1 1, zeroBlockId, [7]⟩, ⟨blockIdOf 2 2, blockIdOf 1 1, [8, 9]⟩,
    ⟨blockIdOf 3 3, blockIdOf 2 2, []⟩, ⟨blockIdOf 3 4, blockIdOf 2 2, [5]⟩,
    ⟨blockIdOf 2 5, blockIdOf 1 1, [6]⟩]

/-- The log `forkWrites` leaves. -/
def forkLog : StateHistoryLog :=
  ((StateHistoryLog.empty 2 10).run forkWrites).toOption.getD (StateHistoryLog.empty 2 10)

/-- A log whose only header has the ship magic of version 2. -/
def unsupportedVersionLog : List UInt8 :=
  (⟨shipMagic 2, zeroBlockId, 0⟩ : StateHistoryLogHeader).pack ++ toListLE 8 0

end Eosio
