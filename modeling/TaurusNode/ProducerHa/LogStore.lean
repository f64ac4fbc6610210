import Mathlib
import TaurusNode.Lib.Bytes
import TaurusNode.Lib.Fallible

/-!
# The Raft log store of the producer HA plugin

A model of `nodeos_state_log_store` (plugins/producer_ha_plugin/nodeos_state_log_store.cpp), the
`nuraft::log_store` kept in the `log` column of `nodeos_state_db`. Entry `0` is a placeholder that
holds `log_init_`; the live entries are those of `[start_idx_, last_idx_]`, and both bounds are
also written under the keys `start_idx` and `last_idx`.

* `Contiguous`: the db holds entry `0` and exactly the entries of `[start_idx_, last_idx_]`,
  `1 ≤ start_idx_ ≤ last_idx_ + 1`, the two keys hold the two bounds and entry `0` is `log_init_`.
  Under it `log_entries(s, e)` returns the entries `s .. e - 1` (`Contiguous.logEntries_eq`) and a
  store constructed over the db is the same store (`Contiguous.create_db`).
* Each call keeps `Contiguous` under NuRaft's contract (`LogStoreCall.contiguous_exec`), so every
  run of calls from an empty db does (`contiguous_runCalls`), when `apply_pack` starts at or above
  `start_index()`.
* `pack` and `apply_pack` round trip: `apply_pack(i, pack(i, c))` writes the packed entries at
  `i .. i + c - 1` of a second store and leaves its other entries and its start alone
  (`Contiguous.applyPack_pack`).
* `apply_pack` below `start_index()`, which the bound `i ≤ next_slot()` alone allows, leaves an entry
  outside the live range (`applyPack_below_start`).

Modelled as: the `uint64_t` indices are naturals that do not wrap; a key is its index
(`index_to_key` and `key_to_index` are inverse on indices); an entry is its serialized bytes. A
`nuraft::buffer` is a list of bytes read from a cursor, its `int32` fields four bytes little-endian
in two's complement (NuRaft's `buffer`, outside this repository). The mutex and `flush` are not
modelled, nor is `term_at`, which reads the term out of a deserialized entry.
-/

namespace Eosio

open Fallible Bytes

/-! ### Buffers -/

/-- What reading a pack throws: a read past the end of the buffer, or the allocation of a
negative size. -/
inductive PackError
  | overflow
  | badAlloc
deriving DecidableEq, Repr

/-- `buffer::put(int32)`: the value's two's-complement word, four bytes little-endian. -/
def putInt (v : ℤ) : List UInt8 := toListLE 4 (v % 2 ^ 32).toNat

/-- The signed value of a 32-bit word. -/
def int32Of (n : ℕ) : ℤ := if n < 2 ^ 31 then n else (n : ℤ) - 2 ^ 32

/-- `buffer::get_int()` at the cursor: the value, and the bytes after it. -/
def getInt (buf : List UInt8) : Except PackError (ℤ × List UInt8) :=
  if buf.length < 4 then .error .overflow
  else .ok (int32Of (ofListLE (buf.take 4)), buf.drop 4)

/-- `buffer::alloc(size)` then `buffer::get(buf)`: `size` bytes from the cursor. -/
def getBuf (size : ℤ) (buf : List UInt8) : Except PackError (List UInt8 × List UInt8) :=
  if size < 0 then .error .badAlloc
  else if buf.length < size.toNat then .error .overflow
  else .ok (buf.take size.toNat, buf.drop size.toNat)

/-- The buffer `pack` fills: the count, then each entry's size and bytes. -/
def packEntries (cnt : ℤ) (entries : List (List UInt8)) : List UInt8 :=
  putInt cnt ++ (entries.map fun entry => putInt entry.length ++ entry).flatten

/-- `get_int` reads back what `put(int32)` wrote, for a value an `int32` holds. -/
theorem getInt_putInt {v : ℤ} (h1 : -2 ^ 31 ≤ v) (h2 : v < 2 ^ 31) (rest : List UInt8) :
    getInt (putInt v ++ rest) = .ok (v, rest) := by
  have hlen : (putInt v).length = 4 := length_toListLE 4 _
  have hword : ofListLE (putInt v) = (v % 2 ^ 32).toNat := ofListLE_toListLE_of_lt (by omega)
  unfold getInt
  rw [if_neg (by simp only [List.length_append, hlen]; omega), List.take_left' hlen,
    List.drop_left' hlen, hword]
  -- the word of a negative value is above `2^31`
  have hval : int32Of (v % 2 ^ 32).toNat = v := by
    unfold int32Of
    split <;> omega
  rw [hval]

/-- `get(buf)` after `alloc` of an entry's size reads the entry back. -/
theorem getBuf_append (entry rest : List UInt8) :
    getBuf entry.length (entry ++ rest) = .ok (entry, rest) := by
  unfold getBuf
  rw [if_neg (by omega), Int.toNat_natCast, if_neg (by simp),
    List.take_left' rfl, List.drop_left' rfl]

/-! ### The store -/

/-- The `log` column of `nodeos_state_db`: the serialized entries under their index keys, and
the values under `start_idx` and `last_idx`. -/
structure StateDb where
  entries : ℕ → Option (List UInt8)
  startIdx : Option ℕ
  lastIdx : Option ℕ

namespace StateDb

/-- A db with no log. -/
def empty : StateDb := ⟨fun _ => none, none, none⟩

/-- `db_->write(log, index_to_key(index), buf)`. -/
def write (db : StateDb) (index : ℕ) (buf : List UInt8) : StateDb :=
  { db with entries := Function.update db.entries index (some buf) }

/-- `db_->erase(log, index_to_key(index))`. -/
def erase (db : StateDb) (index : ℕ) : StateDb :=
  { db with entries := Function.update db.entries index none }

end StateDb

/-- The fields of `nodeos_state_log_store`. -/
structure NodeosStateLogStore where
  db : StateDb
  logInit : List UInt8
  startIdx : ℕ
  lastIdx : ℕ

namespace NodeosStateLogStore

/-- The constructor. A db with no placeholder gets one, `initEntry` (the serialized
`log_entry(0, get_init_block())`), and the bounds `1` and `0`; otherwise `log_init_` and the
bounds are read back. `none` where the db lacks a bound, which the code dereferences. -/
def create (db : StateDb) (initEntry : List UInt8) : Option NodeosStateLogStore :=
  match db.entries 0 with
  | none =>
    some ⟨{ db.write 0 initEntry with startIdx := some 1, lastIdx := some 0 }, initEntry, 1, 0⟩
  | some logInit => do
    let startIdx ← db.startIdx
    let lastIdx ← db.lastIdx
    pure ⟨db, logInit, startIdx, lastIdx⟩

variable (s : NodeosStateLogStore)

/-- `next_slot()`. -/
def nextSlot : ℕ := s.lastIdx + 1

/-- `entry_at_(index)`: `none` is `nullptr`. -/
def entryAt (index : ℕ) : Option (List UInt8) := s.db.entries index

/-- `last_entry()`: `log_init_` when the last entry is missing. -/
def lastEntry : List UInt8 := (s.entryAt s.lastIdx).getD s.logInit

/-- `append(entry)`: the entry goes at the next slot, whose index is returned. -/
def append (entry : List UInt8) : NodeosStateLogStore × ℕ :=
  let lastIdx := s.lastIdx + 1
  ({ s with db := { s.db.write lastIdx entry with lastIdx := some lastIdx }, lastIdx }, lastIdx)

/-- The loop of `write_at` that erases the entries above `index`, from `last_idx_` down; the db and
`last_idx_` it leaves. -/
def discardAbove (index : ℕ) : ℕ → StateDb → StateDb × ℕ
  | 0, db => (db, 0)
  | lastIdx + 1, db =>
    if index < lastIdx + 1 then discardAbove index lastIdx (db.erase (lastIdx + 1))
    else (db, lastIdx + 1)

/-- `write_at(index, entry)`. -/
def writeAt (index : ℕ) (entry : List UInt8) : NodeosStateLogStore :=
  let discarded := discardAbove index s.lastIdx (s.db.write index entry)
  -- bring `last_idx_` to `index` if it is older
  let lastIdx := if discarded.2 < index then index else discarded.2
  { s with db := { discarded.1 with lastIdx := some lastIdx }, lastIdx }

/-- The loop of `log_entries_ext` from `ii`, `count` indices left, `accum` bytes so far: `none` at
a missing entry, which makes the whole result `nullptr`. `bufSize` is the size of an entry's
`get_buf()`. -/
def logEntriesLoop (bufSize : List UInt8 → ℕ) (hint : ℕ) :
    ℕ → ℕ → ℕ → Option (List (List UInt8))
  | _, 0, _ => some []
  | ii, count + 1, accum => do
    let entry ← s.entryAt ii
    if hint ≠ 0 then
      let accum := accum + bufSize entry
      if hint ≤ accum then some [entry]
      else (entry :: ·) <$> logEntriesLoop bufSize hint (ii + 1) count accum
    else (entry :: ·) <$> logEntriesLoop bufSize hint (ii + 1) count accum

/-- `log_entries_ext(start, end, batch_size_hint_in_bytes)`. -/
def logEntriesExt (bufSize : List UInt8 → ℕ) (start endIdx : ℕ) (batchSizeHintInBytes : ℤ) :
    Option (List (List UInt8)) :=
  if batchSizeHintInBytes < 0 then some []
  else s.logEntriesLoop bufSize batchSizeHintInBytes.toNat start (endIdx - start) 0

/-- `log_entries(start, end)`: no size hint, so no size is read. -/
def logEntries (start endIdx : ℕ) : Option (List (List UInt8)) :=
  s.logEntriesExt (fun _ => 0) start endIdx 0

/-- `pack(index, cnt)`: `none` where it dereferences a null `log_entries`, or where a negative
count makes the buffer's allocation fail. -/
def pack (index : ℕ) (cnt : ℤ) : Option (List UInt8) := do
  let entries ← s.logEntries index (index + cnt).toNat
  if cnt < 0 then none else some (packEntries cnt entries)

/-- One entry of a pack written at `cur`; `last_idx_` rises to it. -/
def putEntry (cur : ℕ) (entry : List UInt8) : NodeosStateLogStore :=
  { s with db := s.db.write cur entry, lastIdx := if s.lastIdx < cur then cur else s.lastIdx }

/-- The loop of `apply_pack`: `count` entries from the cursor, written from `cur` on. -/
def applyPackLoop (cur : ℕ) : ℕ → List UInt8 →
    EStateM PackError NodeosStateLogStore Unit
  | 0, _ => pure ()
  | count + 1, buf => do
    let sized ← liftExcept (getInt buf)
    let entry ← liftExcept (getBuf sized.1 sized.2)
    modify (·.putEntry cur entry.1)
    applyPackLoop (cur + 1) count entry.2

/-- `apply_pack(index, pack)`; a negative count reads no entry. -/
def applyPack (index : ℕ) (pack : List UInt8) : EStateM PackError NodeosStateLogStore Unit := do
  let numLogs ← liftExcept (getInt pack)
  applyPackLoop index numLogs.1.toNat numLogs.2
  modify fun s => { s with db := { s.db with lastIdx := some s.lastIdx } }

/-- The loop of `compact`: while `start_idx_ ≤ last_log_index` its entry is erased and it
moves up; it runs at most `fuel` times. -/
def compactLoop (lastLogIndex : ℕ) : ℕ → ℕ → StateDb → StateDb × ℕ
  | 0, startIdx, db => (db, startIdx)
  | fuel + 1, startIdx, db =>
    if startIdx ≤ lastLogIndex then compactLoop lastLogIndex fuel (startIdx + 1) (db.erase startIdx)
    else (db, startIdx)

/-- `compact(last_log_index)`: the loop runs at most `last_log_index + 1` times. -/
def compact (lastLogIndex : ℕ) : NodeosStateLogStore :=
  let erased := compactLoop lastLogIndex (lastLogIndex + 1) s.startIdx s.db
  let db := { erased.1 with startIdx := some erased.2 }
  -- `last_idx_` rises to `last_log_index` when it is below it
  if s.lastIdx < lastLogIndex then
    { db := { db with lastIdx := some lastLogIndex }, logInit := s.logInit, startIdx := erased.2
      lastIdx := lastLogIndex }
  else { s with db := db, startIdx := erased.2 }

/-! ### The invariant -/

/-- **The log is contiguous.** The db holds the placeholder and exactly the entries of
`[start_idx_, last_idx_]`, the bounds are in order, and what the constructor reads back is the
store: the keys hold the bounds and the placeholder is `log_init_`. -/
structure Contiguous : Prop where
  holds : ∀ n, (s.db.entries n).isSome ↔ n = 0 ∨ s.startIdx ≤ n ∧ n ≤ s.lastIdx
  start_pos : 1 ≤ s.startIdx
  start_le : s.startIdx ≤ s.lastIdx + 1
  persistedStart : s.db.startIdx = some s.startIdx
  persistedLast : s.db.lastIdx = some s.lastIdx
  placeholder : s.db.entries 0 = some s.logInit

end NodeosStateLogStore

namespace StateDb

variable (db : StateDb) (index : ℕ) (buf : List UInt8)

@[simp] theorem entries_write (n : ℕ) :
    (db.write index buf).entries n = if n = index then some buf else db.entries n :=
  Function.update_apply _ _ _ _

@[simp] theorem entries_erase (n : ℕ) :
    (db.erase index).entries n = if n = index then none else db.entries n :=
  Function.update_apply _ _ _ _

@[simp] theorem startIdx_write : (db.write index buf).startIdx = db.startIdx := rfl

@[simp] theorem lastIdx_write : (db.write index buf).lastIdx = db.lastIdx := rfl

@[simp] theorem startIdx_erase : (db.erase index).startIdx = db.startIdx := rfl

@[simp] theorem lastIdx_erase : (db.erase index).lastIdx = db.lastIdx := rfl

end StateDb

namespace NodeosStateLogStore

variable {s : NodeosStateLogStore}

/-- The store the constructor makes over an empty db: the placeholder, and no live entry. -/
def freshStore (initEntry : List UInt8) : NodeosStateLogStore :=
  ⟨{ StateDb.empty.write 0 initEntry with startIdx := some 1, lastIdx := some 0 }, initEntry, 1, 0⟩

theorem create_empty (initEntry : List UInt8) :
    create StateDb.empty initEntry = some (freshStore initEntry) := rfl

theorem contiguous_freshStore (initEntry : List UInt8) : (freshStore initEntry).Contiguous := by
  refine ⟨fun n => ?_, le_refl 1, le_refl 1, rfl, rfl, rfl⟩
  by_cases hn : n = 0
  · simp [freshStore, hn]
  · simp [freshStore, hn, StateDb.empty]

/-- **Reopening gives the store back**: the constructor reads the placeholder and the two bounds
the store wrote. -/
theorem Contiguous.create_db (h : s.Contiguous) (initEntry : List UInt8) :
    create s.db initEntry = some s := by
  unfold create
  rw [h.placeholder]
  simp only [h.persistedStart, h.persistedLast, Option.bind_eq_bind, Option.bind_some]
  rfl

/-- `append` keeps the log contiguous and returns the slot it wrote. -/
theorem Contiguous.after_append (h : s.Contiguous) (entry : List UInt8) :
    (s.append entry).1.Contiguous ∧ (s.append entry).2 = s.nextSlot ∧
      (s.append entry).1.entryAt s.nextSlot = some entry := by
  refine ⟨⟨fun n => ?_, h.start_pos, Nat.le_succ_of_le h.start_le, h.persistedStart, rfl, ?_⟩,
    rfl, by simp [append, entryAt, nextSlot]⟩
  · -- the new slot is the one above `last_idx_`
    have hold := h.holds n
    simp only [append, StateDb.entries_write]
    split
    · have := h.start_le
      simp only [Option.isSome_some, true_iff]
      omega
    · rw [hold]
      omega
  · have := h.start_pos
    simp only [append, StateDb.entries_write]
    rw [if_neg (by omega)]
    exact h.placeholder

/-- The loop of `write_at` erases the entries of `(index, last_idx_]` and leaves `last_idx_` at
the smaller of the two. -/
theorem discardAbove_spec (index : ℕ) : ∀ (lastIdx : ℕ) (db : StateDb),
    (discardAbove index lastIdx db).2 = min index lastIdx ∧
      (∀ n, (discardAbove index lastIdx db).1.entries n =
        if index < n ∧ n ≤ lastIdx then none else db.entries n) ∧
      (discardAbove index lastIdx db).1.startIdx = db.startIdx
  | 0, db => ⟨by simp [discardAbove], fun n => by simp [discardAbove]; omega, rfl⟩
  | lastIdx + 1, db => by
    unfold discardAbove
    split
    · -- the entry at `last_idx_` goes, then the loop goes on one below
      obtain ⟨hlast, hentries, hstart⟩ := discardAbove_spec index lastIdx (db.erase (lastIdx + 1))
      refine ⟨by omega, fun n => ?_, hstart⟩
      rw [hentries, StateDb.entries_erase]
      split_ifs <;> first | rfl | omega
    · exact ⟨by omega, fun n => by rw [if_neg (by omega)], rfl⟩

/-- **`write_at` keeps the log contiguous** when it writes in `[start_index(), next_slot()]`: the
entries above the written one go, and `last_idx_` is its index. -/
theorem Contiguous.after_writeAt (h : s.Contiguous) {index : ℕ} (h1 : s.startIdx ≤ index)
    (h2 : index ≤ s.nextSlot) (entry : List UInt8) :
    (s.writeAt index entry).Contiguous ∧ (s.writeAt index entry).lastIdx = index ∧
      (s.writeAt index entry).entryAt index = some entry := by
  obtain ⟨hlast, hentries, hstart⟩ :=
    discardAbove_spec index s.lastIdx (s.db.write index entry)
  have hpos := h.start_pos
  have hfirst : (s.writeAt index entry).startIdx = s.startIdx := rfl
  have hidx : (s.writeAt index entry).lastIdx = index := by
    simp only [writeAt, hlast]
    split <;> omega
  have hat : ∀ n, (s.writeAt index entry).db.entries n =
      if index < n ∧ n ≤ s.lastIdx then none else if n = index then some entry
      else s.db.entries n := fun n => by
    simp only [writeAt, hentries, StateDb.entries_write]
  refine ⟨⟨fun n => ?_, h.start_pos, ?_, ?_, rfl, ?_⟩, hidx, ?_⟩
  · rw [hat, hidx, hfirst]
    have hold := h.holds n
    split_ifs with ha hb
    · simp only [Option.isSome_none, Bool.false_eq_true, false_iff]
      omega
    · simp only [Option.isSome_some, true_iff]
      omega
    · rw [hold]
      unfold nextSlot at h2
      omega
  · rw [hfirst, hidx]
    omega
  · show (discardAbove index s.lastIdx (s.db.write index entry)).1.startIdx = some s.startIdx
    rw [hstart, StateDb.startIdx_write, h.persistedStart]
  · rw [hat, if_neg (by omega), if_neg (by omega)]
    exact h.placeholder
  · simp only [entryAt, hat, lt_irrefl, false_and, if_false, if_true]

/-! ### Reading ranges -/

/-- With no size hint the loop of `log_entries_ext` returns every entry of its range, when all
are there: by induction on the indices left. -/
theorem logEntriesLoop_zero (bufSize : List UInt8 → ℕ) : ∀ (count ii accum : ℕ),
    (∀ k < count, (s.entryAt (ii + k)).isSome) →
    ∃ entries, s.logEntriesLoop bufSize 0 ii count accum = some entries ∧
      entries.length = count ∧ ∀ k < count, s.entryAt (ii + k) = entries[k]?
  | 0, _, _, _ => ⟨[], rfl, rfl, nofun⟩
  | count + 1, ii, accum, hall => by
    obtain ⟨entry, hentry⟩ := Option.isSome_iff_exists.mp (hall 0 (Nat.succ_pos _))
    rw [Nat.add_zero] at hentry
    obtain ⟨entries, hloop, hlen, hat⟩ := logEntriesLoop_zero bufSize count (ii + 1) accum
      fun k hk => by simpa only [Nat.add_right_comm, Nat.add_assoc] using hall (k + 1) (by omega)
    refine ⟨entry :: entries, ?_, by rw [List.length_cons, hlen], fun k hk => ?_⟩
    · rw [logEntriesLoop, hentry, Option.bind_eq_bind, Option.bind_some, if_neg (by simp), hloop]
      rfl
    · cases k with
      | zero => rw [Nat.add_zero, hentry, List.getElem?_cons_zero]
      | succ k =>
        rw [List.getElem?_cons_succ, ← hat k (by omega), Nat.add_right_comm, Nat.add_assoc]

/-- **`log_entries(a, b)` returns the entries `a .. b - 1`** of a contiguous log, for
`start_index() ≤ a ≤ b ≤ next_slot()`. -/
theorem Contiguous.logEntries_eq (h : s.Contiguous) {a b : ℕ} (ha : s.startIdx ≤ a) (hab : a ≤ b)
    (hb : b ≤ s.nextSlot) :
    ∃ entries, s.logEntries a b = some entries ∧ entries.length = b - a ∧
      ∀ k < b - a, s.entryAt (a + k) = entries[k]? := by
  have hall : ∀ k < b - a, (s.entryAt (a + k)).isSome := fun k hk =>
    (h.holds (a + k)).mpr (.inr ⟨by omega, by unfold nextSlot at hb; omega⟩)
  obtain ⟨entries, hloop, hlen, hat⟩ := logEntriesLoop_zero (fun _ => 0) (b - a) a 0 hall
  exact ⟨entries, by rw [logEntries, logEntriesExt, if_neg (by decide)]; exact hloop, hlen, hat⟩

/-! ### Compaction -/

/-- The loop of `compact` erases the entries of `[start_idx_, last_log_index]` and leaves
`start_idx_` above both, when it has the fuel for them. -/
theorem compactLoop_spec (lastLogIndex : ℕ) : ∀ (fuel startIdx : ℕ) (db : StateDb),
    lastLogIndex + 1 ≤ startIdx + fuel →
    (compactLoop lastLogIndex fuel startIdx db).2 = max startIdx (lastLogIndex + 1) ∧
      (∀ n, (compactLoop lastLogIndex fuel startIdx db).1.entries n =
        if startIdx ≤ n ∧ n ≤ lastLogIndex then none else db.entries n) ∧
      (compactLoop lastLogIndex fuel startIdx db).1.startIdx = db.startIdx ∧
      (compactLoop lastLogIndex fuel startIdx db).1.lastIdx = db.lastIdx
  | 0, startIdx, db, hfuel => ⟨by simp only [compactLoop]; omega,
      fun n => by rw [compactLoop, if_neg (by omega)], rfl, rfl⟩
  | fuel + 1, startIdx, db, hfuel => by
    unfold compactLoop
    split
    · -- the entry at `start_idx_` goes, and the loop goes on from the one above
      obtain ⟨hstart, hentries, hkey, hlast⟩ :=
        compactLoop_spec lastLogIndex fuel (startIdx + 1) (db.erase startIdx) (by omega)
      refine ⟨by omega, fun n => ?_, hkey, hlast⟩
      rw [hentries, StateDb.entries_erase]
      split_ifs <;> first | rfl | omega
    · exact ⟨by omega, fun n => by rw [if_neg (by omega)], rfl, rfl⟩

section Compact

variable (s) (lastLogIndex : ℕ)

@[simp] theorem startIdx_compact : (s.compact lastLogIndex).startIdx =
    max s.startIdx (lastLogIndex + 1) := by
  have hloop := (compactLoop_spec lastLogIndex (lastLogIndex + 1) s.startIdx s.db (by omega)).1
  unfold compact
  split <;> exact hloop

@[simp] theorem lastIdx_compact : (s.compact lastLogIndex).lastIdx =
    max s.lastIdx lastLogIndex := by
  unfold compact
  split <;> simp only <;> omega

@[simp] theorem entries_compact (n : ℕ) : (s.compact lastLogIndex).db.entries n =
    if s.startIdx ≤ n ∧ n ≤ lastLogIndex then none else s.db.entries n := by
  have hloop := (compactLoop_spec lastLogIndex (lastLogIndex + 1) s.startIdx s.db (by omega)).2.1
  unfold compact
  split <;> exact hloop n

theorem db_startIdx_compact :
    (s.compact lastLogIndex).db.startIdx = some (s.compact lastLogIndex).startIdx := by
  unfold compact
  split <;> rfl

theorem db_lastIdx_compact : (s.compact lastLogIndex).db.lastIdx =
    if s.lastIdx < lastLogIndex then some lastLogIndex else s.db.lastIdx := by
  have hloop := (compactLoop_spec lastLogIndex (lastLogIndex + 1) s.startIdx s.db (by omega)).2.2.2
  unfold compact
  split
  · rfl
  · exact hloop

@[simp] theorem logInit_compact : (s.compact lastLogIndex).logInit = s.logInit := by
  unfold compact
  split <;> rfl

end Compact

/-- **`compact` keeps the log contiguous**: the entries up to `last_log_index` go and
`start_idx_` moves above them; a `last_log_index` past the end moves `last_idx_` up to it, with
no live entry left. -/
theorem Contiguous.after_compact (h : s.Contiguous) (lastLogIndex : ℕ) :
    (s.compact lastLogIndex).Contiguous := by
  have hpos := h.start_pos
  have hle := h.start_le
  refine ⟨fun n => ?_, ?_, ?_, db_startIdx_compact s lastLogIndex, ?_, ?_⟩
  · rw [entries_compact, startIdx_compact, lastIdx_compact]
    have hold := h.holds n
    split_ifs
    · simp only [Option.isSome_none, Bool.false_eq_true, false_iff]
      omega
    · rw [hold]
      omega
  · rw [startIdx_compact]
    omega
  · rw [startIdx_compact, lastIdx_compact]
    omega
  · rw [db_lastIdx_compact, lastIdx_compact]
    split
    · congr 1
      omega
    · rw [h.persistedLast]
      congr 1
      omega
  · rw [entries_compact, if_neg (by omega), logInit_compact]
    exact h.placeholder

/-! ### Packs -/

/-- The store after the entries of a pack are written from `cur` on, one by one. -/
def putEntries : ℕ → List (List UInt8) → NodeosStateLogStore → NodeosStateLogStore
  | _, [], s => s
  | cur, entry :: entries, s => putEntries (cur + 1) entries (s.putEntry cur entry)

/-- What the entries of a pack write: each at its index, `last_idx_` raised to the last of them,
nothing else. -/
theorem putEntries_spec : ∀ (entries : List (List UInt8)) (cur : ℕ) (s : NodeosStateLogStore),
    (∀ n, (putEntries cur entries s).db.entries n =
      if cur ≤ n ∧ n < cur + entries.length then entries[n - cur]? else s.db.entries n) ∧
    (putEntries cur entries s).lastIdx =
      (if entries.length = 0 then s.lastIdx else max s.lastIdx (cur + entries.length - 1)) ∧
    (putEntries cur entries s).startIdx = s.startIdx ∧
    (putEntries cur entries s).logInit = s.logInit ∧
    (putEntries cur entries s).db.startIdx = s.db.startIdx
  | [], _, s => ⟨fun n => by rw [if_neg (by simp)]; rfl, rfl, rfl, rfl, rfl⟩
  | entry :: entries, cur, s => by
    obtain ⟨hentries, hlast, hstart, hinit, hkey⟩ := putEntries_spec entries (cur + 1)
      (s.putEntry cur entry)
    refine ⟨fun n => ?_, ?_, hstart, hinit, hkey⟩
    · -- the first entry is at `cur`, the rest from `cur + 1` on
      rw [putEntries, hentries, putEntry, StateDb.entries_write, List.length_cons]
      by_cases hn : n = cur
      · subst hn
        simp
      · by_cases hin : cur + 1 ≤ n ∧ n < cur + 1 + entries.length
        · rw [if_pos hin, if_pos (by omega), show n - cur = n - (cur + 1) + 1 by omega,
            List.getElem?_cons_succ]
        · rw [if_neg hin, if_neg hn, if_neg (by omega)]
    · have hput : (s.putEntry cur entry).lastIdx = max s.lastIdx cur := by
        show (if s.lastIdx < cur then cur else s.lastIdx) = _
        split <;> omega
      rw [putEntries, hlast, hput, List.length_cons, if_neg (Nat.succ_ne_zero _)]
      split_ifs <;> omega

/-- The loop of `apply_pack` reads the entries `pack` wrote, and writes them from `cur` on: by
induction on the entries. -/
theorem applyPackLoop_run : ∀ (entries : List (List UInt8)), (∀ e ∈ entries, e.length < 2 ^ 31) →
    ∀ (cur : ℕ) (rest : List UInt8) (s : NodeosStateLogStore),
    (applyPackLoop cur entries.length
      ((entries.map fun entry => putInt entry.length ++ entry).flatten ++ rest)).run s =
      .ok () (putEntries cur entries s)
  | [], _, _, _, _ => rfl
  | entry :: entries, hsize, cur, rest, s => by
    have hlen := hsize entry List.mem_cons_self
    have hbuf : (((entry :: entries).map fun entry => putInt entry.length ++ entry).flatten ++
        rest) = putInt entry.length ++
          (entry ++ ((entries.map fun entry => putInt entry.length ++ entry).flatten ++ rest)) := by
      simp only [List.map_cons, List.flatten_cons, List.append_assoc]
    rw [List.length_cons, applyPackLoop, hbuf, run_bind_liftExcept,
      getInt_putInt (by omega) (by omega)]
    dsimp only
    rw [run_bind_liftExcept, getBuf_append]
    dsimp only
    rw [run_bind_modify]
    exact applyPackLoop_run entries (fun e he => hsize e (List.mem_cons_of_mem _ he)) (cur + 1)
      rest (s.putEntry cur entry)

/-- `apply_pack` of what `pack` wrote returns, with the entries written and `last_idx_` stored. -/
theorem applyPack_packEntries (entries : List (List UInt8)) (hsize : ∀ e ∈ entries, e.length < 2 ^ 31)
    (hcount : entries.length < 2 ^ 31) (index : ℕ) :
    (applyPack index (packEntries entries.length entries)).run s = .ok ()
      { putEntries index entries s with
        db := { (putEntries index entries s).db with
          lastIdx := some (putEntries index entries s).lastIdx } } := by
  have hloop := applyPackLoop_run entries hsize index [] s
  rw [List.append_nil] at hloop
  rw [applyPack, packEntries, run_bind_liftExcept, getInt_putInt (by omega) (by omega)]
  dsimp only
  rw [Int.toNat_natCast, run_bind, hloop]
  rfl

/-- **`apply_pack` keeps the log contiguous** when it starts in `[start_index(), next_slot()]`:
the packed entries land at `index ..`, `last_idx_` rises to the last of them, and nothing else
changes. -/
theorem Contiguous.after_applyPack (h : s.Contiguous) {index : ℕ} (h1 : s.startIdx ≤ index)
    (h2 : index ≤ s.nextSlot) (entries : List (List UInt8))
    (hsize : ∀ e ∈ entries, e.length < 2 ^ 31) (hcount : entries.length < 2 ^ 31) :
    ∃ s', (applyPack index (packEntries entries.length entries)).run s = .ok () s' ∧
      s'.Contiguous ∧ s'.startIdx = s.startIdx ∧ s.lastIdx ≤ s'.lastIdx ∧
      ∀ n, s'.entryAt n =
        if index ≤ n ∧ n < index + entries.length then entries[n - index]? else s.entryAt n := by
  obtain ⟨hentries, hlast, hstart, hinit, hkey⟩ := putEntries_spec entries index s
  have hpos := h.start_pos
  have hle := h.start_le
  unfold nextSlot at h2
  -- the new range ends at the old end or at the last packed entry, whichever is later
  have hupTo : ∀ n, n ≤ (putEntries index entries s).lastIdx ↔
      n ≤ s.lastIdx ∨ n < index + entries.length := fun n => by
    rw [hlast]
    split_ifs <;> omega
  refine ⟨_, applyPack_packEntries entries hsize hcount index, ⟨fun n => ?_, ?_, ?_, ?_, rfl, ?_⟩,
    hstart, ?_, hentries⟩
  · show ((putEntries index entries s).db.entries n).isSome ↔
      n = 0 ∨ (putEntries index entries s).startIdx ≤ n ∧ n ≤ (putEntries index entries s).lastIdx
    rw [hentries, hupTo, hstart]
    have hold := h.holds n
    split_ifs with hin
    · -- a packed entry: it is there, and inside the raised range
      rw [List.getElem?_eq_getElem (by omega)]
      simp only [Option.isSome_some, true_iff]
      omega
    · rw [hold]
      omega
  · show 1 ≤ (putEntries index entries s).startIdx
    rw [hstart]
    exact hpos
  · show (putEntries index entries s).startIdx ≤ (putEntries index entries s).lastIdx + 1
    have := (hupTo s.lastIdx).mpr (.inl le_rfl)
    rw [hstart]
    omega
  · show (putEntries index entries s).db.startIdx = _
    rw [hkey, hstart, h.persistedStart]
  · rw [hentries, if_neg (by omega), hinit]
    exact h.placeholder
  · exact (hupTo s.lastIdx).mpr (.inl le_rfl)

/-- `pack(i, c)` of a contiguous log packs the `c` entries from `i`, when they lie in
`[start_index(), next_slot())`. -/
theorem Contiguous.pack_eq (h : s.Contiguous) {i : ℕ} {c : ℤ} (hc : 0 ≤ c)
    (hi : s.startIdx ≤ i) (hend : i + c.toNat ≤ s.nextSlot) :
    ∃ entries, s.pack i c = some (packEntries c entries) ∧ entries.length = c.toNat ∧
      ∀ k < c.toNat, s.entryAt (i + k) = entries[k]? := by
  obtain ⟨entries, hlog, hlen, hat⟩ := h.logEntries_eq hi (Nat.le_add_right i c.toNat) hend
  have hend' : ((i : ℤ) + c).toNat = i + c.toNat := by omega
  refine ⟨entries, ?_, by rw [hlen]; omega, fun k hk => hat k (by omega)⟩
  rw [pack, hend', hlog, Option.bind_eq_bind, Option.bind_some, if_neg (by omega)]

/-- **`apply_pack(i, pack(i, c))` reproduces the entries** `i .. i + c - 1` of one contiguous log
on another that can take them at `i`, and keeps it contiguous: no other entry changes and neither
bound goes down. -/
theorem Contiguous.applyPack_pack (hs : s.Contiguous) {t : NodeosStateLogStore}
    (ht : t.Contiguous) {i : ℕ} {c : ℤ} (hc : 0 ≤ c) (hc' : c < 2 ^ 31) (hsi : s.startIdx ≤ i)
    (hend : i + c.toNat ≤ s.nextSlot)
    (hsize : ∀ k < c.toNat, ∀ entry, s.entryAt (i + k) = some entry → entry.length < 2 ^ 31)
    (hti : t.startIdx ≤ i) (hti' : i ≤ t.nextSlot) :
    ∃ p t', s.pack i c = some p ∧ (applyPack i p).run t = .ok () t' ∧ t'.Contiguous ∧
      t'.startIdx = t.startIdx ∧ t.lastIdx ≤ t'.lastIdx ∧
      ∀ n, t'.entryAt n = if i ≤ n ∧ n < i + c.toNat then s.entryAt n else t.entryAt n := by
  obtain ⟨entries, hpack, hlen, hat⟩ := hs.pack_eq hc hsi hend
  have hcnt : c = entries.length := by omega
  have hsizes : ∀ e ∈ entries, e.length < 2 ^ 31 := fun e he => by
    obtain ⟨k, hk, rfl⟩ := List.getElem_of_mem he
    exact hsize k (by omega) _ (by rw [hat k (by omega), List.getElem?_eq_getElem hk])
  obtain ⟨t', hrun, hcont, hstart, hlast, hentries⟩ :=
    ht.after_applyPack hti hti' entries hsizes (by omega)
  refine ⟨_, t', hpack, by rw [hcnt]; exact hrun, hcont, hstart, hlast, fun n => ?_⟩
  rw [hentries, hlen]
  split_ifs with hin
  · rw [← hat (n - i) (by omega), Nat.add_sub_cancel' hin.1]
  · rfl

end NodeosStateLogStore

/-! ### Runs of calls -/

/-- The calls NuRaft makes on its log store; a pack is given by the entries `pack` put in it. -/
inductive LogStoreCall
  | append (entry : List UInt8)
  | writeAt (index : ℕ) (entry : List UInt8)
  | applyPack (index : ℕ) (entries : List (List UInt8))
  | compact (lastLogIndex : ℕ)
  | reopen
deriving DecidableEq, Repr

namespace LogStoreCall

open NodeosStateLogStore

/-- The call on the store; reopening constructs a store over its db. -/
def exec (initEntry : List UInt8) : LogStoreCall → NodeosStateLogStore → NodeosStateLogStore
  | append entry, s => (s.append entry).1
  | writeAt index entry, s => s.writeAt index entry
  | applyPack index entries, s =>
    stateOf ((NodeosStateLogStore.applyPack index (packEntries entries.length entries)).run s)
  | compact lastLogIndex, s => s.compact lastLogIndex
  | reopen, s => (create s.db initEntry).getD s

/-- NuRaft's contract for the call, with `apply_pack` at or above `start_index()`: a write starts
in `[start_index(), next_slot()]`, and a pack holds fewer than `2^31` entries of fewer than `2^31`
bytes each, what its `int32` fields count. -/
def Allowed : LogStoreCall → NodeosStateLogStore → Prop
  | writeAt index _, s => s.startIdx ≤ index ∧ index ≤ s.nextSlot
  | applyPack index entries, s => s.startIdx ≤ index ∧ index ≤ s.nextSlot ∧
      entries.length < 2 ^ 31 ∧ ∀ e ∈ entries, e.length < 2 ^ 31
  | _, _ => True

instance decidableAllowed : ∀ (call : LogStoreCall) (s : NodeosStateLogStore),
    Decidable (call.Allowed s)
  | append _, _ => isTrue trivial
  | writeAt index _, s => inferInstanceAs (Decidable (s.startIdx ≤ index ∧ index ≤ s.nextSlot))
  | applyPack index entries, s => inferInstanceAs (Decidable (s.startIdx ≤ index ∧
      index ≤ s.nextSlot ∧ entries.length < 2 ^ 31 ∧ ∀ e ∈ entries, e.length < 2 ^ 31))
  | compact _, _ => isTrue trivial
  | reopen, _ => isTrue trivial

/-- **Each allowed call keeps the log contiguous.** -/
theorem contiguous_exec (initEntry : List UInt8) {call : LogStoreCall} {s : NodeosStateLogStore}
    (h : s.Contiguous) (hallowed : call.Allowed s) : (call.exec initEntry s).Contiguous := by
  cases call with
  | append entry => exact (h.after_append entry).1
  | writeAt index entry => exact (h.after_writeAt hallowed.1 hallowed.2 entry).1
  | applyPack index entries =>
    obtain ⟨hstart, hslot, hcount, hsize⟩ := hallowed
    obtain ⟨s', hrun, hs', -⟩ := h.after_applyPack hstart hslot entries hsize hcount
    rw [exec, hrun, stateOf_ok]
    exact hs'
  | compact lastLogIndex => exact h.after_compact lastLogIndex
  | reopen =>
    rw [exec, h.create_db]
    exact h

end LogStoreCall

/-- A run of calls each allowed where it is made. -/
inductive AllowedRun (initEntry : List UInt8) : NodeosStateLogStore → List LogStoreCall → Prop
  | nil (s : NodeosStateLogStore) : AllowedRun initEntry s []
  | cons {s : NodeosStateLogStore} {call : LogStoreCall} {calls : List LogStoreCall} :
    call.Allowed s → AllowedRun initEntry (call.exec initEntry s) calls →
      AllowedRun initEntry s (call :: calls)

namespace NodeosStateLogStore

/-- The store after the calls, one after another. -/
def runCalls (initEntry : List UInt8) (s : NodeosStateLogStore) (calls : List LogStoreCall) :
    NodeosStateLogStore :=
  calls.foldl (fun s call => call.exec initEntry s) s

/-- **Every allowed run keeps the log contiguous**, by induction on the run. -/
theorem contiguous_runCalls (initEntry : List UInt8) : ∀ {s : NodeosStateLogStore}
    {calls : List LogStoreCall}, s.Contiguous → AllowedRun initEntry s calls →
    (runCalls initEntry s calls).Contiguous
  | _, [], h, _ => h
  | _, _ :: calls, h, .cons hallowed hrun =>
    @contiguous_runCalls initEntry _ calls (LogStoreCall.contiguous_exec initEntry h hallowed) hrun

/-- **The store keeps its log contiguous over every run** from its construction over an empty db
in which NuRaft keeps its contract and `apply_pack` starts at or above `start_index()`: the db
holds exactly the live entries and the placeholder, the keys hold the bounds, so that reopening
gives the same store, `log_entries` returns the entries of any range of the log, and `pack` then
`apply_pack` on a second contiguous store reproduce the packed entries there and discard nothing. -/
theorem logStore_contiguous (initEntry : List UInt8) (calls : List LogStoreCall)
    (hrun : AllowedRun initEntry (freshStore initEntry) calls) :
    let s := runCalls initEntry (freshStore initEntry) calls
    s.Contiguous ∧ create s.db initEntry = some s ∧
      (∀ a b, s.startIdx ≤ a → a ≤ b → b ≤ s.nextSlot → ∃ entries,
        s.logEntries a b = some entries ∧ entries.length = b - a ∧
          ∀ k < b - a, s.entryAt (a + k) = entries[k]?) ∧
      ∀ (t : NodeosStateLogStore) (i : ℕ) (c : ℤ), t.Contiguous → 0 ≤ c → c < 2 ^ 31 →
        s.startIdx ≤ i → i + c.toNat ≤ s.nextSlot →
        (∀ k < c.toNat, ∀ entry, s.entryAt (i + k) = some entry → entry.length < 2 ^ 31) →
        t.startIdx ≤ i → i ≤ t.nextSlot →
        ∃ p t', s.pack i c = some p ∧ (applyPack i p).run t = .ok () t' ∧ t'.Contiguous ∧
          t'.startIdx = t.startIdx ∧ t.lastIdx ≤ t'.lastIdx ∧
          ∀ n, t'.entryAt n = if i ≤ n ∧ n < i + c.toNat then s.entryAt n else t.entryAt n := by
  have h := contiguous_runCalls initEntry (contiguous_freshStore initEntry) hrun
  exact ⟨h, h.create_db initEntry, fun a b ha hab hb => h.logEntries_eq ha hab hb,
    fun t i c ht hc hc' hsi hend hsize hti hti' =>
      h.applyPack_pack ht hc hc' hsi hend hsize hti hti'⟩

/-- Three appends, a rewrite of the second entry, a compaction of the first, a pack of two entries
at the second, and a reopening. -/
def demoCalls : List LogStoreCall :=
  [.append [1], .append [2], .append [3], .writeAt 2 [4], .compact 1, .applyPack 2 [[5], [6]],
    .reopen]

theorem logStore_contiguous_demoCalls :
    AllowedRun [0] (freshStore [0]) demoCalls ∧
      (runCalls [0] (freshStore [0]) demoCalls).Contiguous := by
  have hrun : AllowedRun [0] (freshStore [0]) demoCalls :=
    .cons (by decide) (.cons (by decide) (.cons (by decide) (.cons (by decide) (.cons (by decide)
      (.cons (by decide) (.cons (by decide) (.nil _)))))))
  exact ⟨hrun, (logStore_contiguous [0] demoCalls hrun).1⟩

/-- **`apply_pack` below `start_index()` breaks the log**: a fresh store compacted up to `5` has
`start_index()` `6`, and a pack of one entry applied at `1`, which is at most `next_slot()`, leaves
an entry at `1` outside the live range. -/
theorem applyPack_below_start :
    let s := (freshStore [0]).compact 5
    let t := stateOf ((applyPack 1 (packEntries 1 [[7]])).run s)
    1 ≤ s.nextSlot ∧ s.startIdx = 6 ∧ t.entryAt 1 = some [7] ∧ t.startIdx = 6 ∧
      ¬ t.Contiguous := by
  intro s t
  have hstart : t.startIdx = 6 := by decide
  refine ⟨by decide, by decide, by decide, hstart, fun h => ?_⟩
  have hlive := (h.holds 1).mp (by decide)
  omega

end NodeosStateLogStore

end Eosio
