import Mathlib
import TaurusNode.StateHistory.LogRecovery
import TaurusNode.Lib.OrderedIndex

/-!
# Block lookups through the catalog

`log_catalog::get_block_position(block_num, mode)` (libraries/chain/include/eosio/chain/
log_catalog.hpp) finds the position of a block in the bundle of the catalog that holds it. It
caches the last bundle it mapped: `active_index`, the bundle's index in the `flat_map`, and the
files `log_data` and `log_index` it mapped for it. A lookup first tries that bundle, and reads
the cached files when the bundle's range holds the block and the files are mapped in the mode
asked for; otherwise it maps the bundle before `upper_bound(block_num)`.

* `CatalogCache.Valid`: the bundles hold their entries and follow one another in block order, and
  the cache names a bundle of the collection whose files are the ones mapped.
* `Valid.getBlockPosition`: under `Valid`, a lookup returns the position the files of the bundle
  holding the block give (`LogCatalog.blockPosition`), and keeps `Valid`. `open` on files that
  hold their entries and are disjoint, and `add` of a bundle after the others keep `Valid`
  (`Valid.openCatalog`, `Valid.add`); `add` moves `active_index` back over the bundles it drops.
* `truncate` erases bundles without touching the cache: it keeps `Valid` only when the active
  bundle stays (`Valid.truncate`). Once the cache names an erased slot, later `add`s fill the slot
  with another bundle, and a lookup in that bundle reads the files of the erased one
  (`getBlockPosition_stale`).

Modelled as: a bundle is its files (`LogBundle`); `open` takes the files of the retained directory
with an index that matches the log (`index_matches_data` and `construct_index` are not modelled),
in the order the directory lists them. Mapping a file of the collection does not throw here, so
the `catch` of `get_block_position` is not reached. `collection.nth(active_index)` past the end,
and a read past the end of `log_index`, are undefined in the source and read as nothing here.
-/

namespace Eosio

open Bytes

/-- `boost::iostreams::mapped_file::mapmode`. -/
inductive MapMode
  | readonly
  | readwrite
  | priv
deriving DecidableEq, Repr

/-- The log file `log_data` maps, and its `flags()`. -/
structure LogData where
  log : List UInt8
  flags : MapMode
deriving DecidableEq

/-- `state_history_log_data::first_block_num()`: the number of the block id in the first
header. -/
def LogData.firstBlockNum (d : LogData) : UInt32 :=
  numFromId (StateHistoryLogHeader.unpack d.log).blockId

/-- `log_index::nth_block_position(n)`. -/
def nthBlockPosition (index : List UInt64) (n : UInt32) : Option UInt64 := index[n.toNat]?

/-- Whether a bundle's range holds the block. -/
def LogBundle.covers (b : LogBundle) (blockNum : UInt32) : Bool :=
  decide (b.firstBlock ≤ blockNum ∧ blockNum ≤ b.lastBlock)

/-- Two bundles whose ranges do not meet. -/
def LogBundle.Apart (b b' : LogBundle) : Prop :=
  b.lastBlock < b'.firstBlock ∨ b'.lastBlock < b.firstBlock

theorem LogBundle.Apart.symm {b b' : LogBundle} (h : b.Apart b') : b'.Apart b := Or.symm h

/-- The position of a block as the files of the bundle holding it give it: what a lookup is
for. -/
def LogCatalog.blockPosition (c : LogCatalog) (blockNum : UInt32) : Option UInt64 :=
  (c.collection.find? (·.covers blockNum)).bind fun b =>
    nthBlockPosition b.index (blockNum - b.firstBlock)

/-- `log_catalog` with the cache of `get_block_position`: `active_index` (`npos` is `none`) and
the files `log_data` and `log_index` map. -/
structure CatalogCache where
  catalog : LogCatalog
  activeIndex : Option ℕ
  logData : LogData
  logIndex : List UInt64
deriving DecidableEq

namespace CatalogCache

variable (s : CatalogCache)

/-- A catalog that has mapped nothing. -/
def empty (maxRetainedFiles : UInt32) : CatalogCache :=
  ⟨⟨[], maxRetainedFiles⟩, none, ⟨[], .readonly⟩, []⟩

/-- `flat_map::insert_or_assign`. -/
def insertOrAssign (collection : List LogBundle) (bundle : LogBundle) : List LogBundle :=
  if collection.any (·.firstBlock = bundle.firstBlock) then
    collection.map fun b => if b.firstBlock = bundle.firstBlock then bundle else b
  else collection.orderedInsert (fun a b => a.firstBlock ≤ b.firstBlock) bundle

/-- The body of `open`'s loop for one file: a file is dropped when the bundle of its first block
reaches as far, and is assigned to its first block otherwise. -/
def openFile (collection : List LogBundle) (log : LogBundle) : List LogBundle :=
  match collection.find? (·.firstBlock = log.firstBlock) with
  | some existing =>
    if log.lastBlock ≤ existing.lastBlock then collection else insertOrAssign collection log
  | none => insertOrAssign collection log

/-- `open(log_dir, retained_dir, archive_dir, name)`, over the files of the retained directory. -/
def openCatalog (files : List LogBundle) : CatalogCache :=
  { s with catalog := { s.catalog with collection := files.foldl openFile s.catalog.collection } }

/-- `add(start_block_num, end_block_num, dir, name)`: the catalog's `add`, with `active_index`
moved back over the bundles it drops, or reset when it drops the active one. -/
def add (bundle : LogBundle) : CatalogCache :=
  let size := s.catalog.collection.length
  let maxRetainedFiles := s.catalog.maxRetainedFiles.toNat
  let itemsToErase := if 0 < s.catalog.maxRetainedFiles then size - maxRetainedFiles + 1 else size
  { s with
    catalog := s.catalog.add bundle
    activeIndex :=
      if maxRetainedFiles ≤ size then
        s.activeIndex.bind fun i => if i < itemsToErase then none else some (i - itemsToErase)
      else s.activeIndex }

/-- `truncate(block_num, new_name)`: the catalog's `truncate`, and the bundle it renames; the
cache is left as it was. -/
def truncate (blockNum : UInt32) : CatalogCache × Option LogBundle :=
  ({ s with catalog := (s.catalog.truncate blockNum).1 }, (s.catalog.truncate blockNum).2)

/-- `collection.nth(active_index)`. -/
def activeItem : Option LogBundle := s.activeIndex.bind (s.catalog.collection[·]?)

/-- The second half of `get_block_position`: the bundle before `upper_bound(block_num)` is
mapped and made active when its range holds the block. -/
def mapBundleFor (blockNum : UInt32) (mode : MapMode) : Option UInt64 × CatalogCache :=
  match s.catalog.collection.head? with
  | none => (none, s)
  | some first =>
    if blockNum < first.firstBlock then (none, s)
    else
      let below := s.catalog.collection.takeWhile (·.firstBlock ≤ blockNum)
      match below.getLast? with
      | none => (none, s)
      | some it =>
        if blockNum ≤ it.lastBlock then
          let logData : LogData := ⟨it.log, mode⟩
          (nthBlockPosition it.index (blockNum - logData.firstBlockNum),
            { s with logData, logIndex := it.index, activeIndex := some (below.length - 1) })
        else (none, s)

/-- `get_block_position(block_num, mode)`. -/
def getBlockPosition (blockNum : UInt32) (mode : MapMode) : Option UInt64 × CatalogCache :=
  match s.activeItem with
  | some active =>
    if active.firstBlock ≤ blockNum ∧ blockNum ≤ active.lastBlock ∧ s.logData.flags = mode then
      (nthBlockPosition s.logIndex (blockNum - s.logData.firstBlockNum), s)
    else s.mapBundleFor blockNum mode
  | none => s.mapBundleFor blockNum mode

end CatalogCache

/-! ### Bundles in block order -/

namespace LogBundle

theorem covers_iff {b : LogBundle} {n : UInt32} :
    b.covers n = true ↔ b.firstBlock ≤ n ∧ n ≤ b.lastBlock := by
  simp [covers]

/-- A bundle that holds its entries has an index word for each block of its range. -/
theorem Holds.length_index {b : LogBundle} (h : b.Holds) :
    b.index.length + b.firstBlock.toNat = b.lastBlock.toNat + 1 := by
  obtain ⟨es, -, hf, hlen⟩ := h
  rw [hf.index_eq, List.length_map, length_entryOffsets]
  omega

/-- The first header of a bundle that holds its entries is that of its first block. -/
theorem Holds.firstBlockNum {b : LogBundle} (h : b.Holds) (mode : MapMode) :
    (LogData.mk b.log mode).firstBlockNum = b.firstBlock := by
  obtain ⟨es, hne, hf, -⟩ := h
  obtain ⟨e, es', rfl⟩ := List.exists_cons_of_ne_nil hne
  have hnum : (numFromId e.blockId).toNat = b.firstBlock.toNat := by
    have := congrArg List.head? hf.blockNums
    simpa [List.range'_succ] using this
  rw [LogData.firstBlockNum, hf.log_eq, encodeEntries, LogEntry.bytes, List.append_assoc,
    List.append_assoc, unpack_pack_append]
  exact UInt32.toNat_inj.mp hnum

/-- A block of the range of a bundle that holds its entries has its index word. -/
theorem Holds.nthBlockPosition_isSome {b : LogBundle} (h : b.Holds) {n : UInt32}
    (hn : b.covers n = true) : (nthBlockPosition b.index (n - b.firstBlock)).isSome := by
  rw [covers_iff] at hn
  have hlen := h.length_index
  have hlt : n.toNat - b.firstBlock.toNat < b.index.length := by
    rw [UInt32.le_iff_toNat_le, UInt32.le_iff_toNat_le] at hn
    omega
  rw [nthBlockPosition, UInt32.toNat_sub_of_le _ _ hn.1, List.getElem?_eq_getElem hlt]
  rfl

end LogBundle

section Ordered

variable {l : List LogBundle} {n : UInt32}

/-- The last element of a list is related to every other one. -/
theorem eq_or_rel_getLast {α : Type*} {r : α → α → Prop} {xs : List α} {x : α}
    (hxs : xs.Pairwise r) (hx : xs.getLast? = some x) : ∀ y ∈ xs, y = x ∨ r y x := by
  have hsplit := List.dropLast_append_getLast? _ hx
  intro y hy
  rw [← hsplit] at hy hxs
  rcases List.mem_append.mp hy with hy | hy
  · exact .inr ((List.pairwise_append.mp hxs).2.2 y hy x (List.mem_singleton_self x))
  · exact .inl (List.mem_singleton.mp hy)

variable (hholds : ∀ b ∈ l, b.Holds) (hord : l.Pairwise fun b b' => b.lastBlock < b'.firstBlock)
include hholds hord

/-- Bundles in block order start in increasing order. -/
theorem firstBlock_increasing : l.Pairwise fun b b' => b.firstBlock < b'.firstBlock :=
  hord.imp_of_mem fun hb _ hlt => UInt32.lt_of_le_of_lt ((hholds _ hb).firstBlock_le) hlt

/-- At most one bundle in block order holds a block: of two bundles, the earlier one ends before
the later one starts. -/
theorem eq_of_covers {b b' : LogBundle} (hb : b ∈ l) (hb' : b' ∈ l) (hc : b.covers n = true)
    (hc' : b'.covers n = true) : b = b' := by
  rw [LogBundle.covers_iff] at hc hc'
  have hsep : ∀ {x y : LogBundle}, x.lastBlock < y.firstBlock → y.firstBlock ≤ n →
      n ≤ x.lastBlock → False :=
    fun hxy hy hx => UInt32.not_lt.mpr hx (UInt32.lt_of_lt_of_le hxy hy)
  induction l with
  | nil => cases hb
  | cons a l ih =>
    obtain ⟨ha, hl⟩ := List.pairwise_cons.mp hord
    have hholds' : ∀ x ∈ l, x.Holds := fun x hx => hholds x (List.mem_cons_of_mem a hx)
    rcases List.mem_cons.mp hb with rfl | hbl <;> rcases List.mem_cons.mp hb' with rfl | hbl'
    · rfl
    · exact (hsep (ha b' hbl') hc'.1 hc.2).elim
    · exact (hsep (ha b hbl) hc.1 hc'.2).elim
    · exact ih hholds' hl hbl hbl'

/-- The bundle holding a block is the one `find?` finds. -/
theorem find?_covers {b : LogBundle} (hb : b ∈ l) (hc : b.covers n = true) :
    l.find? (·.covers n) = some b := by
  rw [List.find?_eq_some_iff_append]
  obtain ⟨as, bs, rfl⟩ := List.append_of_mem hb
  refine ⟨hc, as, bs, rfl, fun a ha => ?_⟩
  -- a bundle before `b` holding the block would be `b`
  by_contra hca
  rw [Bool.not_eq_true', Bool.not_eq_false] at hca
  have hab := eq_of_covers hholds hord (List.mem_append_left _ ha) hb hca hc
  subst hab
  have := (List.pairwise_append.mp hord).2.2 a ha a List.mem_cons_self
  exact UInt32.lt_irrefl _ (UInt32.lt_of_le_of_lt (hholds a hb).firstBlock_le this)

end Ordered

/-! ### What a lookup is for -/

namespace LogCatalog

variable {c : LogCatalog} {n : UInt32}

theorem blockPosition_of_covers (hholds : ∀ b ∈ c.collection, b.Holds)
    (hord : c.collection.Pairwise fun b b' => b.lastBlock < b'.firstBlock) {b : LogBundle}
    (hb : b ∈ c.collection) (hc : b.covers n = true) :
    c.blockPosition n = nthBlockPosition b.index (n - b.firstBlock) := by
  rw [blockPosition, find?_covers hholds hord hb hc, Option.bind_some]

theorem blockPosition_of_not_covers (h : ∀ b ∈ c.collection, b.covers n = false) :
    c.blockPosition n = none := by
  rw [blockPosition, List.find?_eq_none.mpr fun b hb => by simp [h b hb], Option.bind_none]

/-- **A lookup reads the bundle holding the block**: a position exactly when a bundle in block
order holds the block, the word of its index for the block, and nothing exactly when no bundle
holds it. -/
theorem blockPosition_spec (hholds : ∀ b ∈ c.collection, b.Holds)
    (hord : c.collection.Pairwise fun b b' => b.lastBlock < b'.firstBlock) (n : UInt32) :
    (∀ p, c.blockPosition n = some p ↔ ∃ b ∈ c.collection, b.covers n = true ∧
      nthBlockPosition b.index (n - b.firstBlock) = some p) ∧
      (c.blockPosition n = none ↔ ∀ b ∈ c.collection, b.covers n = false) := by
  refine ⟨fun p => ⟨fun h => ?_, fun ⟨b, hb, hc, hp⟩ => ?_⟩, ⟨fun h => ?_, blockPosition_of_not_covers⟩⟩
  · obtain ⟨b, hfind, hp⟩ := Option.bind_eq_some_iff.mp h
    have hc : b.covers n = true := @List.find?_some _ (·.covers n) b _ hfind
    exact ⟨b, List.mem_of_find?_eq_some hfind, hc, hp⟩
  · rw [blockPosition_of_covers hholds hord hb hc, hp]
  · -- a bundle holding the block has its word
    intro b hb
    by_contra hc
    rw [Bool.not_eq_false] at hc
    have hsome := (hholds b hb).nthBlockPosition_isSome hc
    rw [← blockPosition_of_covers hholds hord hb hc, h] at hsome
    cases hsome

end LogCatalog

/-! ### The cache -/

theorem getElem?_eq_of_isPrefix_of_lt {α : Type*} {xs ys : List α} (h : xs <+: ys) {i : ℕ}
    (hi : i < xs.length) : ys[i]? = xs[i]? := by
  conv_rhs => rw [List.prefix_iff_eq_take.mp h]
  exact (List.getElem?_take_of_lt hi).symm

namespace CatalogCache

/-- **The cache agrees with the catalog.** The bundles hold their entries and follow one another
in block order, and the active bundle is one of the collection whose files are those mapped. -/
structure Valid (s : CatalogCache) : Prop where
  holds : ∀ b ∈ s.catalog.collection, b.Holds
  ordered : s.catalog.collection.Pairwise fun b b' => b.lastBlock < b'.firstBlock
  active : ∀ i, s.activeIndex = some i →
    ∃ b, s.catalog.collection[i]? = some b ∧ s.logData.log = b.log ∧ s.logIndex = b.index

variable {s : CatalogCache}

theorem Valid.activeItem (hs : s.Valid) {a : LogBundle} (ha : s.activeItem = some a) :
    a ∈ s.catalog.collection ∧ s.logData.log = a.log ∧ s.logIndex = a.index := by
  obtain ⟨i, hi, hai⟩ := Option.bind_eq_some_iff.mp ha
  obtain ⟨b, hb, hlog, hindex⟩ := hs.active i hi
  rw [hb, Option.some.injEq] at hai
  subst hai
  exact ⟨List.mem_of_getElem? hb, hlog, hindex⟩

/-- The bundle `get_block_position` maps: the last that starts at or before the block. Every
other bundle that does ends before it starts. -/
theorem Valid.getLast_takeWhile (hs : s.Valid) {n : UInt32} {it : LogBundle}
    (hit : (s.catalog.collection.takeWhile (·.firstBlock ≤ n)).getLast? = some it) :
    it ∈ s.catalog.collection ∧ it.firstBlock ≤ n ∧
      ∀ b ∈ s.catalog.collection, b.firstBlock ≤ n → b = it ∨ b.lastBlock < it.firstBlock := by
  have hmem : it ∈ s.catalog.collection.takeWhile (·.firstBlock ≤ n) :=
    List.mem_of_getLast? hit
  -- the bundles starting at or before the block are a front of the collection
  have hfilter : s.catalog.collection.takeWhile (·.firstBlock ≤ n) =
      s.catalog.collection.filter (·.firstBlock ≤ n) := by
    refine OrderedIndex.takeWhile_eq_filter
      ((firstBlock_increasing hs.holds hs.ordered).imp fun hlt hle => ?_)
    simp only [decide_eq_true_eq] at hle ⊢
    exact UInt32.le_of_lt (UInt32.lt_of_lt_of_le hlt hle)
  refine ⟨(List.takeWhile_sublist _).subset hmem, by simpa using List.mem_takeWhile_imp hmem,
    fun b hb hbn => ?_⟩
  have hbelow : b ∈ s.catalog.collection.takeWhile (·.firstBlock ≤ n) := by
    rw [hfilter]
    exact List.mem_filter.mpr ⟨hb, by simpa using hbn⟩
  exact eq_or_rel_getLast (hs.ordered.sublist (List.takeWhile_sublist _)) hit b hbelow


/-- **The second half of a lookup** reads the bundle that holds the block, and leaves the cache on
the bundle it maps. -/
theorem Valid.mapBundleFor (hs : s.Valid) (n : UInt32) (mode : MapMode) :
    (s.mapBundleFor n mode).1 = s.catalog.blockPosition n ∧ (s.mapBundleFor n mode).2.Valid := by
  unfold CatalogCache.mapBundleFor
  cases hhead : s.catalog.collection.head? with
  | none =>
    have hnil : s.catalog.collection = [] := List.head?_eq_none_iff.mp hhead
    exact ⟨(LogCatalog.blockPosition_of_not_covers (by simp [hnil])).symm, hs⟩
  | some first =>
    obtain ⟨rest, hcoll⟩ : ∃ rest, s.catalog.collection = first :: rest :=
      List.head?_eq_some_iff.mp hhead
    dsimp only
    by_cases hlt : n < first.firstBlock
    · -- every bundle starts after the block
      rw [if_pos hlt]
      refine ⟨(LogCatalog.blockPosition_of_not_covers fun b hb => ?_).symm, hs⟩
      have hfirst : first.firstBlock ≤ b.firstBlock := by
        have hinc := firstBlock_increasing hs.holds hs.ordered
        rw [hcoll] at hinc hb
        rcases List.mem_cons.mp hb with rfl | hb
        · exact UInt32.le_refl _
        · exact UInt32.le_of_lt (List.rel_of_pairwise_cons hinc hb)
      simp only [LogBundle.covers, decide_eq_false_iff_not, not_and]
      exact fun hle => absurd (UInt32.lt_of_lt_of_le hlt hfirst) (UInt32.not_lt.mpr hle)
    rw [if_neg hlt]
    cases hit : (s.catalog.collection.takeWhile (·.firstBlock ≤ n)).getLast? with
    | none =>
      -- the first bundle starts at or before the block
      rw [List.getLast?_eq_none_iff, hcoll,
        List.takeWhile_cons_of_pos (by simpa using UInt32.not_lt.mp hlt)] at hit
      cases hit
    | some it =>
      dsimp only
      obtain ⟨hmem, hitn, hlast⟩ := hs.getLast_takeWhile hit
      by_cases hle : n ≤ it.lastBlock
      · -- `it` holds the block: its word is read, and it becomes the active bundle
        rw [if_pos hle]
        have hc : it.covers n = true := LogBundle.covers_iff.mpr ⟨hitn, hle⟩
        refine ⟨?_, ⟨hs.holds, hs.ordered, fun i hi => ⟨it, ?_, rfl, rfl⟩⟩⟩
        · rw [(hs.holds it hmem).firstBlockNum mode,
            LogCatalog.blockPosition_of_covers hs.holds hs.ordered hmem hc]
        · cases hi
          have hne : s.catalog.collection.takeWhile (·.firstBlock ≤ n) ≠ [] := by
            rintro h
            rw [h] at hit
            cases hit
          rw [getElem?_eq_of_isPrefix_of_lt (List.takeWhile_prefix _)
            (Nat.sub_lt (List.length_pos_of_ne_nil hne) Nat.one_pos), ← List.getLast?_eq_getElem?, hit]
      · -- a bundle holding the block would be `it`, or end before it starts
        rw [if_neg hle]
        refine ⟨(LogCatalog.blockPosition_of_not_covers fun b hb => ?_).symm, hs⟩
        by_contra hc
        rw [Bool.not_eq_false, LogBundle.covers_iff] at hc
        rcases hlast b hb hc.1 with rfl | hbefore
        · exact hle hc.2
        · exact UInt32.not_lt.mpr hc.2 (UInt32.lt_of_lt_of_le hbefore hitn)

/-- **A lookup reads the bundle that holds the block, whether from the cache or not**, and keeps
the cache valid. -/
theorem Valid.getBlockPosition (hs : s.Valid) (n : UInt32) (mode : MapMode) :
    (s.getBlockPosition n mode).1 = s.catalog.blockPosition n ∧
      (s.getBlockPosition n mode).2.Valid := by
  unfold CatalogCache.getBlockPosition
  cases hactive : s.activeItem with
  | none => exact hs.mapBundleFor n mode
  | some a =>
    dsimp only
    by_cases hhit : a.firstBlock ≤ n ∧ n ≤ a.lastBlock ∧ s.logData.flags = mode
    · -- the cached files are those of the active bundle, which holds the block
      rw [if_pos hhit]
      obtain ⟨hmem, hlog, hindex⟩ := hs.activeItem hactive
      have hfirst : s.logData.firstBlockNum = a.firstBlock := by
        rw [← (hs.holds a hmem).firstBlockNum s.logData.flags, ← hlog]
      refine ⟨?_, hs⟩
      rw [hfirst, hindex, LogCatalog.blockPosition_of_covers hs.holds hs.ordered hmem
        (LogBundle.covers_iff.mpr ⟨hhit.1, hhit.2.1⟩)]
    · rw [if_neg hhit]
      exact hs.mapBundleFor n mode


/-! ### `add` -/

/-- The number of bundles `add` drops. -/
def droppedByAdd (c : LogCatalog) : ℕ :=
  if c.maxRetainedFiles.toNat ≤ c.collection.length then
    if 0 < c.maxRetainedFiles then c.collection.length - c.maxRetainedFiles.toNat + 1
    else c.collection.length
  else 0

/-- `add` keeps the bundles after those it drops, and appends a bundle that starts after them all
when it retains files. -/
theorem add_collection_eq (c : LogCatalog) {bundle : LogBundle}
    (h : ∀ b ∈ c.collection, b.firstBlock < bundle.firstBlock) :
    (c.add bundle).collection =
      c.collection.drop (droppedByAdd c) ++ (if 0 < c.maxRetainedFiles then [bundle] else []) := by
  have hkept : (if c.maxRetainedFiles.toNat ≤ c.collection.length then
      c.collection.drop (if 0 < c.maxRetainedFiles then
        c.collection.length - c.maxRetainedFiles.toNat + 1 else c.collection.length)
      else c.collection) = c.collection.drop (droppedByAdd c) := by
    unfold droppedByAdd
    split
    · rfl
    · rw [List.drop_zero]
  unfold LogCatalog.add
  rw [hkept]
  split
  · -- the new bundle is not there, and goes after every bundle kept
    have hlt : ∀ b ∈ c.collection.drop (droppedByAdd c), b.firstBlock < bundle.firstBlock :=
      fun b hb => h b ((List.drop_sublist _ _).subset hb)
    have hnew : ¬ ((c.collection.drop (droppedByAdd c)).any
        fun b => b.firstBlock = bundle.firstBlock) = true := by
      simp only [List.any_eq_true, decide_eq_true_eq, not_exists, not_and]
      exact fun b hb heq => absurd (hlt b hb) (by rw [heq]; exact UInt32.lt_irrefl _)
    simp only [LogCatalog.emplace]
    rw [if_neg hnew, LogCatalog.orderedInsert_eq_append hlt]
  · rw [List.append_nil]

theorem getElem?_drop_append {α : Type*} {l t : List α} {k j : ℕ} (hk : k ≤ j)
    (hj : j < l.length) : (l.drop k ++ t)[j - k]? = l[j]? := by
  rw [List.getElem?_append_left (by rw [List.length_drop]; omega), List.getElem?_drop,
    Nat.add_sub_cancel' hk]

/-- **`add` of a bundle after the others keeps the cache valid**: `active_index` moves back over
the bundles dropped, onto the same bundle. -/
theorem Valid.add (hs : s.Valid) {bundle : LogBundle} (hholds : bundle.Holds)
    (hafter : ∀ b ∈ s.catalog.collection, b.lastBlock < bundle.firstBlock) : (s.add bundle).Valid := by
  have hlt : ∀ b ∈ s.catalog.collection, b.firstBlock < bundle.firstBlock := fun b hb =>
    UInt32.lt_of_le_of_lt (hs.holds b hb).firstBlock_le (hafter b hb)
  have hcoll : (s.add bundle).catalog.collection = s.catalog.collection.drop (droppedByAdd s.catalog) ++
      (if 0 < s.catalog.maxRetainedFiles then [bundle] else []) := add_collection_eq s.catalog hlt
  have hkept := List.drop_sublist (droppedByAdd s.catalog) s.catalog.collection
  have htail : ∀ b ∈ (if 0 < s.catalog.maxRetainedFiles then [bundle] else []), b = bundle := by
    intro b hb
    split at hb
    · exact List.mem_singleton.mp hb
    · cases hb
  refine ⟨fun b hb => ?_, ?_, fun i hi => ?_⟩
  · rw [hcoll] at hb
    rcases List.mem_append.mp hb with hb | hb
    · exact hs.holds b (hkept.subset hb)
    · rw [htail b hb]
      exact hholds
  · rw [hcoll, List.pairwise_append]
    refine ⟨hs.ordered.sublist hkept, ?_, fun b hb b' hb' => ?_⟩
    · split
      · exact List.pairwise_singleton _ _
      · exact List.Pairwise.nil
    · rw [htail b' hb']
      exact hafter b (hkept.subset hb)
  · -- the active bundle is found again past the dropped ones
    rw [hcoll]
    simp only [CatalogCache.add] at hi
    by_cases hmax : s.catalog.maxRetainedFiles.toNat ≤ s.catalog.collection.length
    · have hk : (if 0 < s.catalog.maxRetainedFiles then
            s.catalog.collection.length - s.catalog.maxRetainedFiles.toNat + 1
          else s.catalog.collection.length) = droppedByAdd s.catalog := by
        unfold droppedByAdd
        rw [if_pos hmax]
      rw [if_pos hmax, hk] at hi
      obtain ⟨j, hj, hij⟩ := Option.bind_eq_some_iff.mp hi
      by_cases hjk : j < droppedByAdd s.catalog
      · rw [if_pos hjk] at hij
        cases hij
      · rw [if_neg hjk, Option.some.injEq] at hij
        subst hij
        obtain ⟨b, hb, hlog, hindex⟩ := hs.active j hj
        refine ⟨b, ?_, hlog, hindex⟩
        rw [getElem?_drop_append (Nat.le_of_not_lt hjk) (List.getElem?_eq_some_iff.mp hb).1, hb]
    · have hk : droppedByAdd s.catalog = 0 := by
        unfold droppedByAdd
        rw [if_neg hmax]
      rw [if_neg hmax] at hi
      obtain ⟨b, hb, hlog, hindex⟩ := hs.active i hi
      refine ⟨b, ?_, hlog, hindex⟩
      rw [hk, List.drop_zero, List.getElem?_append_left (List.getElem?_eq_some_iff.mp hb).1, hb]


/-! ### `truncate` -/

/-- The bundles `truncate` keeps are a front of the collection. -/
theorem truncate_prefix (c : LogCatalog) (n : UInt32) :
    (c.truncate n).1.collection <+: c.collection := by
  unfold LogCatalog.truncate
  dsimp only
  split
  · exact List.nil_prefix
  · split
    · exact List.takeWhile_prefix _
    · exact (List.dropLast_prefix _).trans (List.takeWhile_prefix _)

/-- **`truncate` keeps the cache valid when the active bundle stays.** It leaves `active_index`
as it was, which names the same bundle exactly when that bundle is kept. -/
theorem Valid.truncate (hs : s.Valid) (n : UInt32)
    (hkeep : ∀ i, s.activeIndex = some i → i < (s.truncate n).1.catalog.collection.length) :
    (s.truncate n).1.Valid := by
  have hpre := truncate_prefix s.catalog n
  refine ⟨fun b hb => hs.holds b (hpre.subset hb), hs.ordered.sublist hpre.sublist,
    fun i hi => ?_⟩
  obtain ⟨b, hb, hlog, hindex⟩ := hs.active i hi
  refine ⟨b, ?_, hlog, hindex⟩
  rw [← hb]
  exact (getElem?_eq_of_isPrefix_of_lt hpre (hkeep i hi)).symm

/-! ### `open` -/



/-- An insertion in start order of a bundle apart from the others keeps the bundles in block
order. -/
theorem ordered_orderedInsert {l : List LogBundle} {x : LogBundle} (hholds : ∀ b ∈ l, b.Holds)
    (hord : l.Pairwise fun b b' => b.lastBlock < b'.firstBlock) (hx : x.Holds)
    (hapart : ∀ b ∈ l, x.Apart b) :
    (l.orderedInsert (fun a b => a.firstBlock ≤ b.firstBlock) x).Pairwise
      fun b b' => b.lastBlock < b'.firstBlock := by
  induction l with
  | nil => exact List.pairwise_singleton _ _
  | cons a l ih =>
    obtain ⟨ha, hl⟩ := List.pairwise_cons.mp hord
    have hxa := hapart a List.mem_cons_self
    have hwa := (hholds a List.mem_cons_self).firstBlock_le
    have hwx := hx.firstBlock_le
    rw [List.orderedInsert_cons]
    split
    · -- `x` goes before `a`, so it ends before `a` starts
      next hle =>
      have hbefore : x.lastBlock < a.firstBlock := by
        unfold LogBundle.Apart at hxa
        simp only [UInt32.lt_iff_toNat_lt, UInt32.le_iff_toNat_le] at hxa hle hwa hwx ⊢
        omega
      refine List.pairwise_cons.mpr ⟨fun b hb => ?_, hord⟩
      rcases List.mem_cons.mp hb with rfl | hb
      · exact hbefore
      · exact UInt32.lt_trans hbefore (UInt32.lt_of_le_of_lt hwa (ha b hb))
    · -- `x` goes after `a`, so `a` ends before it starts
      next hle =>
      have hafter : a.lastBlock < x.firstBlock := by
        unfold LogBundle.Apart at hxa
        simp only [UInt32.lt_iff_toNat_lt, UInt32.le_iff_toNat_le] at hxa hle hwa hwx ⊢
        omega
      refine List.pairwise_cons.mpr ⟨fun b hb => ?_,
        ih (fun b hb => hholds b (List.mem_cons_of_mem a hb)) hl
          (fun b hb => hapart b (List.mem_cons_of_mem a hb))⟩
      rcases (List.mem_orderedInsert _).mp hb with rfl | hb
      · exact hafter
      · exact ha b hb

/-- A file apart from every bundle is inserted in start order: no bundle starts where it does. -/
theorem openFile_of_apart {l : List LogBundle} {x : LogBundle} (hholds : ∀ b ∈ l, b.Holds)
    (hx : x.Holds) (hapart : ∀ b ∈ l, x.Apart b) :
    openFile l x = l.orderedInsert (fun a b => a.firstBlock ≤ b.firstBlock) x := by
  have hne : ∀ b ∈ l, b.firstBlock ≠ x.firstBlock := by
    intro b hb heq
    have hxb := hapart b hb
    have hwb := (hholds b hb).firstBlock_le
    have hwx := hx.firstBlock_le
    unfold LogBundle.Apart at hxb
    rw [← UInt32.toNat_inj] at heq
    simp only [UInt32.lt_iff_toNat_lt, UInt32.le_iff_toNat_le] at hxb hwb hwx
    omega
  have hfind : l.find? (·.firstBlock = x.firstBlock) = none :=
    List.find?_eq_none.mpr fun b hb => by simpa using hne b hb
  have hany : ¬ (l.any fun b => b.firstBlock = x.firstBlock) = true := by
    simpa using hne
  rw [openFile, hfind]
  exact if_neg hany

/-- **`open` on files that hold their entries and are apart** leaves the bundles in block
order, by induction on the files. -/
theorem ordered_foldl_openFile (files : List LogBundle) (hfiles : ∀ f ∈ files, f.Holds)
    (hapart : files.Pairwise LogBundle.Apart) :
    ∀ l : List LogBundle, (∀ b ∈ l, b.Holds) →
      (l.Pairwise fun b b' => b.lastBlock < b'.firstBlock) → (∀ f ∈ files, ∀ b ∈ l, f.Apart b) →
      (∀ b ∈ files.foldl openFile l, b.Holds) ∧
        (files.foldl openFile l).Pairwise fun b b' => b.lastBlock < b'.firstBlock := by
  induction files with
  | nil => exact fun l hl hord _ => ⟨hl, hord⟩
  | cons f files ih =>
    intro l hl hord hfl
    obtain ⟨hf, hrest⟩ := List.pairwise_cons.mp hapart
    have hholds := hfiles f List.mem_cons_self
    rw [List.foldl_cons, openFile_of_apart hl hholds (hfl f List.mem_cons_self)]
    refine ih (fun g hg => hfiles g (List.mem_cons_of_mem f hg)) hrest _ ?_
      (ordered_orderedInsert hl hord hholds (hfl f List.mem_cons_self)) ?_
    · intro b hb
      rcases (List.mem_orderedInsert _).mp hb with rfl | hb
      · exact hholds
      · exact hl b hb
    · -- a later file is apart from `f`, and from the bundles before
      intro g hg b hb
      rcases (List.mem_orderedInsert _).mp hb with rfl | hb
      · exact (hf g hg).symm
      · exact hfl g (List.mem_cons_of_mem f hg) b hb

/-- **`open` keeps the cache valid**, on a catalog with nothing mapped and files that hold their
entries and are apart from each other and from the bundles. -/
theorem Valid.openCatalog (hs : s.Valid) (hnone : s.activeIndex = none) (files : List LogBundle)
    (hfiles : ∀ f ∈ files, f.Holds) (hapart : files.Pairwise LogBundle.Apart)
    (hcoll : ∀ f ∈ files, ∀ b ∈ s.catalog.collection, f.Apart b) : (s.openCatalog files).Valid := by
  obtain ⟨hholds, hord⟩ :=
    ordered_foldl_openFile files hfiles hapart _ hs.holds hs.ordered hcoll
  exact ⟨hholds, hord, fun i hi => absurd (hnone.symm.trans hi) (by simp)⟩


end CatalogCache

/-! ### Runs -/

/-- The calls on a catalog after `open`. -/
inductive CatalogCall
  | add (bundle : LogBundle)
  | truncate (blockNum : UInt32)
  | getBlockPosition (blockNum : UInt32) (mode : MapMode)

namespace CatalogCall

/-- A call on the catalog. -/
def apply : CatalogCall → CatalogCache → CatalogCache
  | add bundle, s => s.add bundle
  | truncate blockNum, s => (s.truncate blockNum).1
  | getBlockPosition blockNum mode, s => (s.getBlockPosition blockNum mode).2

/-- What a call needs of the catalog it is made on: `add` a bundle that holds its entries after
the others, as `split_log` adds them, and `truncate` keeping the active bundle. -/
def Allowed (s : CatalogCache) : CatalogCall → Prop
  | add bundle => bundle.Holds ∧ ∀ b ∈ s.catalog.collection, b.lastBlock < bundle.firstBlock
  | truncate blockNum =>
    ∀ i, s.activeIndex = some i → i < (s.truncate blockNum).1.catalog.collection.length
  | getBlockPosition _ _ => True

/-- Each allowed call keeps the cache valid. -/
theorem valid_apply {s : CatalogCache} (hs : s.Valid) (call : CatalogCall) (h : call.Allowed s) :
    (call.apply s).Valid := by
  cases call with
  | add bundle => exact hs.add h.1 h.2
  | truncate blockNum => exact hs.truncate blockNum h
  | getBlockPosition blockNum mode => exact (hs.getBlockPosition blockNum mode).2

end CatalogCall

namespace CatalogCache

/-- The catalog after the calls. -/
def runCalls (s : CatalogCache) (calls : List CatalogCall) : CatalogCache :=
  calls.foldl (fun s call => call.apply s) s

/-- Each call is allowed on the catalog it is made on. -/
def AllowedRun : CatalogCache → List CatalogCall → Prop
  | _, [] => True
  | s, call :: calls => call.Allowed s ∧ AllowedRun (call.apply s) calls

/-- **A run of allowed calls keeps the cache valid**, by induction on the calls. -/
theorem Valid.runCalls {s : CatalogCache} (hs : s.Valid) (calls : List CatalogCall)
    (h : AllowedRun s calls) : (s.runCalls calls).Valid := by
  induction calls generalizing s with
  | nil => exact hs
  | cons call calls ih => exact ih (call.valid_apply hs h.1) h.2

/-- **Every lookup of a run reads the bundle that holds the block.** After `open` on files that
hold their entries and do not overlap, and a run of allowed calls, the bundles are in block order,
and `get_block_position(b)` in either mode returns a position exactly when a bundle holds `b`
(only one does), the index word of `b` in that bundle, and nothing when no bundle holds `b`. -/
theorem getBlockPosition_run (maxRetainedFiles : UInt32) (files : List LogBundle)
    (hfiles : ∀ f ∈ files, f.Holds) (hapart : files.Pairwise LogBundle.Apart)
    (calls : List CatalogCall) (hcalls : AllowedRun ((empty maxRetainedFiles).openCatalog files) calls) :
    let s := ((empty maxRetainedFiles).openCatalog files).runCalls calls
    (s.catalog.collection.Pairwise fun b b' => b.lastBlock < b'.firstBlock) ∧
      ∀ n mode, (∀ p, (s.getBlockPosition n mode).1 = some p ↔ ∃ b ∈ s.catalog.collection,
          b.covers n = true ∧ nthBlockPosition b.index (n - b.firstBlock) = some p) ∧
        ((s.getBlockPosition n mode).1 = none ↔ ∀ b ∈ s.catalog.collection, b.covers n = false) := by
  intro s
  have hempty : (empty maxRetainedFiles).Valid := ⟨nofun, List.Pairwise.nil, nofun⟩
  have hopen := hempty.openCatalog rfl files hfiles hapart nofun
  have hs : s.Valid := hopen.runCalls calls hcalls
  refine ⟨hs.ordered, fun n mode => ?_⟩
  rw [(hs.getBlockPosition n mode).1]
  exact LogCatalog.blockPosition_spec hs.holds hs.ordered n

/-- The bundle of the `count` blocks from `first`, with empty payloads. -/
def emptyPayloadBundle (first count : ℕ) : LogBundle :=
  let es : List LogEntry := (List.range count).map fun k =>
    ⟨shipMagic shipCurrentVersion, blockIdOf (first + k) 0, []⟩
  ⟨first.toUInt32, (first + count - 1).toUInt32, encodeEntries 0 es,
    (entryOffsets 0 es).map Nat.toUInt64⟩

/-- After bundles of block 1 and of blocks 2 to 4 are opened: block 3 is looked up, which maps the
second bundle; `truncate(1)` erases both; bundles of block 3 and of block 4 are added. -/
def staleRun : List CatalogCall :=
  [.getBlockPosition 3 .readonly, .truncate 1, .add (emptyPayloadBundle 3 1),
    .add (emptyPayloadBundle 4 1)]

/-- **A lookup after `truncate` reads the files of an erased bundle.** At the end of `staleRun`
`active_index` is 1, now the bundle of block 4, while the mapped files are still those of blocks
2 to 4: the lookup of block 4 returns 112, the position of block 4 in the erased files, where the
bundle holding block 4 has it at 0. -/
theorem getBlockPosition_stale :
    let s := ((empty 10).openCatalog [emptyPayloadBundle 1 1, emptyPayloadBundle 2 3]).runCalls
      staleRun
    (s.getBlockPosition 4 .readonly).1 = some 112 ∧ s.catalog.blockPosition 4 = some 0 := by
  decide

end CatalogCache

end Eosio
