import Mathlib
import TaurusNode.ChainKv.KeyOrder
import TaurusNode.Lib.SortedMap

/-!
# The view iterator of chain_kv

A model of `chain_kv::view` and `view::iterator_impl`
(libraries/chain_kv/include/b1/chain_kv/chain_kv.hpp) over a write session's cache.

The cache (`cache_map`, a `std::map` ordered by `compare_blob`) and the rocksdb snapshot the
session reads are sorted maps over the keys of `KeyOrder`. An iterator of either is the key it is
at, `none` for `cache.end()` or an invalid rocksdb iterator; `Seek`, `Next` and `Prev` of rocksdb
and `lower_bound`, `++` and `--` of the map are the navigations of `SortedMap`.

The iterator walks the cache and the rocksdb iterator in lock-step. Before the cache iterator
moves past a key, the rocksdb iterator is moved past it too and every key it reaches is put in
the cache (`fill_cache`), so that a key of the database between the two is never skipped; the
cache iterator stops only at an entry with a current value, and the result is the end when it
leaves the range of the iterator's prefix (`next_prefix` above, `prefix` below).

Each loop of the source runs here on fuel; `walkFuel` (one more than the keys of the cache and of
the database) is enough for each, which `ViewWalk` proves. Where the source would dereference an
end iterator, which the database's sentinel keys rule out, the model stops at the end.

Left out: `write_session`'s change list (it records what `write_changes` writes, not what an
iterator reads) and the iterator's `view` reference (one view throughout).
-/

namespace B1.ChainKv

/-- `cached_value`: the count of erases that invalidates iterators at its key, the value in the
database when it was read, and the value now. -/
structure CacheEntry where
  numErases : UInt64
  origValue : Option Bytes
  currentValue : Option Bytes
deriving DecidableEq, Repr

/-- `cache_map`. -/
abbrev CacheMap := SortedMap Bytes CacheEntry

/-- The rocksdb snapshot a write session reads. -/
abbrev RocksDb := SortedMap Bytes Bytes

/-- `database`'s constructor writes the sentinel keys `0x00` and `0xff`, with empty values, when
they are missing. -/
def writeSentinels (content : RocksDb) : RocksDb :=
  (content.insert [0x00] []).insert [0xff] []

/-! ### The write session's cache -/

namespace CacheMap

variable (db : RocksDb) (cache : CacheMap)

/-- The current value of a cached key. -/
def valueAt (k : Bytes) : Option Bytes :=
  (cache.find? k).bind (·.currentValue)

/-- The erase count of a cached key. -/
def numErasesAt (k : Bytes) : UInt64 :=
  ((cache.find? k).map (·.numErases)).getD 0

/-- `write_session::set(k, v)`: a cached key changes when it has no value or another one; an
uncached key is read from the database first. -/
def set (k v : Bytes) : CacheMap :=
  match cache.find? k with
  | some e =>
    if e.currentValue = none ∨ e.currentValue ≠ some v then
      cache.upsert k { e with currentValue := some v }
    else cache
  | none =>
    match db.find? k with
    | none => cache.upsert k ⟨0, none, some v⟩
    | some origV =>
      if v ≠ origV then cache.upsert k ⟨0, some origV, some v⟩
      else cache.upsert k ⟨0, some origV, some origV⟩

/-- `write_session::erase(k)`: erasing a value bumps `num_erases`, which invalidates the iterators
at the key. -/
def erase (k : Bytes) : CacheMap :=
  match cache.find? k with
  | some e =>
    if e.currentValue.isSome then
      cache.upsert k { e with numErases := e.numErases + 1, currentValue := none }
    else cache
  | none =>
    match db.find? k with
    | none => cache.upsert k ⟨0, none, none⟩
    | some origV => cache.upsert k ⟨1, some origV, none⟩

/-- `write_session::fill_cache(k, v)`: an entry read from the database, unless the key has one. -/
def fillCache (k v : Bytes) : CacheMap :=
  cache.insert k ⟨0, some v, some v⟩

/-- `fill_cache(rocks_it->key(), rocks_it->value())` at a position of the rocksdb iterator. -/
def fillAt : Option Bytes → CacheMap
  | some k =>
    match db.find? k with
    | some v => cache.fillCache k v
    | none => cache
  | none => cache

end CacheMap

/-! ### Views -/

/-- `view`: its prefix is not empty and starts with neither sentinel byte. -/
structure View where
  viewPrefix : Bytes
  valid : ∃ b rest, viewPrefix = b :: rest ∧ b ≠ 0x00 ∧ b ≠ 0xff

/-- The constructor of `view`, with its checks. -/
def View.create : Bytes → Except String View
  | [] => throw "kv view may not have empty prefix"
  | b :: rest =>
    if h : b = 0x00 ∨ b = 0xff then
      throw "view may not have a prefix which begins with 0x00 or 0xff"
    else pure ⟨b :: rest, b, rest, rfl, fun h0 => h (.inl h0), fun hff => h (.inr hff)⟩

/-- The writes through a view. -/
inductive ViewOp
  /-- `set(contract, k, v)`. -/
  | set (contract : UInt64) (k v : Bytes)
  /-- `erase(contract, k)`. -/
  | erase (contract : UInt64) (k : Bytes)
deriving DecidableEq, Repr

namespace View

variable (view : View) (db : RocksDb)

/-- One write through the view, on the full key. -/
def apply (cache : CacheMap) : ViewOp → CacheMap
  | .set contract k v => CacheMap.set db cache (createFullKey view.viewPrefix contract k) v
  | .erase contract k => CacheMap.erase db cache (createFullKey view.viewPrefix contract k)

/-- The cache of a new write session after writes through the view, in order. -/
def run (ops : List ViewOp) : CacheMap :=
  ops.foldl (view.apply db) SortedMap.empty

end View

/-! ### The iterator -/

/-- `view::iterator_impl`. `prefix` is a keyword of Lean, so the full prefix is `keyPrefix`. -/
structure IteratorImpl where
  keyPrefix : Bytes
  hiddenPrefixSize : ℕ
  nextPrefix : Bytes
  cacheIt : Option Bytes
  cacheItNumErases : UInt64
  rocksIt : Option Bytes
deriving DecidableEq, Repr

/-- Enough fuel for each loop of the iterator. -/
def walkFuel (db : RocksDb) (cache : CacheMap) : ℕ :=
  cache.keys.length + db.keys.length + 1

namespace IteratorImpl

variable (db : RocksDb)

/-- The inner loop of `lower_bound_full_key` and `operator++`:
`while (compare_blob(rocks_it->key(), cache_it->first) <= 0) { rocks_it->Next(); fill_cache(...); }`. -/
def nextWhileLe (c : Bytes) : ℕ → CacheMap → Option Bytes → CacheMap × Option Bytes
  | 0, cache, r => (cache, r)
  | _ + 1, cache, none => (cache, none)
  | fuel + 1, cache, some rk =>
    if rk ≤ c then
      nextWhileLe c fuel (CacheMap.fillAt db cache (db.firstGt rk)) (db.firstGt rk)
    else (cache, some rk)

/-- The inner loop of `operator--`:
`while (compare_blob(rocks_it->key(), cache_it->first) >= 0) { rocks_it->Prev(); fill_cache(...); }`. -/
def prevWhileGe (c : Bytes) : ℕ → CacheMap → Option Bytes → CacheMap × Option Bytes
  | 0, cache, r => (cache, r)
  | _ + 1, cache, none => (cache, none)
  | fuel + 1, cache, some rk =>
    if c ≤ rk then
      prevWhileGe c fuel (CacheMap.fillAt db cache (db.lastLt rk)) (db.lastLt rk)
    else (cache, some rk)

/-- One pass of the body of the forward loops: the rocksdb iterator passes the cache iterator's
key, then `++cache_it`. -/
def stepForward (cache : CacheMap) (c : Bytes) (r : Option Bytes) :
    CacheMap × Option Bytes × Option Bytes :=
  let q := nextWhileLe db c (db.keys.length + 1) cache r
  (q.1, q.1.firstGt c, q.2)

/-- One pass of the body of `operator--`'s loop: the rocksdb iterator passes below the cache
iterator's key, then `--cache_it`. -/
def stepBackward (cache : CacheMap) (c : Bytes) (r : Option Bytes) :
    CacheMap × Option Bytes × Option Bytes :=
  let q := prevWhileGe db c (db.keys.length + 1) cache r
  (q.1, q.1.lastLt c, q.2)

/-- `while (!cache_it->second.current_value) { <stepForward> }`. -/
def skipForward : ℕ → CacheMap → Bytes → Option Bytes → CacheMap × Option Bytes × Option Bytes
  | 0, cache, c, r => (cache, some c, r)
  | fuel + 1, cache, c, r =>
    if (CacheMap.valueAt cache c).isSome then (cache, some c, r)
    else
      let q := stepForward db cache c r
      match q.2.1 with
      | some c' => skipForward fuel q.1 c' q.2.2
      | none => (q.1, none, q.2.2)

/-- `while (!cache_it->second.current_value) { <stepBackward> }`, the test of `operator--`'s
`do … while`. -/
def skipBackward : ℕ → CacheMap → Bytes → Option Bytes → CacheMap × Option Bytes × Option Bytes
  | 0, cache, c, r => (cache, some c, r)
  | fuel + 1, cache, c, r =>
    if (CacheMap.valueAt cache c).isSome then (cache, some c, r)
    else
      let q := stepBackward db cache c r
      match q.2.1 with
      | some c' => skipBackward fuel q.1 c' q.2.2
      | none => (q.1, none, q.2.2)

variable (it : IteratorImpl)

/-- The end of the forward moves: a position at or past `next_prefix` is the end; otherwise the
iterator remembers the erase count of its entry. -/
def settleForward (cache : CacheMap) (c r : Option Bytes) : IteratorImpl :=
  match c with
  | some c =>
    if it.nextPrefix ≤ c then { it with cacheIt := none, rocksIt := r }
    else { it with cacheIt := some c, cacheItNumErases := cache.numErasesAt c, rocksIt := r }
  | none => { it with cacheIt := none, rocksIt := r }

/-- The end of `operator--`: a position below `prefix` is the end. -/
def settleBackward (cache : CacheMap) (c r : Option Bytes) : IteratorImpl :=
  match c with
  | some c =>
    if c < it.keyPrefix then { it with cacheIt := none, rocksIt := r }
    else { it with cacheIt := some c, cacheItNumErases := cache.numErasesAt c, rocksIt := r }
  | none => { it with cacheIt := none, rocksIt := r }

/-- The first cache position of a seek: the entry `fill_cache` returns at the rocksdb iterator's
key, or the cache's `lower_bound` when that key is another one. -/
def seekCache (cache : CacheMap) (key : Bytes) (r : Option Bytes) : Option Bytes :=
  if r = some key then r else cache.firstGe key

/-- `lower_bound_full_key(full_key)`. -/
def lowerBoundFullKey (cache : CacheMap) (fullKey : Bytes) : CacheMap × IteratorImpl :=
  let r := db.firstGe fullKey
  let cache := CacheMap.fillAt db cache r
  match seekCache cache fullKey r with
  | none => (cache, { it with cacheIt := none, rocksIt := r })
  | some c =>
    let w := skipForward db (walkFuel db cache) cache c r
    (w.1, it.settleForward w.1 w.2.1 w.2.2)

/-- `move_to_begin()`. -/
def moveToBegin (cache : CacheMap) : CacheMap × IteratorImpl :=
  it.lowerBoundFullKey db cache it.keyPrefix

/-- `move_to_end()`. -/
def moveToEnd : IteratorImpl :=
  { it with cacheIt := none }

/-- `lower_bound(key)`: a key below the user's prefix is raised to it. -/
def lowerBound (cache : CacheMap) (key : Bytes) : CacheMap × IteratorImpl :=
  let userPrefix := it.keyPrefix.drop it.hiddenPrefixSize
  let key := if key < userPrefix then userPrefix else key
  it.lowerBoundFullKey db cache (it.keyPrefix.take it.hiddenPrefixSize ++ key)

/-- `is_end()`. -/
def isEnd : Bool :=
  it.cacheIt.isNone

/-- `get_kv()`: the key without the hidden prefix, and the current value. -/
def getKv (cache : CacheMap) : Except String (Option (Bytes × Bytes)) :=
  match it.cacheIt with
  | none => pure none
  | some c =>
    if it.cacheItNumErases ≠ cache.numErasesAt c then throw "kv iterator is at an erased value"
    else pure (some (c.drop it.hiddenPrefixSize, (cache.valueAt c).getD []))

/-- The `do … while` of `operator++` from the cache position `c`, and the end check. -/
def advance (cache : CacheMap) (c : Bytes) : CacheMap × IteratorImpl :=
  let q := stepForward db cache c it.rocksIt
  match q.2.1 with
  | none => (q.1, { it with cacheIt := none, rocksIt := q.2.2 })
  | some c' =>
    let w := skipForward db (walkFuel db q.1) q.1 c' q.2.2
    (w.1, it.settleForward w.1 w.2.1 w.2.2)

/-- `operator++`: from the end it moves to the beginning. -/
def plusPlus (cache : CacheMap) : Except String (CacheMap × IteratorImpl) :=
  match it.cacheIt with
  | none => pure (it.moveToBegin db cache)
  | some c =>
    if it.cacheItNumErases ≠ cache.numErasesAt c then throw "kv iterator is at an erased value"
    else pure (it.advance db cache c)

/-- The `do … while` of `operator--` from the cache position `c` with the rocksdb iterator at
`r`, and the end check. -/
def retreat (cache : CacheMap) (c : Bytes) (r : Option Bytes) : CacheMap × IteratorImpl :=
  let q := stepBackward db cache c r
  match q.2.1 with
  | none => (q.1, { it with cacheIt := none, rocksIt := q.2.2 })
  | some c' =>
    let w := skipBackward db (walkFuel db q.1) q.1 c' q.2.2
    (w.1, it.settleBackward w.1 w.2.1 w.2.2)

/-- `operator--`: from the end it seeks `next_prefix` first, and so moves to the last key. -/
def minusMinus (cache : CacheMap) : Except String (CacheMap × IteratorImpl) :=
  match it.cacheIt with
  | none =>
    let r := db.firstGe it.nextPrefix
    let cache := CacheMap.fillAt db cache r
    match seekCache cache it.nextPrefix r with
    | none => pure (cache, { it with rocksIt := r })
    | some c => pure (it.retreat db cache c r)
  | some c =>
    if it.cacheItNumErases ≠ cache.numErasesAt c then throw "kv iterator is at an erased value"
    else pure (it.retreat db cache c it.rocksIt)

end IteratorImpl

/-- The constructor of `iterator_impl`: the cache is filled at the keys around the prefix and at
its next prefix, and the iterator is at the end. -/
def IteratorImpl.create (db : RocksDb) (view : View) (contract : UInt64) (userPrefix : Bytes)
    (cache : CacheMap) : CacheMap × IteratorImpl :=
  let keyPrefix := createFullKey view.viewPrefix contract userPrefix
  let nextPrefix := getNextPrefix keyPrefix
  let r₁ := db.firstGe keyPrefix
  let r₂ := r₁.bind db.lastLt
  let r₃ := db.firstGe nextPrefix
  let cache := CacheMap.fillAt db (CacheMap.fillAt db (CacheMap.fillAt db cache r₁) r₂) r₃
  (cache, ⟨keyPrefix, view.viewPrefix.length + 8, nextPrefix, none, 0, r₃⟩)

/-! ### Iterating a view -/

namespace IteratorImpl

variable (db : RocksDb)

/-- The loop of `get_matching` after its first `++it`: `get_kv` and `++it` until the end. -/
def collectForward : ℕ → CacheMap → IteratorImpl → Except String (List (Bytes × Bytes))
  | 0, _, _ => pure []
  | fuel + 1, cache, it =>
    if it.isEnd then pure []
    else do
      let kv ← it.getKv cache
      match kv with
      | none => throw "iterator read failure"
      | some kv =>
        let next ← it.plusPlus db cache
        let rest ← collectForward fuel next.1 next.2
        pure (kv :: rest)

/-- The loop of `get_matching2` after its first `--it`: `get_kv` and `--it` until the end. -/
def collectBackward : ℕ → CacheMap → IteratorImpl → Except String (List (Bytes × Bytes))
  | 0, _, _ => pure []
  | fuel + 1, cache, it =>
    if it.isEnd then pure []
    else do
      let kv ← it.getKv cache
      match kv with
      | none => throw "iterator read failure"
      | some kv =>
        let next ← it.minusMinus db cache
        let rest ← collectBackward fuel next.1 next.2
        pure (kv :: rest)

end IteratorImpl

/-- `get_matching(view, contract, prefix)` of the view tests: a new iterator, `++it`, then the
key-value pairs up to the end. -/
def getMatching (db : RocksDb) (view : View) (contract : UInt64) (userPrefix : Bytes)
    (cache : CacheMap) : Except String (List (Bytes × Bytes)) := do
  let created := IteratorImpl.create db view contract userPrefix cache
  let first ← created.2.plusPlus db created.1
  IteratorImpl.collectForward db (walkFuel db first.1) first.1 first.2

/-- `get_matching2(view, contract, prefix)`: a new iterator, `--it`, then the key-value pairs down
to the end, reversed. -/
def getMatching2 (db : RocksDb) (view : View) (contract : UInt64) (userPrefix : Bytes)
    (cache : CacheMap) : Except String (List (Bytes × Bytes)) := do
  let created := IteratorImpl.create db view contract userPrefix cache
  let first ← created.2.minusMinus db created.1
  let kvs ← IteratorImpl.collectBackward db (walkFuel db first.1) first.1 first.2
  pure kvs.reverse

end B1.ChainKv
