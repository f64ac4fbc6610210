import Mathlib
import TaurusNode.ChainKv.ViewIterator

/-!
# Iterating a view

What a client of `chain_kv::view` reads through `view::iterator`, for any database content and
any writes through the view: `get_matching` (a new iterator, `++it`, then `get_kv` and `++it` up
to the end) reads every key of the view under the iterator's prefix that has a value in the
merged state, once each, in increasing order and with its value; `get_matching2` (the same with
`--it`, the result reversed) reads the same; and `lower_bound(key)` moves to the first of these
keys at or above `key`.

The two facts about the database and the cache that the walks rest on hold here by construction:
the database has the sentinels `database` writes, and a view never writes at a sentinel's key, as
its keys start with the view's first byte (`View.sentinels_run`).
-/

namespace B1.ChainKv

/-! ### Writes through a view leave the sentinels alone -/

theorem merged_upsert (db : RocksDb) (cache : CacheMap) (k : Bytes) (e : CacheEntry) (x : Bytes) :
    merged db (cache.upsert k e) x = if x = k then e.currentValue else merged db cache x := by
  unfold merged
  rw [SortedMap.find?_upsert]
  by_cases hx : x = k
  · rw [if_pos hx, if_pos hx]
  · rw [if_neg hx, if_neg hx]

/-- `write_session::set(k, v)` gives `k` the value `v` in the merged state, and changes nothing
else. -/
theorem merged_set (db : RocksDb) (cache : CacheMap) (k v x : Bytes) :
    merged db (CacheMap.set db cache k v) x = if x = k then some v else merged db cache x := by
  unfold CacheMap.set
  by_cases hx : x = k
  · subst hx
    rw [if_pos rfl]
    split
    · next e he =>
      split
      · rw [merged_upsert, if_pos rfl]
      · -- the key has the value already
        next hsame =>
        simp only [ne_eq, not_or, not_not] at hsame
        simp [merged, he, hsame.2]
    · split
      · rw [merged_upsert, if_pos rfl]
      · split
        · rw [merged_upsert, if_pos rfl]
        · next origV _ hv =>
          rw [merged_upsert, if_pos rfl, not_not.mp hv]
  · rw [if_neg hx]
    split
    · split
      · rw [merged_upsert, if_neg hx]
      · rfl
    · split
      · rw [merged_upsert, if_neg hx]
      · split <;> rw [merged_upsert, if_neg hx]

/-- `write_session::erase(k)` takes `k`'s value away in the merged state, and changes nothing
else. -/
theorem merged_erase (db : RocksDb) (cache : CacheMap) (k x : Bytes) :
    merged db (CacheMap.erase db cache k) x = if x = k then none else merged db cache x := by
  unfold CacheMap.erase
  by_cases hx : x = k
  · subst hx
    rw [if_pos rfl]
    split
    · next e he =>
      split
      · rw [merged_upsert, if_pos rfl]
      · -- the key has no value already
        next hnone =>
        simp [merged, he, Option.not_isSome_iff_eq_none.mp hnone]
    · split <;> rw [merged_upsert, if_pos rfl]
  · rw [if_neg hx]
    split
    · split
      · rw [merged_upsert, if_neg hx]
      · rfl
    · split <;> rw [merged_upsert, if_neg hx]

namespace View

variable (view : View)

/-- A view's keys start with its first byte, so none is a sentinel. -/
theorem createFullKey_ne_sentinels (contract : UInt64) (k : Bytes) :
    createFullKey view.viewPrefix contract k ≠ [0x00] ∧
      createFullKey view.viewPrefix contract k ≠ [0xff] := by
  obtain ⟨b, rest, hp, hb0, hbff⟩ := view.valid
  rw [createFullKey, hp, List.cons_append, List.cons_append]
  exact ⟨fun h => hb0 (List.cons.inj h).1, fun h => hbff (List.cons.inj h).1⟩

/-- A write through the view leaves the merged state at a key that is not the view's. -/
theorem merged_apply_of_ne {db : RocksDb} {cache : CacheMap} {x : Bytes}
    (hx : ∀ contract k, x ≠ createFullKey view.viewPrefix contract k) (op : ViewOp) :
    merged db (view.apply db cache op) x = merged db cache x := by
  cases op with
  | set contract k v => rw [apply, merged_set, if_neg (hx contract k)]
  | erase contract k => rw [apply, merged_erase, if_neg (hx contract k)]

theorem merged_foldl_apply_of_ne {db : RocksDb} {x : Bytes}
    (hx : ∀ contract k, x ≠ createFullKey view.viewPrefix contract k) :
    ∀ (ops : List ViewOp) (cache : CacheMap),
      merged db (ops.foldl (view.apply db) cache) x = merged db cache x
  | [], _ => rfl
  | op :: ops, cache => by
    rw [List.foldl_cons, merged_foldl_apply_of_ne hx ops, merged_apply_of_ne view hx]

/-- **The sentinels survive the writes.** After any writes through a view, both sentinel keys of
the database still have their value in the merged state. -/
theorem sentinels_run {db : RocksDb} (hlow : [0x00] ∈ db.keys) (hhigh : [0xff] ∈ db.keys)
    (ops : List ViewOp) : Sentinels db (view.run db ops) := by
  have hne := view.createFullKey_ne_sentinels
  -- in an empty cache the merged state is the database
  have hempty : ∀ x ∈ db.keys, (merged db SortedMap.empty x).isSome := by
    intro x hx
    rw [merged_of_not_mem (List.not_mem_nil), ← SortedMap.mem_keys_iff_find?_isSome]
    exact hx
  refine ⟨hlow, hhigh, ?_, ?_⟩
  · rw [run, merged_foldl_apply_of_ne view (fun c k h => (hne c k).1 h.symm)]
    exact hempty _ hlow
  · rw [run, merged_foldl_apply_of_ne view (fun c k h => (hne c k).2 h.symm)]
    exact hempty _ hhigh

end View

theorem mem_keys_writeSentinels (content : RocksDb) :
    [0x00] ∈ (writeSentinels content).keys ∧ [0xff] ∈ (writeSentinels content).keys := by
  unfold writeSentinels
  refine ⟨(SortedMap.mem_keys_insert _).mpr (.inr ((SortedMap.mem_keys_insert _).mpr (.inl rfl))),
    (SortedMap.mem_keys_insert _).mpr (.inl rfl)⟩

/-! ### A new iterator -/

namespace IteratorImpl

variable (db : RocksDb) (view : View) (contract : UInt64) (userPrefix : Bytes) (cache : CacheMap)

theorem create_fills : Fills db cache (create db view contract userPrefix cache).1 :=
  ((fills_fillAt db _ _).trans (fills_fillAt db _ _)).trans (fills_fillAt db _ _)

/-- The constructor leaves a well-formed iterator, at the end. -/
theorem create_wellFormed : (create db view contract userPrefix cache).2.WellFormed := by
  obtain ⟨b, rest, hp, hb0, hbff⟩ := view.valid
  refine ⟨⟨b, rest ++ appendKey contract ++ userPrefix, ?_, hb0, hbff⟩, Nat.succ_pos _, ?_, rfl⟩
  · simp [create, createFullKey, hp]
  · simp [create, createFullKey]

/-- The hidden part of a new iterator's prefix is the view's prefix and the contract. -/
theorem create_hidden :
    (create db view contract userPrefix cache).2.keyPrefix.take
        (create db view contract userPrefix cache).2.hiddenPrefixSize =
      view.viewPrefix ++ appendKey contract := by
  simp only [create, createFullKey]
  rw [List.take_left' (by simp)]

end IteratorImpl

/-! ### Reading a view -/

section Read

variable {db : RocksDb} (view : View) (contract : UInt64) (userPrefix : Bytes) {cache : CacheMap}
  (hs : Sentinels db cache)
include hs

/-- **`get_matching`** reads the view's keys under the prefix in increasing order. -/
theorem getMatching_spec :
    ∃ ks : List Bytes, ks.Pairwise (· < ·) ∧
      (∀ k, k ∈ ks ↔ k ∈ viewKeys db cache (createFullKey view.viewPrefix contract userPrefix)) ∧
      getMatching db view contract userPrefix cache =
        .ok (ks.map (viewEntry db cache (view.viewPrefix.length + 8))) := by
  have hfills₀ := IteratorImpl.create_fills db view contract userPrefix cache
  have hwf := IteratorImpl.create_wellFormed db view contract userPrefix cache
  obtain ⟨cache₁, it₁, hplus, hfills₁, hsame, hat⟩ :=
    IteratorImpl.plusPlus_of_end hwf (hs.fills hfills₀) rfl
  -- the keys the move reaches are the view's keys in the merged state of `cache`
  have hkeys : viewKeys db (IteratorImpl.create db view contract userPrefix cache).1
      (IteratorImpl.create db view contract userPrefix cache).2.keyPrefix =
      viewKeys db cache (createFullKey view.viewPrefix contract userPrefix) :=
    hfills₀.viewKeys_eq _
  have hentry := (hfills₀.trans hfills₁).viewEntry_eq
    (IteratorImpl.create db view contract userPrefix cache).2.hiddenPrefixSize
  rw [hkeys] at hat
  rcases hat with ⟨hend, hempty⟩ | ⟨c, hleast, hat⟩
  · -- the view has no key under the prefix
    refine ⟨[], List.Pairwise.nil, fun k => ?_, ?_⟩
    · rw [hempty]
      exact iff_of_false List.not_mem_nil (Set.notMem_empty k)
    · simp only [getMatching, hplus]
      show IteratorImpl.collectForward db (walkFuel db cache₁) cache₁ it₁ = _
      rw [IteratorImpl.collectForward_of_end hend]
      rfl
  · -- from the first key on
    obtain ⟨ks, hsorted, hmem, hcollect⟩ := IteratorImpl.collectForward_spec _ it₁ cache₁ c
      (hsame.wellFormed hwf) ((hs.fills hfills₀).fills hfills₁) hat
      (by rw [hsame.keyPrefix, hfills₁.viewKeys_eq, hkeys]; exact hleast.1)
      (lt_of_le_of_lt (Finset.card_filter_le _ _) (card_keySet_lt_walkFuel db cache₁))
    rw [hsame.keyPrefix, hfills₁.viewKeys_eq, hkeys] at hmem
    refine ⟨ks, hsorted, fun k => ?_, ?_⟩
    · rw [hmem]
      exact ⟨fun h => h.1, fun h => ⟨h, hleast.2 h⟩⟩
    · simp only [getMatching, hplus]
      show IteratorImpl.collectForward db (walkFuel db cache₁) cache₁ it₁ = _
      rw [hcollect, hsame.hiddenPrefixSize, hentry]
      rfl

/-- **`get_matching2`** reads the view's keys under the prefix from the last one down, and so,
reversed, in increasing order. -/
theorem getMatching2_spec :
    ∃ ks : List Bytes, ks.Pairwise (· < ·) ∧
      (∀ k, k ∈ ks ↔ k ∈ viewKeys db cache (createFullKey view.viewPrefix contract userPrefix)) ∧
      getMatching2 db view contract userPrefix cache =
        .ok (ks.map (viewEntry db cache (view.viewPrefix.length + 8))) := by
  have hfills₀ := IteratorImpl.create_fills db view contract userPrefix cache
  have hwf := IteratorImpl.create_wellFormed db view contract userPrefix cache
  obtain ⟨cache₁, it₁, hminus, hfills₁, hsame, hat⟩ :=
    IteratorImpl.minusMinus_of_end hwf (hs.fills hfills₀) rfl
  -- the keys the move reaches are the view's keys in the merged state of `cache`
  have hkeys : viewKeys db (IteratorImpl.create db view contract userPrefix cache).1
      (IteratorImpl.create db view contract userPrefix cache).2.keyPrefix =
      viewKeys db cache (createFullKey view.viewPrefix contract userPrefix) :=
    hfills₀.viewKeys_eq _
  have hentry := (hfills₀.trans hfills₁).viewEntry_eq
    (IteratorImpl.create db view contract userPrefix cache).2.hiddenPrefixSize
  rw [hkeys] at hat
  rcases hat with ⟨hend, hempty⟩ | ⟨c, hgreatest, hat⟩
  · -- the view has no key under the prefix
    refine ⟨[], List.Pairwise.nil, fun k => ?_, ?_⟩
    · rw [hempty]
      exact iff_of_false List.not_mem_nil (Set.notMem_empty k)
    · simp only [getMatching2, hminus]
      show (IteratorImpl.collectBackward db (walkFuel db cache₁) cache₁ it₁ >>=
        fun kvs => pure kvs.reverse) = _
      rw [IteratorImpl.collectBackward_of_end hend]
      rfl
  · -- from the last key down
    obtain ⟨ks, hsorted, hmem, hcollect⟩ := IteratorImpl.collectBackward_spec _ it₁ cache₁ c
      (hsame.wellFormed hwf) ((hs.fills hfills₀).fills hfills₁) hat
      (by rw [hsame.keyPrefix, hfills₁.viewKeys_eq, hkeys]; exact hgreatest.1)
      (lt_of_le_of_lt (Finset.card_filter_le _ _) (card_keySet_lt_walkFuel db cache₁))
    rw [hsame.keyPrefix, hfills₁.viewKeys_eq, hkeys] at hmem
    refine ⟨ks, hsorted, fun k => ?_, ?_⟩
    · rw [hmem]
      exact ⟨fun h => h.1, fun h => ⟨h, hgreatest.2 h⟩⟩
    · simp only [getMatching2, hminus]
      show (IteratorImpl.collectBackward db (walkFuel db cache₁) cache₁ it₁ >>=
        fun kvs => pure kvs.reverse) = _
      rw [hcollect]
      show Except.ok (List.map _ ks.reverse).reverse = _
      rw [List.map_reverse, List.reverse_reverse, hsame.hiddenPrefixSize, hentry]
      rfl

/-- **`lower_bound(key)`** on a new iterator moves to the view's first key at or above the full
key of `key`, or to the end when there is none. -/
theorem lowerBound_create_spec (key : Bytes) :
    let created := IteratorImpl.create db view contract userPrefix cache
    let found := created.2.lowerBound db created.1 key
    let S := {k | k ∈ viewKeys db cache (createFullKey view.viewPrefix contract userPrefix) ∧
      createFullKey view.viewPrefix contract key ≤ k}
    (found.2.cacheIt = none ∧ S = ∅) ∨ ∃ c, found.2.cacheIt = some c ∧ IsLeast S c := by
  intro created found S
  have hfills₀ := IteratorImpl.create_fills db view contract userPrefix cache
  have hwf := IteratorImpl.create_wellFormed db view contract userPrefix cache
  obtain ⟨cache₂, it₂, hlb, -, -, hat⟩ := IteratorImpl.lowerBound_spec hwf (hs.fills hfills₀) key
  have hfound : found = (cache₂, it₂) := hlb
  -- the set the move reaches is the set of the statement
  have hS : {k | k ∈ viewKeys db created.1 created.2.keyPrefix ∧
      created.2.keyPrefix.take created.2.hiddenPrefixSize ++ key ≤ k} = S := by
    rw [IteratorImpl.create_hidden, hfills₀.viewKeys_eq]
    rfl
  rw [hS] at hat
  rw [hfound]
  rcases hat with ⟨hend, hempty⟩ | ⟨c, hleast, hat⟩
  · exact .inl ⟨hend, hempty⟩
  · exact .inr ⟨c, hat.cacheIt, hleast⟩

end Read

/-- **Iterating a view reads the merged state.** For every database content (with the sentinels
`database` writes), every sequence of writes through a view, every contract and user prefix:
`get_matching` reads exactly the keys under the full prefix that have a value in the merged
state, in strictly increasing order, each once, with its value; `get_matching2`, which iterates
with `--` from the end and reverses, reads the same sequence; and `lower_bound(key)` moves to the
first of these keys at or above the full key of `key`. -/
theorem view_iterator_reads_merged_state (content : RocksDb) (view : View) (ops : List ViewOp)
    (contract : UInt64) (userPrefix key : Bytes) :
    let db := writeSentinels content
    let cache := view.run db ops
    let S := viewKeys db cache (createFullKey view.viewPrefix contract userPrefix)
    (∃ ks : List Bytes, ks.Pairwise (· < ·) ∧ (∀ k, k ∈ ks ↔ k ∈ S) ∧
      getMatching db view contract userPrefix cache =
        .ok (ks.map (viewEntry db cache (view.viewPrefix.length + 8))) ∧
      getMatching2 db view contract userPrefix cache =
        .ok (ks.map (viewEntry db cache (view.viewPrefix.length + 8)))) ∧
    (let created := IteratorImpl.create db view contract userPrefix cache
     let found := created.2.lowerBound db created.1 key
     let S' := {k | k ∈ S ∧ createFullKey view.viewPrefix contract key ≤ k}
     (found.2.cacheIt = none ∧ S' = ∅) ∨ ∃ c, found.2.cacheIt = some c ∧ IsLeast S' c) := by
  intro db cache S
  have hs : Sentinels db cache :=
    view.sentinels_run (mem_keys_writeSentinels content).1 (mem_keys_writeSentinels content).2 ops
  obtain ⟨ks, hsorted, hmem, hforward⟩ := getMatching_spec view contract userPrefix hs
  obtain ⟨ks₂, hsorted₂, hmem₂, hbackward⟩ := getMatching2_spec view contract userPrefix hs
  -- both read strictly increasing lists of the same keys, so the same list
  have hks : ks₂ = ks :=
    List.SortedLT.eq_of_mem_iff (List.sortedLT_iff_pairwise.mpr hsorted₂)
      (List.sortedLT_iff_pairwise.mpr hsorted) fun k => (hmem₂ k).trans (hmem k).symm
  rw [hks] at hbackward
  exact ⟨⟨ks, hsorted, hmem, hforward, hbackward⟩,
    lowerBound_create_spec view contract userPrefix hs key⟩

end B1.ChainKv
