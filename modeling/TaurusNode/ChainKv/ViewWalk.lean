import Mathlib
import TaurusNode.ChainKv.ViewModel

/-!
# The lock-step walk of the view iterator

What the loops of `view::iterator_impl` compute, for any cache and database. A view reads the
merged state (`merged`): a cached key's current value, and the database's value of a key the cache
does not have. The walk only ever adds entries read from the database (`Fills`), which leaves the
merged state, the keys of cache and database together, and every entry the cache had, as they were.

The forward walk keeps one invariant at each cache position it visits (`WalkForward`): the
position is cached and in range, no key of the range below it has a value, and the rocksdb
iterator is at a database key with every database key of the range up to it in the cache
(`RocksAhead`). The last part is what the lock-step is for: a key of the database that the walk
steps over is in the cache, so the cache's next entry is the next key of the merged state. One
pass of the loop body keeps the invariant (`stepForward_spec`), and the loop ends at the least key
of the range with a value (`skipForward_spec`) within `walkFuel`, as the keys above the position
decrease. The backward walk is the mirror image (`RocksBehind`, `WalkBackward`).

Both walks need a key with a value at the far end of the range, in the database: the sentinels
`0xff` and `0x00` that `database` writes.
-/

namespace B1.ChainKv

/-- The state a view reads: the cache's current value of a cached key, and the database's value
of a key the cache does not have. -/
def merged (db : RocksDb) (cache : CacheMap) (k : Bytes) : Option Bytes :=
  match cache.find? k with
  | some e => e.currentValue
  | none => db.find? k

theorem merged_of_mem {db : RocksDb} {cache : CacheMap} {k : Bytes} (hk : k ∈ cache.keys) :
    merged db cache k = cache.valueAt k := by
  obtain ⟨e, he⟩ := Option.isSome_iff_exists.mp ((SortedMap.mem_keys_iff_find?_isSome _).mp hk)
  simp [merged, CacheMap.valueAt, he]

theorem merged_of_not_mem {db : RocksDb} {cache : CacheMap} {k : Bytes} (hk : k ∉ cache.keys) :
    merged db cache k = db.find? k := by
  have hnone : cache.find? k = none := by
    rw [← Option.not_isSome_iff_eq_none, ← SortedMap.mem_keys_iff_find?_isSome]
    exact hk
  simp [merged, hnone]

/-- A key with a value in the merged state is a key of the cache or of the database. -/
theorem mem_keys_of_merged_isSome {db : RocksDb} {cache : CacheMap} {k : Bytes}
    (hk : (merged db cache k).isSome) : k ∈ cache.keys ∨ k ∈ db.keys := by
  by_cases hc : k ∈ cache.keys
  · exact .inl hc
  · rw [merged_of_not_mem hc] at hk
    exact .inr ((SortedMap.mem_keys_iff_find?_isSome _).mpr hk)

/-- The keys of the cache and of the database together. -/
def keySet (db : RocksDb) (cache : CacheMap) : Finset Bytes :=
  (cache.keys ++ db.keys).toFinset

theorem mem_keySet_of_mem {db : RocksDb} {cache : CacheMap} {k : Bytes} (hk : k ∈ cache.keys) :
    k ∈ keySet db cache :=
  List.mem_toFinset.mpr (List.mem_append_left _ hk)

/-! ### Filling the cache -/

/-- `cache'` is `cache` with entries read from the database added: the entries `cache` had are
unchanged, and a new one holds the database's value as read and as current. -/
structure Fills (db : RocksDb) (cache cache' : CacheMap) : Prop where
  find?_of_mem : ∀ k ∈ cache.keys, cache'.find? k = cache.find? k
  find?_of_not_mem : ∀ k ∈ cache'.keys, k ∉ cache.keys →
    ∃ v, db.find? k = some v ∧ cache'.find? k = some ⟨0, some v, some v⟩

namespace Fills

variable {db : RocksDb} {cache cache' cache'' : CacheMap}

theorem refl (db : RocksDb) (cache : CacheMap) : Fills db cache cache :=
  ⟨fun _ _ => rfl, fun _ hk hk' => absurd hk hk'⟩

theorem mem_keys (h : Fills db cache cache') {k : Bytes} (hk : k ∈ cache.keys) :
    k ∈ cache'.keys := by
  rw [SortedMap.mem_keys_iff_find?_isSome, h.find?_of_mem k hk]
  exact (SortedMap.mem_keys_iff_find?_isSome _).mp hk

theorem mem_db (h : Fills db cache cache') {k : Bytes} (hk : k ∈ cache'.keys)
    (hk' : k ∉ cache.keys) : k ∈ db.keys := by
  obtain ⟨v, hv, -⟩ := h.find?_of_not_mem k hk hk'
  rw [SortedMap.mem_keys_iff_find?_isSome, hv]
  rfl

theorem trans (h : Fills db cache cache') (h' : Fills db cache' cache'') :
    Fills db cache cache'' := by
  refine ⟨fun k hk => ?_, fun k hk hk' => ?_⟩
  · rw [h'.find?_of_mem k (h.mem_keys hk), h.find?_of_mem k hk]
  · by_cases hmid : k ∈ cache'.keys
    · -- filled by the first step, and kept by the second
      rw [h'.find?_of_mem k hmid]
      exact h.find?_of_not_mem k hmid hk'
    · exact h'.find?_of_not_mem k hk hmid

/-- Fills leave the merged state as it was. -/
theorem merged_eq (h : Fills db cache cache') (k : Bytes) :
    merged db cache' k = merged db cache k := by
  by_cases hk : k ∈ cache.keys
  · simp only [merged, h.find?_of_mem k hk]
  · rw [merged_of_not_mem hk]
    by_cases hk' : k ∈ cache'.keys
    · obtain ⟨v, hv, hfill⟩ := h.find?_of_not_mem k hk' hk
      simp [merged, hfill, hv]
    · exact merged_of_not_mem hk'

theorem numErasesAt_eq (h : Fills db cache cache') {k : Bytes} (hk : k ∈ cache.keys) :
    cache'.numErasesAt k = cache.numErasesAt k := by
  simp only [CacheMap.numErasesAt, h.find?_of_mem k hk]

/-- Fills add keys of the database only. -/
theorem keySet_eq (h : Fills db cache cache') : keySet db cache' = keySet db cache := by
  ext k
  simp only [keySet, List.mem_toFinset, List.mem_append]
  constructor
  · rintro (hk | hk)
    · by_cases hk' : k ∈ cache.keys
      · exact .inl hk'
      · exact .inr (h.mem_db hk hk')
    · exact .inr hk
  · exact Or.imp_left h.mem_keys

end Fills

section Fill

variable (db : RocksDb) (cache : CacheMap)

theorem fills_fillCache {k v : Bytes} (hv : db.find? k = some v) :
    Fills db cache (cache.fillCache k v) := by
  unfold CacheMap.fillCache
  by_cases hk : k ∈ cache.keys
  · rw [SortedMap.insert_of_mem _ hk]
    exact Fills.refl db cache
  · refine ⟨fun x hx => ?_, fun x hx hx' => ?_⟩
    · -- an entry the cache had is another key's
      have hxk : x ≠ k := fun hxk => hk (hxk ▸ hx)
      rw [SortedMap.find?_insert_of_not_mem _ hk, if_neg hxk]
    · -- the only new key is the one filled
      have hxk : x = k := ((SortedMap.mem_keys_insert _).mp hx).resolve_right hx'
      subst hxk
      exact ⟨v, hv, by rw [SortedMap.find?_insert_of_not_mem _ hk, if_pos rfl]⟩

theorem fills_fillAt (r : Option Bytes) : Fills db cache (CacheMap.fillAt db cache r) := by
  unfold CacheMap.fillAt
  split
  · split
    · next hv => exact fills_fillCache db cache hv
    · exact Fills.refl db cache
  · exact Fills.refl db cache

/-- A fill at a key of the database puts the key in the cache. -/
theorem mem_keys_fillAt {k : Bytes} (hk : k ∈ db.keys) :
    k ∈ (CacheMap.fillAt db cache (some k)).keys := by
  obtain ⟨v, hv⟩ := Option.isSome_iff_exists.mp ((SortedMap.mem_keys_iff_find?_isSome _).mp hk)
  simp only [CacheMap.fillAt, hv, CacheMap.fillCache]
  exact (SortedMap.mem_keys_insert _).mpr (.inl rfl)

end Fill

/-! ### Measures of the loops -/

/-- Strengthening a predicate that a member of a finite set loses strictly shrinks the part of
the set it selects. -/
theorem card_filter_lt_card_filter {S : Finset Bytes} {p q : Bytes → Prop} [DecidablePred p]
    [DecidablePred q] (hpq : ∀ k, p k → q k) {x : Bytes} (hx : x ∈ S) (hqx : q x) (hpx : ¬ p x) :
    (S.filter p).card < (S.filter q).card := by
  apply Finset.card_lt_card
  refine (Finset.ssubset_iff_of_subset fun k hk => ?_).mpr ⟨x, ?_, ?_⟩
  · obtain ⟨hkS, hpk⟩ := Finset.mem_filter.mp hk
    exact Finset.mem_filter.mpr ⟨hkS, hpq k hpk⟩
  · exact Finset.mem_filter.mpr ⟨hx, hqx⟩
  · exact fun h => hpx (Finset.mem_filter.mp h).2

theorem card_keySet_lt_walkFuel (db : RocksDb) (cache : CacheMap) :
    (keySet db cache).card < walkFuel db cache := by
  have h := List.toFinset_card_le (cache.keys ++ db.keys)
  rw [List.length_append] at h
  exact Nat.lt_succ_of_le h

theorem card_toFinset_keys_lt (db : RocksDb) : db.keys.toFinset.card < db.keys.length + 1 :=
  Nat.lt_succ_of_le (List.toFinset_card_le db.keys)

/-! ### The forward walk -/

section Forward

variable (db : RocksDb)

/-- Where the forward inner loop leaves the rocksdb iterator started at `r`: at a database key
above `c` and not below `r`, with every database key after `r` up to it in the cache. -/
structure PassedForward (cache' : CacheMap) (c r r' : Bytes) : Prop where
  mem : r' ∈ db.keys
  lt : c < r'
  le : r ≤ r'
  filled : ∀ k ∈ db.keys, r < k → k ≤ r' → k ∈ cache'.keys

/-- **The forward inner loop.** Below a key of the database above `c`, `Next` and `fill_cache`
carry the rocksdb iterator past `c` with the keys it steps to in the cache, within as much fuel as
there are database keys from `r` on. -/
theorem nextWhileLe_spec {c : Bytes} (htop : ∃ t ∈ db.keys, c < t) :
    ∀ (fuel : ℕ) (cache : CacheMap) (r : Bytes), r ∈ db.keys →
      (db.keys.toFinset.filter (r ≤ ·)).card ≤ fuel →
      Fills db cache (IteratorImpl.nextWhileLe db c fuel cache (some r)).1 ∧
      ∃ r', (IteratorImpl.nextWhileLe db c fuel cache (some r)).2 = some r' ∧
        PassedForward db (IteratorImpl.nextWhileLe db c fuel cache (some r)).1 c r r'
  | 0, cache, r, hr, hfuel => by
    -- `r` itself is counted, so there is fuel
    have : 0 < (db.keys.toFinset.filter (r ≤ ·)).card :=
      Finset.card_pos.mpr ⟨r, Finset.mem_filter.mpr ⟨List.mem_toFinset.mpr hr, le_rfl⟩⟩
    omega
  | fuel + 1, cache, r, hr, hfuel => by
    by_cases hrc : r ≤ c
    · -- one `Next`: the database has a next key, and it is filled
      have hnext : (db.firstGt r).isSome := by
        obtain ⟨t, ht, hct⟩ := htop
        exact (SortedMap.isSome_firstGt _).mpr ⟨t, ht, lt_of_le_of_lt hrc hct⟩
      obtain ⟨r₁, hr₁⟩ := Option.isSome_iff_exists.mp hnext
      obtain ⟨hr₁mem, hrr₁, hr₁least⟩ := (SortedMap.firstGt_eq_some _).mp hr₁
      have hfuel₁ : (db.keys.toFinset.filter (r₁ ≤ ·)).card ≤ fuel := by
        have := card_filter_lt_card_filter (p := fun k => r₁ ≤ k) (q := fun k => r ≤ k)
          (fun k hk => hrr₁.le.trans hk) (List.mem_toFinset.mpr hr) le_rfl (not_le.mpr hrr₁)
        exact Nat.le_of_lt_succ (lt_of_lt_of_le this hfuel)
      obtain ⟨hfills, r', hr', hpass⟩ :=
        nextWhileLe_spec htop fuel (CacheMap.fillAt db cache (some r₁)) r₁ hr₁mem hfuel₁
      have hstep : IteratorImpl.nextWhileLe db c (fuel + 1) cache (some r) =
          IteratorImpl.nextWhileLe db c fuel (CacheMap.fillAt db cache (some r₁)) (some r₁) := by
        rw [IteratorImpl.nextWhileLe, if_pos hrc, hr₁]
      rw [hstep]
      refine ⟨(fills_fillAt db cache _).trans hfills, r', hr', hpass.mem, hpass.lt,
        hrr₁.le.trans hpass.le, fun k hk hrk hkr' => ?_⟩
      rcases lt_or_ge r₁ k with h | h
      · exact hpass.filled k hk h hkr'
      · -- no database key lies strictly between `r` and its next one
        have hk₁ : k = r₁ := le_antisymm h (hr₁least k hk hrk)
        subst hk₁
        exact hfills.mem_keys (mem_keys_fillAt db cache hr₁mem)
    · -- the rocksdb iterator is already past `c`
      have hstep : IteratorImpl.nextWhileLe db c (fuel + 1) cache (some r) = (cache, some r) := by
        rw [IteratorImpl.nextWhileLe, if_neg hrc]
      rw [hstep]
      exact ⟨Fills.refl db cache, r, rfl, hr, not_le.mp hrc, le_rfl,
        fun k _ hrk hkr => absurd hkr (not_le.mpr hrk)⟩

/-- The rocksdb iterator is at a database key, and every database key of the range up to it is in
the cache. -/
structure RocksAhead (cache : CacheMap) (low : Bytes → Prop) (r : Bytes) : Prop where
  mem : r ∈ db.keys
  filled : ∀ k ∈ db.keys, low k → k ≤ r → k ∈ cache.keys

theorem RocksAhead.mono {db : RocksDb} {cache : CacheMap} {low low' : Bytes → Prop} {r : Bytes}
    (h : RocksAhead db cache low r) (hlow : ∀ k, low' k → low k) : RocksAhead db cache low' r :=
  ⟨h.mem, fun k hk hlk hkr => h.filled k hk (hlow k hlk) hkr⟩

theorem RocksAhead.fills {db : RocksDb} {cache cache' : CacheMap} {low : Bytes → Prop} {r : Bytes}
    (h : RocksAhead db cache low r) (hf : Fills db cache cache') : RocksAhead db cache' low r :=
  ⟨h.mem, fun k hk hlk hkr => hf.mem_keys (h.filled k hk hlk hkr)⟩

/-- What one pass of the forward loop body reaches from `c`: the next cache position `c'`, with
nothing of the merged state strictly between, and the rocksdb iterator still ahead. -/
structure SteppedForward (low : Bytes → Prop) (cache cache' : CacheMap) (c c' r' : Bytes) :
    Prop where
  fills : Fills db cache cache'
  lt : c < c'
  mem : c' ∈ cache'.keys
  between : ∀ k, c < k → k < c' → merged db cache' k = none
  rocks : RocksAhead db cache' low r'

/-- The invariant of the forward loop at the cache position `c`, with the rocksdb iterator at `r`:
`c` is cached and in range, nothing of the range below it has a value, and the rocksdb iterator
is ahead. -/
structure WalkForward (cache : CacheMap) (low : Bytes → Prop) (c r : Bytes) : Prop where
  mem : c ∈ cache.keys
  low_c : low c
  skipped : ∀ k, low k → k < c → merged db cache k = none
  rocks : RocksAhead db cache low r

variable {db}

/-- **One pass of the forward loop body.** From a position `c` below a database key, with
everything above `c` in range and the rocksdb iterator ahead, the rocksdb iterator passes `c` and
the cache iterator moves to the next cached key, over nothing of the merged state. -/
theorem stepForward_spec {low : Bytes → Prop} {cache : CacheMap} {c r : Bytes}
    (hup : ∀ k, c < k → low k) (hr : RocksAhead db cache low r)
    (htop : ∃ t ∈ db.keys, c < t) :
    ∃ cache' c' r', IteratorImpl.stepForward db cache c (some r) = (cache', some c', some r') ∧
      SteppedForward db low cache cache' c c' r' := by
  have hfuel : (db.keys.toFinset.filter (r ≤ ·)).card ≤ db.keys.length + 1 :=
    (Finset.card_filter_le _ _).trans (card_toFinset_keys_lt db).le
  obtain ⟨hfills, r', hr', hpass⟩ := nextWhileLe_spec db htop _ cache r hr.mem hfuel
  generalize hq : IteratorImpl.nextWhileLe db c (db.keys.length + 1) cache (some r) = q at *
  -- the keys up to `r` were cached, and the loop cached those after it
  have hrocks : RocksAhead db q.1 low r' := by
    refine ⟨hpass.mem, fun k hk hlk hkr' => ?_⟩
    by_cases hkr : k ≤ r
    · exact hfills.mem_keys (hr.filled k hk hlk hkr)
    · exact hpass.filled k hk (not_le.mp hkr) hkr'
  have hr'mem : r' ∈ q.1.keys := hrocks.filled r' hpass.mem (hup r' hpass.lt) le_rfl
  obtain ⟨c', hc'⟩ :=
    Option.isSome_iff_exists.mp ((SortedMap.isSome_firstGt _).mpr ⟨r', hr'mem, hpass.lt⟩)
  obtain ⟨hc'mem, hcc', hc'least⟩ := (SortedMap.firstGt_eq_some _).mp hc'
  refine ⟨q.1, c', r', ?_, ⟨hfills, hcc', hc'mem, fun k hck hkc' => ?_, hrocks⟩⟩
  · simp [IteratorImpl.stepForward, hq, hc', hr']
  · -- a key strictly between is not cached, so not a database key in range either
    have hkq : k ∉ q.1.keys := fun hk => absurd (hc'least k hk hck) (not_le.mpr hkc')
    have hkdb : k ∉ db.keys := fun hk =>
      hkq (hrocks.filled k hk (hup k hck) (hkc'.le.trans (hc'least r' hr'mem hpass.lt)))
    rw [merged_of_not_mem hkq, ← Option.not_isSome_iff_eq_none]
    exact fun h => hkdb ((SortedMap.mem_keys_iff_find?_isSome _).mpr h)

/-- Where the loop stops: a position of the range with a value, above which the walk skipped
nothing, is the least key of the range with a value. -/
theorem isLeast_of_skipped {cache : CacheMap} {low : Bytes → Prop} {c : Bytes} (hlc : low c)
    (hc : (merged db cache c).isSome) (hskipped : ∀ k, low k → k < c → merged db cache k = none) :
    IsLeast {k | low k ∧ (merged db cache k).isSome} c := by
  refine ⟨⟨hlc, hc⟩, fun k ⟨hlk, hk⟩ => not_lt.mp fun hkc => ?_⟩
  rw [hskipped k hlk hkc] at hk
  exact absurd hk (by simp)

/-- **The forward loop.** From a position where the invariant holds, below a database key of the
range with a value, `skipForward` stops at the least key of the range with a value, with fuel to
spare when there is more fuel than keys above the position. -/
theorem skipForward_spec {low : Bytes → Prop} (hlow : ∀ a b, low a → a ≤ b → low b) {t : Bytes}
    (ht : t ∈ db.keys) (hlt : low t) :
    ∀ (fuel : ℕ) (cache : CacheMap) (c r : Bytes), WalkForward db cache low c r →
      (merged db cache t).isSome → ((keySet db cache).filter (c < ·)).card < fuel →
      ∃ cache' c' r', IteratorImpl.skipForward db fuel cache c (some r) =
          (cache', some c', some r') ∧
        Fills db cache cache' ∧ IsLeast {k | low k ∧ (merged db cache' k).isSome} c' ∧
        c' ∈ cache'.keys ∧ RocksAhead db cache' low r'
  | 0, _, _, _, _, _, hfuel => absurd hfuel (Nat.not_lt_zero _)
  | fuel + 1, cache, c, r, hw, htv, hfuel => by
    by_cases hv : (cache.valueAt c).isSome
    · -- the loop stops at `c`
      have hc : (merged db cache c).isSome := by
        rw [merged_of_mem hw.mem]
        exact hv
      exact ⟨cache, c, r, by simp [IteratorImpl.skipForward, hv], Fills.refl db cache,
        isLeast_of_skipped hw.low_c hc hw.skipped, hw.mem, hw.rocks⟩
    · -- `c` has no value, so the top key is above it and the loop body runs
      have hcnone : merged db cache c = none := by
        rw [merged_of_mem hw.mem]
        exact Option.not_isSome_iff_eq_none.mp hv
      have hct : c < t := by
        rcases lt_trichotomy t c with htc | rfl | hct
        · rw [hw.skipped t hlt htc] at htv
          exact absurd htv (by simp)
        · rw [hcnone] at htv
          exact absurd htv (by simp)
        · exact hct
      obtain ⟨cache₁, c₁, r₁, hstep, hs⟩ :=
        stepForward_spec (fun k hk => hlow c k hw.low_c hk.le) hw.rocks ⟨t, ht, hct⟩
      -- the invariant holds at the next position
      have hw₁ : WalkForward db cache₁ low c₁ r₁ := by
        refine ⟨hs.mem, hlow c c₁ hw.low_c hs.lt.le, fun k hlk hkc₁ => ?_, hs.rocks⟩
        rcases lt_trichotomy k c with hkc | rfl | hck
        · rw [hs.fills.merged_eq]
          exact hw.skipped k hlk hkc
        · rw [hs.fills.merged_eq]
          exact hcnone
        · exact hs.between k hck hkc₁
      -- fewer keys lie above the next position
      have hfuel₁ : ((keySet db cache₁).filter (c₁ < ·)).card < fuel := by
        have hlt₁ := card_filter_lt_card_filter (S := keySet db cache₁) (p := fun k => c₁ < k)
          (q := fun k => c < k) (fun k hk => hs.lt.trans hk) (mem_keySet_of_mem hs.mem) hs.lt
          (lt_irrefl c₁)
        calc ((keySet db cache₁).filter (c₁ < ·)).card
            < ((keySet db cache₁).filter (c < ·)).card := hlt₁
          _ = ((keySet db cache).filter (c < ·)).card := by rw [hs.fills.keySet_eq]
          _ ≤ fuel := Nat.le_of_lt_succ hfuel
      obtain ⟨cache', c', r', heq, hfills, hleast, hmem, hrocks⟩ :=
        skipForward_spec hlow ht hlt fuel cache₁ c₁ r₁ hw₁ (by rw [hs.fills.merged_eq]; exact htv)
          hfuel₁
      refine ⟨cache', c', r', ?_, hs.fills.trans hfills, hleast, hmem, hrocks⟩
      rw [IteratorImpl.skipForward, if_neg hv]
      simp only [hstep]
      exact heq

end Forward

/-! ### The backward walk

The mirror image of the forward walk: `Prev` for `Next`, `lastLt` for `firstGt`, and a range
bounded above (`high`) for one bounded below. -/

section Backward

variable (db : RocksDb)

/-- Where the backward inner loop leaves the rocksdb iterator started at `r`: at a database key
below `c` and not above `r`, with every database key from it up to before `r` in the cache. -/
structure PassedBackward (cache' : CacheMap) (c r r' : Bytes) : Prop where
  mem : r' ∈ db.keys
  lt : r' < c
  le : r' ≤ r
  filled : ∀ k ∈ db.keys, r' ≤ k → k < r → k ∈ cache'.keys

/-- The rocksdb iterator is at a database key, and every database key of the range from it on is
in the cache. -/
structure RocksBehind (cache : CacheMap) (high : Bytes → Prop) (r : Bytes) : Prop where
  mem : r ∈ db.keys
  filled : ∀ k ∈ db.keys, high k → r ≤ k → k ∈ cache.keys

/-- What one pass of the backward loop body reaches from `c`. -/
structure SteppedBackward (high : Bytes → Prop) (cache cache' : CacheMap) (c c' r' : Bytes) :
    Prop where
  fills : Fills db cache cache'
  lt : c' < c
  mem : c' ∈ cache'.keys
  between : ∀ k, c' < k → k < c → merged db cache' k = none
  rocks : RocksBehind db cache' high r'

/-- The invariant of the backward loop at the cache position `c`, with the rocksdb iterator at
`r`. -/
structure WalkBackward (cache : CacheMap) (high : Bytes → Prop) (c r : Bytes) : Prop where
  mem : c ∈ cache.keys
  high_c : high c
  skipped : ∀ k, high k → c < k → merged db cache k = none
  rocks : RocksBehind db cache high r

variable {db}

theorem RocksBehind.mono {cache : CacheMap} {high high' : Bytes → Prop} {r : Bytes}
    (h : RocksBehind db cache high r) (hhigh : ∀ k, high' k → high k) :
    RocksBehind db cache high' r :=
  ⟨h.mem, fun k hk hhk hrk => h.filled k hk (hhigh k hhk) hrk⟩

theorem RocksBehind.fills {cache cache' : CacheMap} {high : Bytes → Prop} {r : Bytes}
    (h : RocksBehind db cache high r) (hf : Fills db cache cache') :
    RocksBehind db cache' high r :=
  ⟨h.mem, fun k hk hhk hrk => hf.mem_keys (h.filled k hk hhk hrk)⟩

/-- **The backward inner loop.** Above a key of the database below `c`, `Prev` and `fill_cache`
carry the rocksdb iterator below `c` with the keys it steps to in the cache. -/
theorem prevWhileGe_spec {c : Bytes} (hbot : ∃ t ∈ db.keys, t < c) :
    ∀ (fuel : ℕ) (cache : CacheMap) (r : Bytes), r ∈ db.keys →
      (db.keys.toFinset.filter (· ≤ r)).card ≤ fuel →
      Fills db cache (IteratorImpl.prevWhileGe db c fuel cache (some r)).1 ∧
      ∃ r', (IteratorImpl.prevWhileGe db c fuel cache (some r)).2 = some r' ∧
        PassedBackward db (IteratorImpl.prevWhileGe db c fuel cache (some r)).1 c r r'
  | 0, cache, r, hr, hfuel => by
    have : 0 < (db.keys.toFinset.filter (· ≤ r)).card :=
      Finset.card_pos.mpr ⟨r, Finset.mem_filter.mpr ⟨List.mem_toFinset.mpr hr, le_rfl⟩⟩
    omega
  | fuel + 1, cache, r, hr, hfuel => by
    by_cases hcr : c ≤ r
    · -- one `Prev`: the database has a key before `r`, and it is filled
      have hprev : (db.lastLt r).isSome := by
        obtain ⟨t, ht, htc⟩ := hbot
        exact (SortedMap.isSome_lastLt _).mpr ⟨t, ht, lt_of_lt_of_le htc hcr⟩
      obtain ⟨r₁, hr₁⟩ := Option.isSome_iff_exists.mp hprev
      obtain ⟨hr₁mem, hr₁r, hr₁greatest⟩ := (SortedMap.lastLt_eq_some _).mp hr₁
      have hfuel₁ : (db.keys.toFinset.filter (· ≤ r₁)).card ≤ fuel := by
        have := card_filter_lt_card_filter (p := fun k => k ≤ r₁) (q := fun k => k ≤ r)
          (fun k hk => hk.trans hr₁r.le) (List.mem_toFinset.mpr hr) le_rfl (not_le.mpr hr₁r)
        exact Nat.le_of_lt_succ (lt_of_lt_of_le this hfuel)
      obtain ⟨hfills, r', hr', hpass⟩ :=
        prevWhileGe_spec hbot fuel (CacheMap.fillAt db cache (some r₁)) r₁ hr₁mem hfuel₁
      have hstep : IteratorImpl.prevWhileGe db c (fuel + 1) cache (some r) =
          IteratorImpl.prevWhileGe db c fuel (CacheMap.fillAt db cache (some r₁)) (some r₁) := by
        rw [IteratorImpl.prevWhileGe, if_pos hcr, hr₁]
      rw [hstep]
      refine ⟨(fills_fillAt db cache _).trans hfills, r', hr', hpass.mem, hpass.lt,
        hpass.le.trans hr₁r.le, fun k hk hr'k hkr => ?_⟩
      rcases lt_or_ge k r₁ with h | h
      · exact hpass.filled k hk hr'k h
      · -- no database key lies strictly between `r`'s previous one and `r`
        have hk₁ : k = r₁ := le_antisymm (hr₁greatest k hk hkr) h
        subst hk₁
        exact hfills.mem_keys (mem_keys_fillAt db cache hr₁mem)
    · -- the rocksdb iterator is already below `c`
      have hstep : IteratorImpl.prevWhileGe db c (fuel + 1) cache (some r) = (cache, some r) := by
        rw [IteratorImpl.prevWhileGe, if_neg hcr]
      rw [hstep]
      exact ⟨Fills.refl db cache, r, rfl, hr, not_le.mp hcr, le_rfl,
        fun k _ hrk hkr => absurd hkr (not_lt.mpr hrk)⟩

/-- **One pass of the backward loop body.** -/
theorem stepBackward_spec {high : Bytes → Prop} {cache : CacheMap} {c r : Bytes}
    (hdown : ∀ k, k < c → high k) (hr : RocksBehind db cache high r)
    (hbot : ∃ t ∈ db.keys, t < c) :
    ∃ cache' c' r', IteratorImpl.stepBackward db cache c (some r) = (cache', some c', some r') ∧
      SteppedBackward db high cache cache' c c' r' := by
  have hfuel : (db.keys.toFinset.filter (· ≤ r)).card ≤ db.keys.length + 1 :=
    (Finset.card_filter_le _ _).trans (card_toFinset_keys_lt db).le
  obtain ⟨hfills, r', hr', hpass⟩ := prevWhileGe_spec hbot _ cache r hr.mem hfuel
  generalize hq : IteratorImpl.prevWhileGe db c (db.keys.length + 1) cache (some r) = q at *
  -- the keys from `r` on were cached, and the loop cached those before it
  have hrocks : RocksBehind db q.1 high r' := by
    refine ⟨hpass.mem, fun k hk hhk hr'k => ?_⟩
    by_cases hrk : r ≤ k
    · exact hfills.mem_keys (hr.filled k hk hhk hrk)
    · exact hpass.filled k hk hr'k (not_le.mp hrk)
  have hr'mem : r' ∈ q.1.keys := hrocks.filled r' hpass.mem (hdown r' hpass.lt) le_rfl
  obtain ⟨c', hc'⟩ :=
    Option.isSome_iff_exists.mp ((SortedMap.isSome_lastLt _).mpr ⟨r', hr'mem, hpass.lt⟩)
  obtain ⟨hc'mem, hc'c, hc'greatest⟩ := (SortedMap.lastLt_eq_some _).mp hc'
  refine ⟨q.1, c', r', ?_, ⟨hfills, hc'c, hc'mem, fun k hc'k hkc => ?_, hrocks⟩⟩
  · simp [IteratorImpl.stepBackward, hq, hc', hr']
  · -- a key strictly between is not cached, so not a database key in range either
    have hkq : k ∉ q.1.keys := fun hk => absurd (hc'greatest k hk hkc) (not_le.mpr hc'k)
    have hkdb : k ∉ db.keys := fun hk =>
      hkq (hrocks.filled k hk (hdown k hkc) ((hc'greatest r' hr'mem hpass.lt).trans hc'k.le))
    rw [merged_of_not_mem hkq, ← Option.not_isSome_iff_eq_none]
    exact fun h => hkdb ((SortedMap.mem_keys_iff_find?_isSome _).mpr h)

/-- Where the backward loop stops: the greatest key of the range with a value. -/
theorem isGreatest_of_skipped {cache : CacheMap} {high : Bytes → Prop} {c : Bytes}
    (hhc : high c) (hc : (merged db cache c).isSome)
    (hskipped : ∀ k, high k → c < k → merged db cache k = none) :
    IsGreatest {k | high k ∧ (merged db cache k).isSome} c := by
  refine ⟨⟨hhc, hc⟩, fun k ⟨hhk, hk⟩ => not_lt.mp fun hck => ?_⟩
  rw [hskipped k hhk hck] at hk
  exact absurd hk (by simp)

/-- **The backward loop.** -/
theorem skipBackward_spec {high : Bytes → Prop} (hhigh : ∀ a b, high a → b ≤ a → high b)
    {t : Bytes} (ht : t ∈ db.keys) (hht : high t) :
    ∀ (fuel : ℕ) (cache : CacheMap) (c r : Bytes), WalkBackward db cache high c r →
      (merged db cache t).isSome → ((keySet db cache).filter (· < c)).card < fuel →
      ∃ cache' c' r', IteratorImpl.skipBackward db fuel cache c (some r) =
          (cache', some c', some r') ∧
        Fills db cache cache' ∧ IsGreatest {k | high k ∧ (merged db cache' k).isSome} c' ∧
        c' ∈ cache'.keys ∧ RocksBehind db cache' high r'
  | 0, _, _, _, _, _, hfuel => absurd hfuel (Nat.not_lt_zero _)
  | fuel + 1, cache, c, r, hw, htv, hfuel => by
    by_cases hv : (cache.valueAt c).isSome
    · -- the loop stops at `c`
      have hc : (merged db cache c).isSome := by
        rw [merged_of_mem hw.mem]
        exact hv
      exact ⟨cache, c, r, by simp [IteratorImpl.skipBackward, hv], Fills.refl db cache,
        isGreatest_of_skipped hw.high_c hc hw.skipped, hw.mem, hw.rocks⟩
    · -- `c` has no value, so the bottom key is below it and the loop body runs
      have hcnone : merged db cache c = none := by
        rw [merged_of_mem hw.mem]
        exact Option.not_isSome_iff_eq_none.mp hv
      have htc : t < c := by
        rcases lt_trichotomy c t with hct | rfl | htc
        · rw [hw.skipped t hht hct] at htv
          exact absurd htv (by simp)
        · rw [hcnone] at htv
          exact absurd htv (by simp)
        · exact htc
      obtain ⟨cache₁, c₁, r₁, hstep, hs⟩ :=
        stepBackward_spec (fun k hk => hhigh c k hw.high_c hk.le) hw.rocks ⟨t, ht, htc⟩
      -- the invariant holds at the previous position
      have hw₁ : WalkBackward db cache₁ high c₁ r₁ := by
        refine ⟨hs.mem, hhigh c c₁ hw.high_c hs.lt.le, fun k hhk hc₁k => ?_, hs.rocks⟩
        rcases lt_trichotomy c k with hck | rfl | hkc
        · rw [hs.fills.merged_eq]
          exact hw.skipped k hhk hck
        · rw [hs.fills.merged_eq]
          exact hcnone
        · exact hs.between k hc₁k hkc
      -- fewer keys lie below the previous position
      have hfuel₁ : ((keySet db cache₁).filter (· < c₁)).card < fuel := by
        have hlt₁ := card_filter_lt_card_filter (S := keySet db cache₁) (p := fun k => k < c₁)
          (q := fun k => k < c) (fun k hk => hk.trans hs.lt) (mem_keySet_of_mem hs.mem) hs.lt
          (lt_irrefl c₁)
        calc ((keySet db cache₁).filter (· < c₁)).card
            < ((keySet db cache₁).filter (· < c)).card := hlt₁
          _ = ((keySet db cache).filter (· < c)).card := by rw [hs.fills.keySet_eq]
          _ ≤ fuel := Nat.le_of_lt_succ hfuel
      obtain ⟨cache', c', r', heq, hfills, hgreatest, hmem, hrocks⟩ :=
        skipBackward_spec hhigh ht hht fuel cache₁ c₁ r₁ hw₁
          (by rw [hs.fills.merged_eq]; exact htv) hfuel₁
      refine ⟨cache', c', r', ?_, hs.fills.trans hfills, hgreatest, hmem, hrocks⟩
      rw [IteratorImpl.skipBackward, if_neg hv]
      simp only [hstep]
      exact heq

end Backward

end B1.ChainKv
