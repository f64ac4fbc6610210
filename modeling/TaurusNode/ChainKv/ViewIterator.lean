import Mathlib
import TaurusNode.ChainKv.ViewWalk

/-!
# The moves of the view iterator

What `lower_bound`, `move_to_begin`, `operator++`, `operator--` and `get_kv` of
`view::iterator_impl` do to an iterator of a view whose database has its sentinels, in terms of
the keys the view reads (`viewKeys`: the keys with the iterator's prefix that have a value in the
merged state).

A forward move leaves the iterator at the least key of the keys it is to reach, or at the end
when there is none (`ForwardAt`); a backward move at the greatest (`BackwardAt`). Either way the
iterator is then ready for the next move (`AtForward`, `AtBackward`): its erase count is its
entry's, and the rocksdb iterator is on the right side of it. From there, `get_matching`'s loop
reads every key of the view from the first one on, in increasing order (`collectForward_spec`),
and `get_matching2`'s loop every key from the last one down (`collectBackward_spec`).
-/

namespace B1.ChainKv

/-- The database has both sentinel keys, and both have a value in the merged state. -/
structure Sentinels (db : RocksDb) (cache : CacheMap) : Prop where
  low_mem : [0x00] ∈ db.keys
  high_mem : [0xff] ∈ db.keys
  low_value : (merged db cache [0x00]).isSome
  high_value : (merged db cache [0xff]).isSome

theorem Sentinels.fills {db : RocksDb} {cache cache' : CacheMap} (h : Sentinels db cache)
    (hf : Fills db cache cache') : Sentinels db cache' := by
  refine ⟨h.low_mem, h.high_mem, ?_, ?_⟩
  · rw [hf.merged_eq]
    exact h.low_value
  · rw [hf.merged_eq]
    exact h.high_value

/-- The keys with the prefix that have a value in the merged state: what iterating a view reads. -/
def viewKeys (db : RocksDb) (cache : CacheMap) (keyPrefix : Bytes) : Set Bytes :=
  {k | keyPrefix <+: k ∧ (merged db cache k).isSome}

/-- What `get_kv` reads at a full key: the key without its hidden prefix, and the value. -/
def viewEntry (db : RocksDb) (cache : CacheMap) (hidden : ℕ) (k : Bytes) : Bytes × Bytes :=
  (k.drop hidden, (merged db cache k).getD [])

theorem Fills.viewKeys_eq {db : RocksDb} {cache cache' : CacheMap} (h : Fills db cache cache')
    (keyPrefix : Bytes) : viewKeys db cache' keyPrefix = viewKeys db cache keyPrefix := by
  ext k
  simp only [viewKeys, Set.mem_ofPred_eq, h.merged_eq]

theorem Fills.viewEntry_eq {db : RocksDb} {cache cache' : CacheMap} (h : Fills db cache cache')
    (hidden : ℕ) : viewEntry db cache' hidden = viewEntry db cache hidden := by
  funext k
  simp only [viewEntry, h.merged_eq]

namespace IteratorImpl

/-! ### Well-formed iterators -/

/-- An iterator as the constructor of `iterator_impl` leaves it: its prefix starts with the view's
first byte, which is neither sentinel, the hidden part of the prefix is not empty, and
`next_prefix` is `get_next_prefix(prefix)`. -/
structure WellFormed (it : IteratorImpl) : Prop where
  head : ∃ v rest, it.keyPrefix = v :: rest ∧ v ≠ 0x00 ∧ v ≠ 0xff
  hidden_pos : 0 < it.hiddenPrefixSize
  hidden_le : it.hiddenPrefixSize ≤ it.keyPrefix.length
  nextPrefix_eq : it.nextPrefix = getNextPrefix it.keyPrefix

/-- Two iterators over the same keys. -/
structure SameRange (it it' : IteratorImpl) : Prop where
  keyPrefix : it'.keyPrefix = it.keyPrefix
  hiddenPrefixSize : it'.hiddenPrefixSize = it.hiddenPrefixSize
  nextPrefix : it'.nextPrefix = it.nextPrefix

theorem SameRange.trans {it it' it'' : IteratorImpl} (h : SameRange it it')
    (h' : SameRange it' it'') : SameRange it it'' :=
  ⟨h'.keyPrefix.trans h.keyPrefix, h'.hiddenPrefixSize.trans h.hiddenPrefixSize,
    h'.nextPrefix.trans h.nextPrefix⟩

theorem SameRange.wellFormed {it it' : IteratorImpl} (h : SameRange it it')
    (hwf : it.WellFormed) : it'.WellFormed := by
  refine ⟨?_, ?_, ?_, ?_⟩
  · rw [h.keyPrefix]
    exact hwf.head
  · rw [h.hiddenPrefixSize]
    exact hwf.hidden_pos
  · rw [h.hiddenPrefixSize, h.keyPrefix]
    exact hwf.hidden_le
  · rw [h.nextPrefix, h.keyPrefix]
    exact hwf.nextPrefix_eq

namespace WellFormed

variable {it : IteratorImpl} (hwf : it.WellFormed)
include hwf

/-- The keys with the prefix are those from the prefix up to the next prefix. -/
theorem isPrefix_iff {k : Bytes} : it.keyPrefix <+: k ↔ it.keyPrefix ≤ k ∧ k < it.nextPrefix := by
  obtain ⟨v, rest, hkp, -, hv⟩ := hwf.head
  rw [hwf.nextPrefix_eq]
  exact isPrefix_iff_le_lt_getNextPrefix ⟨v, by rw [hkp]; exact List.mem_cons_self, hv⟩

theorem sentinel_lt : [0x00] < it.keyPrefix := by
  obtain ⟨v, rest, hkp, hv, -⟩ := hwf.head
  rw [hkp]
  exact sentinel_lt_of_head hv

theorem nextPrefix_le : it.nextPrefix ≤ [0xff] := by
  obtain ⟨v, rest, hkp, -, hv⟩ := hwf.head
  rw [hwf.nextPrefix_eq, hkp]
  exact getNextPrefix_le_sentinel hv

theorem keyPrefix_lt : it.keyPrefix < it.nextPrefix :=
  (hwf.isPrefix_iff.mp (List.prefix_refl _)).2

/-- A key that starts with the hidden part of the prefix is below the sentinel `0xff`. -/
theorem hidden_append_lt (k : Bytes) : it.keyPrefix.take it.hiddenPrefixSize ++ k < [0xff] := by
  obtain ⟨v, rest, hkp, -, hv⟩ := hwf.head
  obtain ⟨h, hh⟩ := Nat.exists_eq_add_of_lt hwf.hidden_pos
  rw [hkp, hh, Nat.zero_add, List.take_succ_cons, List.cons_append, List.cons_lt_cons_iff]
  exact .inl (lt_ff_of_ne hv)

/-- A key with the prefix is its hidden part followed by what `get_kv` returns of it. -/
theorem take_append_drop {k : Bytes} (hk : it.keyPrefix <+: k) :
    it.keyPrefix.take it.hiddenPrefixSize ++ k.drop it.hiddenPrefixSize = k := by
  obtain ⟨t, rfl⟩ := hk
  rw [List.drop_append_of_le_length hwf.hidden_le, ← List.append_assoc, List.take_append_drop]

end WellFormed

/-! ### Positions -/

variable (db : RocksDb)

/-- The iterator is at the cache position `c`, ready for `++`: its erase count is the entry's, and
the rocksdb iterator is ahead of `c`. -/
structure AtForward (cache : CacheMap) (it : IteratorImpl) (c : Bytes) : Prop where
  cacheIt : it.cacheIt = some c
  mem : c ∈ cache.keys
  numErases : it.cacheItNumErases = cache.numErasesAt c
  rocks : ∃ r, it.rocksIt = some r ∧ RocksAhead db cache (c < ·) r

/-- The iterator is at the cache position `c`, ready for `--`. -/
structure AtBackward (cache : CacheMap) (it : IteratorImpl) (c : Bytes) : Prop where
  cacheIt : it.cacheIt = some c
  mem : c ∈ cache.keys
  numErases : it.cacheItNumErases = cache.numErasesAt c
  rocks : ∃ r, it.rocksIt = some r ∧ RocksBehind db cache (· < c) r

/-- Where a forward move leaves the iterator: at the least key of `S`, ready for `++`, or at the
end when `S` is empty. -/
def ForwardAt (cache : CacheMap) (it : IteratorImpl) (S : Set Bytes) : Prop :=
  (it.cacheIt = none ∧ S = ∅) ∨ ∃ c, IsLeast S c ∧ AtForward db cache it c

/-- Where a backward move leaves the iterator: at the greatest key of `S`, ready for `--`, or at
the end when `S` is empty. -/
def BackwardAt (cache : CacheMap) (it : IteratorImpl) (S : Set Bytes) : Prop :=
  (it.cacheIt = none ∧ S = ∅) ∨ ∃ c, IsGreatest S c ∧ AtBackward db cache it c

/-- `get_kv` at a position whose erase count is its entry's reads the merged state. -/
theorem getKv_eq {cache : CacheMap} {it : IteratorImpl} {c : Bytes} (hc : it.cacheIt = some c)
    (hmem : c ∈ cache.keys) (hn : it.cacheItNumErases = cache.numErasesAt c) :
    it.getKv cache = .ok (some (viewEntry db cache it.hiddenPrefixSize c)) := by
  rw [getKv, hc]
  dsimp only
  rw [if_neg (not_not.mpr hn), viewEntry, merged_of_mem hmem]
  rfl

variable {db}

/-- The first cache position of a seek, when the rocksdb iterator found a key `r`: the least
cached key at or above the key sought. -/
theorem seekCache_spec {cache : CacheMap} {K r : Bytes} (hr : r ∈ cache.keys) (hKr : K ≤ r) :
    ∃ c, seekCache cache K (some r) = some c ∧ c ∈ cache.keys ∧ K ≤ c ∧
      ∀ k ∈ cache.keys, K ≤ k → c ≤ k := by
  unfold seekCache
  split
  · -- the rocksdb iterator found the key itself
    next h =>
    obtain rfl : r = K := Option.some.inj h
    exact ⟨r, rfl, hr, le_rfl, fun _ _ hk => hk⟩
  · obtain ⟨c, hc⟩ := Option.isSome_iff_exists.mp ((SortedMap.isSome_firstGe _).mpr ⟨r, hr, hKr⟩)
    exact ⟨c, hc, (SortedMap.firstGe_eq_some _).mp hc⟩

/-! ### The forward moves -/

/-- **`lower_bound_full_key`.** Below the sentinel `0xff`, the seek and the forward loop reach the
least key at or above the key sought with a value in the merged state. -/
theorem lowerBoundFullKey_spec (it : IteratorImpl) {cache : CacheMap} (hs : Sentinels db cache)
    {K : Bytes} (hK : K ≤ [0xff]) :
    ∃ cache' c r, it.lowerBoundFullKey db cache K = (cache', it.settleForward cache' (some c) (some r)) ∧
      Fills db cache cache' ∧ IsLeast {k | K ≤ k ∧ (merged db cache' k).isSome} c ∧
      c ∈ cache'.keys ∧ RocksAhead db cache' (K ≤ ·) r := by
  obtain ⟨r, hr⟩ :=
    Option.isSome_iff_exists.mp ((SortedMap.isSome_firstGe _).mpr ⟨[0xff], hs.high_mem, hK⟩)
  obtain ⟨hrmem, hKr, hrleast⟩ := (SortedMap.firstGe_eq_some _).mp hr
  have hfills₁ := fills_fillAt db cache (some r)
  have hr₁ : r ∈ (CacheMap.fillAt db cache (some r)).keys := mem_keys_fillAt db cache hrmem
  obtain ⟨c, hc, hcmem, hKc, hcleast⟩ := seekCache_spec hr₁ hKr
  -- the forward invariant holds at the first cache position
  have hw : WalkForward db (CacheMap.fillAt db cache (some r)) (K ≤ ·) c r := by
    refine ⟨hcmem, hKc, fun k hKk hkc => ?_, hrmem, fun k hk hKk hkr => ?_⟩
    · -- below `c` no cached key, and below `r` no database key, is at or above `K`
      have hkc₁ : k ∉ (CacheMap.fillAt db cache (some r)).keys :=
        fun h => absurd (hcleast k h hKk) (not_le.mpr hkc)
      rw [merged_of_not_mem hkc₁, ← Option.not_isSome_iff_eq_none]
      intro hkdb
      have hrk : r ≤ k := hrleast k ((SortedMap.mem_keys_iff_find?_isSome _).mpr hkdb) hKk
      exact absurd (lt_of_le_of_lt hrk hkc) (not_lt.mpr (hcleast r hr₁ hKr))
    · -- the only database key from `K` up to `r` is `r`, which was filled
      obtain rfl : k = r := le_antisymm hkr (hrleast k hk hKk)
      exact hr₁
  obtain ⟨cache', c', r', hwalk, hfills, hleast, hmem, hrocks⟩ :=
    skipForward_spec (fun a b hKa hab => hKa.trans hab) hs.high_mem hK _ _ c r hw
      (by rw [hfills₁.merged_eq]; exact hs.high_value)
      (lt_of_le_of_lt (Finset.card_filter_le _ _) (card_keySet_lt_walkFuel db _))
  refine ⟨cache', c', r', ?_, hfills₁.trans hfills, hleast, hmem, hrocks⟩
  simp only [lowerBoundFullKey, hr, hc, hwalk]

/-- The end check of the forward moves: a walk that stopped at the least key of a range starting
at or above the prefix leaves the iterator at the least key of the view in that range, or at the
end when the view has none. -/
theorem settleForward_spec {it : IteratorImpl} (hwf : it.WellFormed) {cache : CacheMap}
    {low : Bytes → Prop} (hup : ∀ a b, low a → a ≤ b → low b)
    (hpre : ∀ k, low k → it.keyPrefix ≤ k) {S : Set Bytes}
    (hS : ∀ k, k ∈ S ↔ it.keyPrefix <+: k ∧ low k ∧ (merged db cache k).isSome) {c r : Bytes}
    (hleast : IsLeast {k | low k ∧ (merged db cache k).isSome} c) (hc : c ∈ cache.keys)
    (hr : RocksAhead db cache low r) :
    SameRange it (it.settleForward cache (some c) (some r)) ∧
      ForwardAt db cache (it.settleForward cache (some c) (some r)) S := by
  by_cases hnp : it.nextPrefix ≤ c
  · -- past the next prefix: no key of the view is left in the range
    simp only [settleForward, if_pos hnp]
    refine ⟨⟨rfl, rfl, rfl⟩, .inl ⟨rfl, Set.eq_empty_of_forall_notMem fun k hk => ?_⟩⟩
    obtain ⟨hpk, hlk, hvk⟩ := (hS k).mp hk
    exact absurd (hwf.isPrefix_iff.mp hpk).2 (not_lt.mpr (hnp.trans (hleast.2 ⟨hlk, hvk⟩)))
  · simp only [settleForward, if_neg hnp]
    have hcS : c ∈ S :=
      (hS c).mpr ⟨hwf.isPrefix_iff.mpr ⟨hpre c hleast.1.1, not_le.mp hnp⟩, hleast.1⟩
    refine ⟨⟨rfl, rfl, rfl⟩, .inr ⟨c, ⟨hcS, fun k hk => hleast.2 ((hS k).mp hk).2⟩,
      rfl, hc, rfl, r, rfl, hr.mono fun k hck => hup c k hleast.1.1 hck.le⟩⟩

/-- **The loop of `operator++`.** From a position below the sentinel `0xff`, with the rocksdb
iterator ahead, the `do … while` reaches the least key above the position with a value. -/
theorem advance_spec (it : IteratorImpl) {cache : CacheMap} (hs : Sentinels db cache)
    {c r : Bytes} (hrocks : it.rocksIt = some r) (hr : RocksAhead db cache (c < ·) r)
    (hc : c < [0xff]) :
    ∃ cache' c' r', it.advance db cache c = (cache', it.settleForward cache' (some c') (some r')) ∧
      Fills db cache cache' ∧ IsLeast {k | c < k ∧ (merged db cache' k).isSome} c' ∧
      c' ∈ cache'.keys ∧ RocksAhead db cache' (c < ·) r' := by
  obtain ⟨cache₁, c₁, r₁, hstep, hst⟩ := stepForward_spec (fun k hk => hk) hr ⟨[0xff], hs.high_mem, hc⟩
  -- after the first pass the loop's invariant holds
  have hw : WalkForward db cache₁ (c < ·) c₁ r₁ :=
    ⟨hst.mem, hst.lt, fun k hck hkc₁ => hst.between k hck hkc₁, hst.rocks⟩
  obtain ⟨cache', c', r', hwalk, hfills, hleast, hmem, hrocks'⟩ :=
    skipForward_spec (fun a b hca hab => lt_of_lt_of_le hca hab) hs.high_mem hc _ cache₁ c₁ r₁ hw
      (by rw [hst.fills.merged_eq]; exact hs.high_value)
      (lt_of_le_of_lt (Finset.card_filter_le _ _) (card_keySet_lt_walkFuel db cache₁))
  refine ⟨cache', c', r', ?_, hst.fills.trans hfills, hleast, hmem, hrocks'⟩
  simp only [advance, hrocks, hstep, hwalk]

/-! ### The backward moves -/

/-- The end check of `operator--`: a walk that stopped at the greatest key of a range whose keys
with a value are below the next prefix leaves the iterator at the greatest key of the view in
that range, or at the end when the view has none. -/
theorem settleBackward_spec {it : IteratorImpl} (hwf : it.WellFormed) {cache : CacheMap}
    {high : Bytes → Prop} (hdown : ∀ a b, high a → b ≤ a → high b)
    (hpre : ∀ k, high k → (merged db cache k).isSome → k < it.nextPrefix) {S : Set Bytes}
    (hS : ∀ k, k ∈ S ↔ it.keyPrefix <+: k ∧ high k ∧ (merged db cache k).isSome) {c r : Bytes}
    (hgreatest : IsGreatest {k | high k ∧ (merged db cache k).isSome} c) (hc : c ∈ cache.keys)
    (hr : RocksBehind db cache high r) :
    SameRange it (it.settleBackward cache (some c) (some r)) ∧
      BackwardAt db cache (it.settleBackward cache (some c) (some r)) S := by
  by_cases hlt : c < it.keyPrefix
  · -- below the prefix: no key of the view is left in the range
    simp only [settleBackward, if_pos hlt]
    refine ⟨⟨rfl, rfl, rfl⟩, .inl ⟨rfl, Set.eq_empty_of_forall_notMem fun k hk => ?_⟩⟩
    obtain ⟨hpk, hhk, hvk⟩ := (hS k).mp hk
    exact absurd (hwf.isPrefix_iff.mp hpk).1 (not_le.mpr ((hgreatest.2 ⟨hhk, hvk⟩).trans_lt hlt))
  · simp only [settleBackward, if_neg hlt]
    have hcS : c ∈ S :=
      (hS c).mpr ⟨hwf.isPrefix_iff.mpr ⟨not_lt.mp hlt, hpre c hgreatest.1.1 hgreatest.1.2⟩,
        hgreatest.1⟩
    refine ⟨⟨rfl, rfl, rfl⟩, .inr ⟨c, ⟨hcS, fun k hk => hgreatest.2 ((hS k).mp hk).2⟩,
      rfl, hc, rfl, r, rfl, hr.mono fun k hkc => hdown c k hgreatest.1.1 hkc.le⟩⟩

/-- **The loop of `operator--`.** From a position above the sentinel `0x00`, with the rocksdb
iterator behind, the `do … while` reaches the greatest key below the position with a value. -/
theorem retreat_spec (it : IteratorImpl) {cache : CacheMap} (hs : Sentinels db cache)
    {c r : Bytes} (hr : RocksBehind db cache (· < c) r) (hc : [0x00] < c) :
    ∃ cache' c' r', it.retreat db cache c (some r) =
        (cache', it.settleBackward cache' (some c') (some r')) ∧
      Fills db cache cache' ∧ IsGreatest {k | k < c ∧ (merged db cache' k).isSome} c' ∧
      c' ∈ cache'.keys ∧ RocksBehind db cache' (· < c) r' := by
  obtain ⟨cache₁, c₁, r₁, hstep, hst⟩ :=
    stepBackward_spec (fun k hk => hk) hr ⟨[0x00], hs.low_mem, hc⟩
  -- after the first pass the loop's invariant holds
  have hw : WalkBackward db cache₁ (· < c) c₁ r₁ :=
    ⟨hst.mem, hst.lt, fun k hkc hc₁k => hst.between k hc₁k hkc, hst.rocks⟩
  obtain ⟨cache', c', r', hwalk, hfills, hgreatest, hmem, hrocks'⟩ :=
    skipBackward_spec (fun a b hac hba => lt_of_le_of_lt hba hac) hs.low_mem hc _ cache₁ c₁ r₁ hw
      (by rw [hst.fills.merged_eq]; exact hs.low_value)
      (lt_of_le_of_lt (Finset.card_filter_le _ _) (card_keySet_lt_walkFuel db cache₁))
  refine ⟨cache', c', r', ?_, hst.fills.trans hfills, hgreatest, hmem, hrocks'⟩
  simp only [retreat, hstep, hwalk]

/-! ### The moves, with the keys they reach -/

section Moves

variable {it : IteratorImpl} (hwf : it.WellFormed) {cache : CacheMap} (hs : Sentinels db cache)
include hwf hs

/-- **`move_to_begin`**: the iterator moves to the view's first key. -/
theorem moveToBegin_spec :
    ∃ cache' it', it.moveToBegin db cache = (cache', it') ∧ Fills db cache cache' ∧
      SameRange it it' ∧ ForwardAt db cache' it' (viewKeys db cache it.keyPrefix) := by
  obtain ⟨cache', c, r, heq, hfills, hleast, hmem, hrocks⟩ :=
    lowerBoundFullKey_spec it hs (hwf.keyPrefix_lt.le.trans hwf.nextPrefix_le)
  -- the view's keys are the keys with the prefix at or above it
  have hS : ∀ k, k ∈ viewKeys db cache it.keyPrefix ↔
      it.keyPrefix <+: k ∧ it.keyPrefix ≤ k ∧ (merged db cache' k).isSome := by
    intro k
    rw [hfills.merged_eq]
    exact ⟨fun ⟨hp, hv⟩ => ⟨hp, (hwf.isPrefix_iff.mp hp).1, hv⟩, fun ⟨hp, _, hv⟩ => ⟨hp, hv⟩⟩
  obtain ⟨hsame, hat⟩ :=
    settleForward_spec hwf (fun a b hab hbc => hab.trans hbc) (fun k hk => hk) hS hleast hmem hrocks
  exact ⟨cache', _, heq, hfills, hsame, hat⟩

/-- `operator++` from the end moves to the view's first key. -/
theorem plusPlus_of_end (hend : it.cacheIt = none) :
    ∃ cache' it', it.plusPlus db cache = .ok (cache', it') ∧ Fills db cache cache' ∧
      SameRange it it' ∧ ForwardAt db cache' it' (viewKeys db cache it.keyPrefix) := by
  obtain ⟨cache', it', heq, h⟩ := moveToBegin_spec hwf hs
  refine ⟨cache', it', ?_, h⟩
  simp only [plusPlus, hend, heq]
  rfl

/-- **`operator++`** from a key of the view moves to the view's next key. -/
theorem plusPlus_of_atForward {c : Bytes} (hat : AtForward db cache it c)
    (hcv : c ∈ viewKeys db cache it.keyPrefix) :
    ∃ cache' it', it.plusPlus db cache = .ok (cache', it') ∧ Fills db cache cache' ∧
      SameRange it it' ∧
      ForwardAt db cache' it' {k | k ∈ viewKeys db cache it.keyPrefix ∧ c < k} := by
  obtain ⟨r, hrocks, hr⟩ := hat.rocks
  have hcrange := hwf.isPrefix_iff.mp hcv.1
  obtain ⟨cache', c', r', heq, hfills, hleast, hmem, hrocks'⟩ :=
    advance_spec it hs hrocks hr (hcrange.2.trans_le hwf.nextPrefix_le)
  have hS : ∀ k, k ∈ {k | k ∈ viewKeys db cache it.keyPrefix ∧ c < k} ↔
      it.keyPrefix <+: k ∧ c < k ∧ (merged db cache' k).isSome := by
    intro k
    rw [hfills.merged_eq]
    exact ⟨fun ⟨⟨hp, hv⟩, hck⟩ => ⟨hp, hck, hv⟩, fun ⟨hp, hck, hv⟩ => ⟨⟨hp, hv⟩, hck⟩⟩
  obtain ⟨hsame, hat'⟩ := settleForward_spec hwf (fun a b hca hab => lt_of_lt_of_le hca hab)
    (fun k hck => hcrange.1.trans hck.le) hS hleast hmem hrocks'
  refine ⟨cache', _, ?_, hfills, hsame, hat'⟩
  simp only [plusPlus, hat.cacheIt, hat.numErases, ne_eq, not_true_eq_false, if_false, heq]
  rfl

/-- **`lower_bound(key)`** moves to the view's first key at or above the full key of `key`. -/
theorem lowerBound_spec (key : Bytes) :
    ∃ cache' it', it.lowerBound db cache key = (cache', it') ∧ Fills db cache cache' ∧
      SameRange it it' ∧
      ForwardAt db cache' it' {k | k ∈ viewKeys db cache it.keyPrefix ∧
        it.keyPrefix.take it.hiddenPrefixSize ++ key ≤ k} := by
  -- the key sought, raised to the user's prefix
  set hidden := it.keyPrefix.take it.hiddenPrefixSize
  set user := it.keyPrefix.drop it.hiddenPrefixSize
  set key' := if key < user then user else key with hkey'
  obtain ⟨cache', c, r, heq, hfills, hleast, hmem, hrocks⟩ :=
    lowerBoundFullKey_spec it hs (hwf.hidden_append_lt key').le
  have hkp : it.keyPrefix = hidden ++ user := (List.take_append_drop _ _).symm
  -- the full key sought is at or above the prefix
  have hpre : it.keyPrefix ≤ hidden ++ key' := by
    have huser : user ≤ key' := by
      rw [hkey']
      split
      · exact le_rfl
      · next h => exact not_lt.mp h
    rw [hkp]
    exact append_le_append_left hidden huser
  -- for a key with the prefix, raising the key sought to the user's prefix changes nothing
  have hraise : ∀ k, it.keyPrefix <+: k → (hidden ++ key ≤ k ↔ hidden ++ key' ≤ k) := by
    intro k hp
    have hkpk : it.keyPrefix ≤ k := (hwf.isPrefix_iff.mp hp).1
    rw [hkey']
    split
    · next h =>
      refine ⟨fun _ => hkp ▸ hkpk, fun _ => ?_⟩
      calc hidden ++ key ≤ hidden ++ user := append_le_append_left hidden h.le
        _ = it.keyPrefix := hkp.symm
        _ ≤ k := hkpk
    · exact Iff.rfl
  have hS : ∀ k, k ∈ {k | k ∈ viewKeys db cache it.keyPrefix ∧ hidden ++ key ≤ k} ↔
      it.keyPrefix <+: k ∧ hidden ++ key' ≤ k ∧ (merged db cache' k).isSome := by
    intro k
    rw [hfills.merged_eq]
    exact ⟨fun ⟨⟨hp, hv⟩, hk⟩ => ⟨hp, (hraise k hp).mp hk, hv⟩,
      fun ⟨hp, hk, hv⟩ => ⟨⟨hp, hv⟩, (hraise k hp).mpr hk⟩⟩
  obtain ⟨hsame, hat⟩ := settleForward_spec hwf (fun a b hab hbc => hab.trans hbc)
    (fun k hk => hpre.trans hk) hS hleast hmem hrocks
  exact ⟨cache', _, heq, hfills, hsame, hat⟩

/-- **`operator--`** from the end moves to the view's last key. -/
theorem minusMinus_of_end (hend : it.cacheIt = none) :
    ∃ cache' it', it.minusMinus db cache = .ok (cache', it') ∧ Fills db cache cache' ∧
      SameRange it it' ∧ BackwardAt db cache' it' (viewKeys db cache it.keyPrefix) := by
  obtain ⟨r, hr⟩ := Option.isSome_iff_exists.mp
    ((SortedMap.isSome_firstGe _).mpr ⟨[0xff], hs.high_mem, hwf.nextPrefix_le⟩)
  obtain ⟨hrmem, hnr, hrleast⟩ := (SortedMap.firstGe_eq_some _).mp hr
  have hfills₁ := fills_fillAt db cache (some r)
  have hr₁ : r ∈ (CacheMap.fillAt db cache (some r)).keys := mem_keys_fillAt db cache hrmem
  obtain ⟨c, hc, hcmem, hnc, hcleast⟩ := seekCache_spec hr₁ hnr
  have hcr : c ≤ r := hcleast r hr₁ hnr
  -- the rocksdb iterator is at or above `c`, so it has nothing below `c` to pass
  have hbehind : RocksBehind db (CacheMap.fillAt db cache (some r)) (· < c) r :=
    ⟨hrmem, fun k _ hkc hrk => absurd (hkc.trans_le hcr) (not_lt.mpr hrk)⟩
  obtain ⟨cache', c', r', heq, hfills, hgreatest, hmem, hrocks⟩ :=
    retreat_spec it (hs.fills hfills₁) hbehind
      (hwf.sentinel_lt.trans (hwf.keyPrefix_lt.trans_le hnc))
  -- no key from the next prefix up to `c` has a value: the seek found none
  have hgap : ∀ k, k < c → (merged db cache' k).isSome → k < it.nextPrefix := by
    intro k hkc hv
    refine not_le.mp fun hnk => ?_
    have hkc₁ : k ∉ (CacheMap.fillAt db cache (some r)).keys :=
      fun h => absurd (hcleast k h hnk) (not_le.mpr hkc)
    have hkdb : k ∉ db.keys := fun h => absurd ((hrleast k h hnk).trans_lt hkc) (not_lt.mpr hcr)
    rw [hfills.merged_eq, merged_of_not_mem hkc₁] at hv
    exact hkdb ((SortedMap.mem_keys_iff_find?_isSome _).mpr hv)
  have hS : ∀ k, k ∈ viewKeys db cache it.keyPrefix ↔
      it.keyPrefix <+: k ∧ k < c ∧ (merged db cache' k).isSome := by
    intro k
    rw [hfills.merged_eq, hfills₁.merged_eq]
    exact ⟨fun ⟨hp, hv⟩ => ⟨hp, (hwf.isPrefix_iff.mp hp).2.trans_le hnc, hv⟩,
      fun ⟨hp, _, hv⟩ => ⟨hp, hv⟩⟩
  obtain ⟨hsame, hat⟩ := settleBackward_spec hwf (fun a b hac hba => lt_of_le_of_lt hba hac)
    hgap hS hgreatest hmem hrocks
  refine ⟨cache', _, ?_, hfills₁.trans hfills, hsame, hat⟩
  simp only [minusMinus, hend, hr, hc, heq]
  rfl

/-- **`operator--`** from a key of the view moves to the view's previous key. -/
theorem minusMinus_of_atBackward {c : Bytes} (hat : AtBackward db cache it c)
    (hcv : c ∈ viewKeys db cache it.keyPrefix) :
    ∃ cache' it', it.minusMinus db cache = .ok (cache', it') ∧ Fills db cache cache' ∧
      SameRange it it' ∧
      BackwardAt db cache' it' {k | k ∈ viewKeys db cache it.keyPrefix ∧ k < c} := by
  obtain ⟨r, hrocks, hr⟩ := hat.rocks
  have hcrange := hwf.isPrefix_iff.mp hcv.1
  obtain ⟨cache', c', r', heq, hfills, hgreatest, hmem, hrocks'⟩ :=
    retreat_spec it hs hr (hwf.sentinel_lt.trans_le hcrange.1)
  have hS : ∀ k, k ∈ {k | k ∈ viewKeys db cache it.keyPrefix ∧ k < c} ↔
      it.keyPrefix <+: k ∧ k < c ∧ (merged db cache' k).isSome := by
    intro k
    rw [hfills.merged_eq]
    exact ⟨fun ⟨⟨hp, hv⟩, hkc⟩ => ⟨hp, hkc, hv⟩, fun ⟨hp, hkc, hv⟩ => ⟨⟨hp, hv⟩, hkc⟩⟩
  obtain ⟨hsame, hat'⟩ := settleBackward_spec hwf (fun a b hac hba => lt_of_le_of_lt hba hac)
    (fun k hkc _ => hkc.trans hcrange.2) hS hgreatest hmem hrocks'
  refine ⟨cache', _, ?_, hfills, hsame, hat'⟩
  simp only [minusMinus, hat.cacheIt, hat.numErases, ne_eq, not_true_eq_false, if_false, hrocks,
    heq]
  rfl

end Moves

/-! ### Iterating to the end -/

theorem collectForward_of_end {it : IteratorImpl} (hend : it.cacheIt = none) (fuel : ℕ)
    (cache : CacheMap) : collectForward db fuel cache it = .ok [] := by
  cases fuel with
  | zero => rfl
  | succ fuel =>
    rw [collectForward, if_pos (by rw [isEnd, hend]; rfl)]
    rfl

theorem collectBackward_of_end {it : IteratorImpl} (hend : it.cacheIt = none) (fuel : ℕ)
    (cache : CacheMap) : collectBackward db fuel cache it = .ok [] := by
  cases fuel with
  | zero => rfl
  | succ fuel =>
    rw [collectBackward, if_pos (by rw [isEnd, hend]; rfl)]
    rfl

/-- One turn of `get_matching`'s loop: `get_kv`, then what the loop reads after `++it`. -/
theorem collectForward_succ {it : IteratorImpl} {cache : CacheMap} {c : Bytes}
    (hat : AtForward db cache it c) {next : CacheMap × IteratorImpl}
    (hplus : it.plusPlus db cache = .ok next) (fuel : ℕ) :
    collectForward db (fuel + 1) cache it =
      (collectForward db fuel next.1 next.2).map
        (viewEntry db cache it.hiddenPrefixSize c :: ·) := by
  simp only [collectForward, isEnd, hat.cacheIt, Option.isNone_some,
    getKv_eq db hat.cacheIt hat.mem hat.numErases, hplus, Bool.false_eq_true, if_false]
  show (do let rest ← collectForward db fuel next.1 next.2; pure (_ :: rest)) = _
  cases collectForward db fuel next.1 next.2 <;> rfl

/-- One turn of `get_matching2`'s loop: `get_kv`, then what the loop reads after `--it`. -/
theorem collectBackward_succ {it : IteratorImpl} {cache : CacheMap} {c : Bytes}
    (hat : AtBackward db cache it c) {next : CacheMap × IteratorImpl}
    (hminus : it.minusMinus db cache = .ok next) (fuel : ℕ) :
    collectBackward db (fuel + 1) cache it =
      (collectBackward db fuel next.1 next.2).map
        (viewEntry db cache it.hiddenPrefixSize c :: ·) := by
  simp only [collectBackward, isEnd, hat.cacheIt, Option.isNone_some,
    getKv_eq db hat.cacheIt hat.mem hat.numErases, hminus, Bool.false_eq_true, if_false]
  show (do let rest ← collectBackward db fuel next.1 next.2; pure (_ :: rest)) = _
  cases collectBackward db fuel next.1 next.2 <;> rfl

/-- **`get_matching`'s loop.** From a key of the view, with more fuel than keys at or above it,
`get_kv` and `++it` until the end read the view's keys from that one on, in increasing order,
each with its value. -/
theorem collectForward_spec :
    ∀ (fuel : ℕ) (it : IteratorImpl) (cache : CacheMap) (c : Bytes), it.WellFormed →
      Sentinels db cache → AtForward db cache it c → c ∈ viewKeys db cache it.keyPrefix →
      ((keySet db cache).filter (c ≤ ·)).card < fuel →
      ∃ ks : List Bytes, ks.Pairwise (· < ·) ∧
        (∀ k, k ∈ ks ↔ k ∈ viewKeys db cache it.keyPrefix ∧ c ≤ k) ∧
        collectForward db fuel cache it = .ok (ks.map (viewEntry db cache it.hiddenPrefixSize))
  | 0, _, _, _, _, _, _, _, hfuel => absurd hfuel (Nat.not_lt_zero _)
  | fuel + 1, it, cache, c, hwf, hs, hat, hcv, hfuel => by
    obtain ⟨cache', it', hplus, hfills, hsame, hnext⟩ := plusPlus_of_atForward hwf hs hat hcv
    have hstep := collectForward_succ hat hplus fuel
    rcases hnext with ⟨hend, hempty⟩ | ⟨c', hleast, hat'⟩
    · -- `c` is the view's last key
      refine ⟨[c], List.pairwise_singleton _ _, fun k => ⟨fun hk => ?_, fun ⟨hk, hck⟩ => ?_⟩, ?_⟩
      · rw [List.mem_singleton.mp hk]
        exact ⟨hcv, le_rfl⟩
      · rcases hck.lt_or_eq with hck | rfl
        · exact absurd (Set.eq_empty_iff_forall_notMem.mp hempty k) (not_not.mpr ⟨hk, hck⟩)
        · exact List.mem_singleton_self _
      · rw [hstep, collectForward_of_end hend]
        rfl
    · -- the view's keys from the next one on, by induction
      have hc'v : c' ∈ viewKeys db cache' it'.keyPrefix := by
        rw [hsame.keyPrefix, hfills.viewKeys_eq]
        exact hleast.1.1
      have hfuel' : ((keySet db cache').filter (c' ≤ ·)).card < fuel := by
        have hlt := card_filter_lt_card_filter (S := keySet db cache') (p := fun k => c' ≤ k)
          (q := fun k => c ≤ k) (fun k hk => hleast.1.2.le.trans hk)
          (mem_keySet_of_mem (hfills.mem_keys hat.mem)) le_rfl (not_le.mpr hleast.1.2)
        calc ((keySet db cache').filter (c' ≤ ·)).card
            < ((keySet db cache').filter (c ≤ ·)).card := hlt
          _ = ((keySet db cache).filter (c ≤ ·)).card := by rw [hfills.keySet_eq]
          _ ≤ fuel := Nat.le_of_lt_succ hfuel
      obtain ⟨ks, hsorted, hmem, hcollect⟩ := collectForward_spec fuel it' cache' c'
        (hsame.wellFormed hwf) (hs.fills hfills) hat' hc'v hfuel'
      rw [hsame.keyPrefix, hfills.viewKeys_eq] at hmem
      refine ⟨c :: ks, List.pairwise_cons.mpr ⟨fun k hk => ?_, hsorted⟩, fun k => ?_, ?_⟩
      · -- the rest is above the next key, which is above `c`
        exact hleast.1.2.trans_le ((hmem k).mp hk).2
      · rw [List.mem_cons, hmem]
        constructor
        · rintro (rfl | ⟨hk, hc'k⟩)
          · exact ⟨hcv, le_rfl⟩
          · exact ⟨hk, (hleast.1.2.trans_le hc'k).le⟩
        · rintro ⟨hk, hck⟩
          rcases hck.lt_or_eq with hck | rfl
          · exact .inr ⟨hk, hleast.2 ⟨hk, hck⟩⟩
          · exact .inl rfl
      · rw [hstep, hcollect, hsame.hiddenPrefixSize, hfills.viewEntry_eq]
        rfl

/-- **`get_matching2`'s loop.** From a key of the view, `get_kv` and `--it` until the end read
the view's keys from that one down, in decreasing order, each with its value. -/
theorem collectBackward_spec :
    ∀ (fuel : ℕ) (it : IteratorImpl) (cache : CacheMap) (c : Bytes), it.WellFormed →
      Sentinels db cache → AtBackward db cache it c → c ∈ viewKeys db cache it.keyPrefix →
      ((keySet db cache).filter (· ≤ c)).card < fuel →
      ∃ ks : List Bytes, ks.Pairwise (· < ·) ∧
        (∀ k, k ∈ ks ↔ k ∈ viewKeys db cache it.keyPrefix ∧ k ≤ c) ∧
        collectBackward db fuel cache it =
          .ok (ks.reverse.map (viewEntry db cache it.hiddenPrefixSize))
  | 0, _, _, _, _, _, _, _, hfuel => absurd hfuel (Nat.not_lt_zero _)
  | fuel + 1, it, cache, c, hwf, hs, hat, hcv, hfuel => by
    obtain ⟨cache', it', hminus, hfills, hsame, hnext⟩ := minusMinus_of_atBackward hwf hs hat hcv
    have hstep := collectBackward_succ hat hminus fuel
    rcases hnext with ⟨hend, hempty⟩ | ⟨c', hgreatest, hat'⟩
    · -- `c` is the view's first key
      refine ⟨[c], List.pairwise_singleton _ _, fun k => ⟨fun hk => ?_, fun ⟨hk, hkc⟩ => ?_⟩, ?_⟩
      · rw [List.mem_singleton.mp hk]
        exact ⟨hcv, le_rfl⟩
      · rcases hkc.lt_or_eq with hkc | rfl
        · exact absurd (Set.eq_empty_iff_forall_notMem.mp hempty k) (not_not.mpr ⟨hk, hkc⟩)
        · exact List.mem_singleton_self _
      · rw [hstep, collectBackward_of_end hend]
        rfl
    · -- the view's keys from the previous one down, by induction
      have hc'v : c' ∈ viewKeys db cache' it'.keyPrefix := by
        rw [hsame.keyPrefix, hfills.viewKeys_eq]
        exact hgreatest.1.1
      have hfuel' : ((keySet db cache').filter (· ≤ c')).card < fuel := by
        have hlt := card_filter_lt_card_filter (S := keySet db cache') (p := fun k => k ≤ c')
          (q := fun k => k ≤ c) (fun k hk => hk.trans hgreatest.1.2.le)
          (mem_keySet_of_mem (hfills.mem_keys hat.mem)) le_rfl (not_le.mpr hgreatest.1.2)
        calc ((keySet db cache').filter (· ≤ c')).card
            < ((keySet db cache').filter (· ≤ c)).card := hlt
          _ = ((keySet db cache).filter (· ≤ c)).card := by rw [hfills.keySet_eq]
          _ ≤ fuel := Nat.le_of_lt_succ hfuel
      obtain ⟨ks, hsorted, hmem, hcollect⟩ := collectBackward_spec fuel it' cache' c'
        (hsame.wellFormed hwf) (hs.fills hfills) hat' hc'v hfuel'
      rw [hsame.keyPrefix, hfills.viewKeys_eq] at hmem
      refine ⟨ks ++ [c], ?_, fun k => ?_, ?_⟩
      · -- the rest is below the previous key, which is below `c`
        refine List.pairwise_append.mpr ⟨hsorted, List.pairwise_singleton _ _, fun a ha b hb => ?_⟩
        rw [List.mem_singleton.mp hb]
        exact ((hmem a).mp ha).2.trans_lt hgreatest.1.2
      · rw [List.mem_append, List.mem_singleton, hmem]
        constructor
        · rintro (⟨hk, hkc'⟩ | rfl)
          · exact ⟨hk, (hkc'.trans_lt hgreatest.1.2).le⟩
          · exact ⟨hcv, le_rfl⟩
        · rintro ⟨hk, hkc⟩
          rcases hkc.lt_or_eq with hkc | rfl
          · exact .inl ⟨hk, hgreatest.2 ⟨hk, hkc⟩⟩
          · exact .inr rfl
      · rw [hstep, hcollect, hsame.hiddenPrefixSize, hfills.viewEntry_eq, List.reverse_append]
        rfl

end IteratorImpl

end B1.ChainKv
