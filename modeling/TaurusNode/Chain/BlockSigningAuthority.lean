import Mathlib
import TaurusNode.Chain.Authority
import TaurusNode.Lib.Fallible

/-!
# Block signing authorities

A model of `block_signing_authority_v0::keys_satisfy_and_relevant`
(libraries/chain/include/eosio/chain/producer_schedule.hpp) and of
`block_header_state::verify_signee` (libraries/chain/block_header_state.cpp). A block is signed
by its producer and may carry additional signatures; `verify_signee` recovers a key from each and
checks them against the producer's block signing authority: no more signatures than the authority
has keys, no key twice, every key relevant, and weight enough.

* `keysSatisfyAndRelevant_spec`: the `uint32_t` tally, which stops adding at the threshold and
  saturates at the maximum, agrees with the unbounded sum of the relevant weights, for every
  authority; the relevant count is the number of the authority's keys that are presented.
* `verifySignee_ok_iff`: for an authority whose keys are distinct, `verify_signee` accepts exactly
  the distinct keys of the authority, no more of them than it has, whose weights sum to the
  threshold. `verifySignee_accepts_iff` states both together.

Signature recovery is not modelled: a signature is its recovered key. The `std::set` of recovered
keys is a list that never holds a key twice.
-/

namespace Eosio.Chain

/-- `block_signing_authority_v0`. -/
structure BlockSigningAuthorityV0 (K : Type) where
  threshold : UInt32
  keys : List (KeyWeight K)
deriving DecidableEq, Repr

/-- The `wrong_signing_key` assertions of `verify_signee`. -/
inductive SigneeError
  /-- "number of block signatures ({num_block_signatures}) exceeds number of keys in block
  signing authority ({num_keys})" -/
  | tooManySignatures
  /-- "block signed by same {key} twice" -/
  | signedTwice
  /-- "block signed by unexpected key" -/
  | unexpectedKey
  /-- "block signatures do not satisfy the block signing authority {authority}" -/
  | notSatisfied
deriving DecidableEq, Repr

namespace BlockSigningAuthorityV0

variable {K : Type} [DecidableEq K] (a : BlockSigningAuthorityV0 K)

/-- One key of the loop of `keys_satisfy_and_relevant`: a presented key is relevant, and while the
total is below the threshold its weight is added, saturating at the `uint32_t` maximum. -/
def tallyStep (presentedKeys : List K) (acc : ℕ × UInt32) (kw : KeyWeight K) : ℕ × UInt32 :=
  if kw.key ∈ presentedKeys then
    (acc.1 + 1,
      if acc.2 < a.threshold then acc.2 + min (4294967295 - acc.2) kw.weight.toUInt32 else acc.2)
  else acc

/-- `keys_satisfy_and_relevant(presented_keys)`: whether the weight reaches the threshold, and how
many of the authority's keys are presented. -/
def keysSatisfyAndRelevant (presentedKeys : List K) : Bool × ℕ :=
  let (numRelevantKeys, totalWeight) := a.keys.foldl (a.tallyStep presentedKeys) (0, 0)
  (decide (a.threshold ≤ totalWeight), numRelevantKeys)

end BlockSigningAuthorityV0

/-- The `keys.emplace` of each additional signature's key into the set holding the producer's:
a key already there throws. -/
def insertKeys {K : Type} [DecidableEq K] : List K → List K → Except SigneeError (List K)
  | keys, [] => .ok keys
  | keys, k :: ks => if k ∈ keys then .error .signedTwice else insertKeys (keys ++ [k]) ks

/-- With no key twice among those already inserted, the insertion succeeds exactly when there is
none in the whole list. -/
theorem insertKeys_eq {K : Type} [DecidableEq K] {keys : List K} (hkeys : keys.Nodup) (ks : List K) :
    insertKeys keys ks = if (keys ++ ks).Nodup then .ok (keys ++ ks) else .error .signedTwice := by
  induction ks generalizing keys with
  | nil => simp [insertKeys, hkeys]
  | cons k ks ih =>
    unfold insertKeys
    by_cases hk : k ∈ keys
    · -- `k` is inserted twice
      have hdup : ¬ (keys ++ k :: ks).Nodup := fun h =>
        List.disjoint_of_nodup_append h hk List.mem_cons_self
      rw [if_pos hk, if_neg hdup]
    · have hkeys' : (keys ++ [k]).Nodup := List.nodup_append.mpr ⟨hkeys, List.nodup_singleton k,
        fun x hx y hy => by rw [List.mem_singleton.mp hy]; exact fun h => hk (h ▸ hx)⟩
      rw [if_neg hk, ih hkeys', List.append_assoc, List.singleton_append]

namespace BlockSigningAuthorityV0

variable {K : Type} [DecidableEq K] (a : BlockSigningAuthorityV0 K)

/-- `verify_signee()`, with the producer's key and the keys of the additional signatures. -/
def verifySignee (producerKey : K) (additionalKeys : List K) : Except SigneeError Unit := do
  let numKeysInAuthority := a.keys.length
  unless 1 + additionalKeys.length ≤ numKeysInAuthority do throw .tooManySignatures
  let keys ← insertKeys [producerKey] additionalKeys
  let (isSatisfied, relevantSigCount) := a.keysSatisfyAndRelevant keys
  unless relevantSigCount = keys.length do throw .unexpectedKey
  unless isSatisfied do throw .notSatisfied

/-! ### The tally -/

/-- The unbounded sum of the weights of the keys presented. -/
def relevantWeight (presentedKeys : List K) (kws : List (KeyWeight K)) : ℕ :=
  ((kws.filter fun kw => kw.key ∈ presentedKeys).map fun kw => kw.weight.toNat).sum

theorem relevantWeight_cons (presentedKeys : List K) (kw : KeyWeight K) (kws : List (KeyWeight K)) :
    relevantWeight presentedKeys (kw :: kws) =
      (if kw.key ∈ presentedKeys then kw.weight.toNat else 0) + relevantWeight presentedKeys kws := by
  by_cases hk : kw.key ∈ presentedKeys <;> simp [relevantWeight, hk]

/-- What the tally keeps against the unbounded sum `S` of the weights so far: it is at most `S`,
and it is `S` until it reaches the threshold. -/
def TallyAgrees (S : ℕ) (t : UInt32) : Prop :=
  t.toNat ≤ S ∧ (a.threshold ≤ t ∨ t.toNat = S)

omit [DecidableEq K] in
/-- A relevant key keeps the agreement: below the threshold the tally is still the sum, and the
saturated addition either adds the whole weight or reaches the maximum, past any threshold. -/
theorem TallyAgrees.step {S : ℕ} {t : UInt32} (h : a.TallyAgrees S t) (w : UInt16) :
    a.TallyAgrees (S + w.toNat)
      (if t < a.threshold then t + min (4294967295 - t) w.toUInt32 else t) := by
  obtain ⟨hle, hreach⟩ := h
  split
  · next hlt =>
    rw [UInt32.lt_iff_toNat_lt] at hlt
    have hS : t.toNat = S := by
      rcases hreach with hge | heq
      · exact absurd hlt (Nat.not_lt.mpr (UInt32.le_iff_toNat_le.mp hge))
      · exact heq
    have ht := t.toNat_lt
    have hM : (4294967295 : UInt32).toNat = 4294967295 := rfl
    have hmax : (4294967295 - t).toNat = 4294967295 - t.toNat := by
      rw [UInt32.toNat_sub_of_le _ _ (UInt32.le_iff_toNat_le.mpr (by omega)), hM]
    have hadd : (t + min (4294967295 - t) w.toUInt32).toNat =
        t.toNat + min (4294967295 - t.toNat) w.toNat := by
      rw [UInt32.toNat_add, UInt32.toNat_min, hmax, UInt16.toNat_toUInt32]
      omega
    have hT := a.threshold.toNat_lt
    refine ⟨by rw [hadd]; omega, ?_⟩
    rw [UInt32.le_iff_toNat_le, hadd]
    omega
  · next hge =>
    have hge' : a.threshold ≤ t := by
      rw [UInt32.lt_iff_toNat_lt] at hge
      exact UInt32.le_iff_toNat_le.mpr (by omega)
    exact ⟨by omega, .inl hge'⟩

/-- The whole loop: the relevant count, and the agreement with the unbounded sum. -/
theorem foldl_tallyStep (presentedKeys : List K) (kws : List (KeyWeight K)) (n : ℕ) (t : UInt32)
    (S : ℕ) (h : a.TallyAgrees S t) :
    (kws.foldl (a.tallyStep presentedKeys) (n, t)).1 =
        n + (kws.filter fun kw => kw.key ∈ presentedKeys).length ∧
      a.TallyAgrees (S + relevantWeight presentedKeys kws)
        (kws.foldl (a.tallyStep presentedKeys) (n, t)).2 := by
  induction kws generalizing n t S with
  | nil => exact ⟨rfl, h⟩
  | cons kw kws ih =>
    rw [List.foldl_cons, relevantWeight_cons]
    by_cases hk : kw.key ∈ presentedKeys
    · -- a relevant key is counted and its weight tallied
      obtain ⟨hn, hagree⟩ := ih (n + 1) _ (S + kw.weight.toNat) (TallyAgrees.step a h kw.weight)
      simp only [tallyStep, if_pos hk, List.filter_cons, decide_eq_true hk, if_true,
        List.length_cons] at hn hagree ⊢
      exact ⟨hn.trans (by omega), by rwa [Nat.add_assoc] at hagree⟩
    · obtain ⟨hn, hagree⟩ := ih n t S h
      simp only [tallyStep, if_neg hk, List.filter_cons, decide_eq_false hk, if_false,
        Bool.false_eq_true] at hn hagree ⊢
      exact ⟨hn, by rwa [Nat.zero_add]⟩

/-- **The saturating tally agrees with the unbounded sum.** For every authority and presented
keys, `keys_satisfy_and_relevant` is satisfied exactly when the weights of the presented keys,
summed without overflow, reach the threshold; its count is the number of keys presented. -/
theorem keysSatisfyAndRelevant_spec (presentedKeys : List K) :
    ((a.keysSatisfyAndRelevant presentedKeys).1 = true ↔
        a.threshold.toNat ≤ relevantWeight presentedKeys a.keys) ∧
      (a.keysSatisfyAndRelevant presentedKeys).2 =
        (a.keys.filter fun kw => kw.key ∈ presentedKeys).length := by
  obtain ⟨hn, hle, hreach⟩ := a.foldl_tallyStep presentedKeys a.keys 0 0 0 ⟨le_rfl, .inr rfl⟩
  unfold keysSatisfyAndRelevant
  generalize a.keys.foldl (a.tallyStep presentedKeys) (0, 0) = r at hn hle hreach
  obtain ⟨n, t⟩ := r
  refine ⟨?_, by simpa using hn⟩
  simp only [decide_eq_true_iff, UInt32.le_iff_toNat_le, Nat.zero_add] at hle hreach ⊢
  constructor
  · intro hT
    omega
  · intro hT
    rcases hreach with h | h <;> omega

/-! ### Relevant keys and their weights -/

/-- The weight of a key in a list of key weights: its first entry's, `0` if it has none. -/
def keyWeightOf : List (KeyWeight K) → K → ℕ
  | [], _ => 0
  | kw :: kws, k => if kw.key = k then kw.weight.toNat else keyWeightOf kws k

section Distinct

variable {kws : List (KeyWeight K)} (hkeys : (kws.map (·.key)).Nodup)
include hkeys

/-- With distinct keys, a key's weight is that of its entry. -/
theorem keyWeightOf_of_mem {kw : KeyWeight K} (hkw : kw ∈ kws) :
    keyWeightOf kws kw.key = kw.weight.toNat := by
  induction kws with
  | nil => cases hkw
  | cons kw' kws ih =>
    rw [List.map_cons, List.nodup_cons] at hkeys
    rcases List.mem_cons.mp hkw with rfl | hkw
    · exact if_pos rfl
    · -- the first entry has another key, since keys are distinct
      have hne : kw'.key ≠ kw.key := fun h => hkeys.1 (h ▸ List.mem_map_of_mem hkw)
      rw [keyWeightOf, if_neg hne]
      exact ih hkeys.2 hkw

/-- The keys of the entries presented, without repetition. -/
theorem nodup_presented (presentedKeys : List K) :
    ((kws.filter fun kw => kw.key ∈ presentedKeys).map (·.key)).Nodup :=
  hkeys.sublist ((List.filter_sublist).map _)

/-- **Every presented key is relevant exactly when as many entries are presented as keys.** -/
theorem length_filter_eq_iff {presentedKeys : List K} (hP : presentedKeys.Nodup) :
    (kws.filter fun kw => kw.key ∈ presentedKeys).length = presentedKeys.length ↔
      ∀ k ∈ presentedKeys, k ∈ kws.map (·.key) := by
  have hsub : (kws.filter fun kw => kw.key ∈ presentedKeys).map (·.key) ⊆ presentedKeys := by
    intro k hk
    obtain ⟨kw, hkw, rfl⟩ := List.mem_map.mp hk
    exact of_decide_eq_true (List.mem_filter.mp hkw).2
  have hle := ((nodup_presented hkeys presentedKeys).subperm hsub).length_le
  rw [List.length_map] at hle
  constructor
  · intro hlen k hk
    -- as long as the presented keys, the keys of the presented entries are all of them
    have hperm := ((nodup_presented hkeys presentedKeys).subperm hsub).perm_of_length_le
      (by rw [List.length_map, hlen])
    obtain ⟨kw, hkw, rfl⟩ := List.mem_map.mp (hperm.symm.subset hk)
    exact List.mem_map_of_mem (List.mem_filter.mp hkw).1
  · intro hall
    have hsup : presentedKeys ⊆ (kws.filter fun kw => kw.key ∈ presentedKeys).map (·.key) := by
      intro k hk
      obtain ⟨kw, hkw, rfl⟩ := List.mem_map.mp (hall k hk)
      exact List.mem_map_of_mem (List.mem_filter.mpr ⟨hkw, decide_eq_true hk⟩)
    have hge := (hP.subperm hsup).length_le
    rw [List.length_map] at hge
    omega

/-- With every presented key relevant, the weight of the presented entries is the sum of the
presented keys' weights. -/
theorem relevantWeight_eq_sum {presentedKeys : List K} (hP : presentedKeys.Nodup)
    (hall : ∀ k ∈ presentedKeys, k ∈ kws.map (·.key)) :
    relevantWeight presentedKeys kws = (presentedKeys.map (keyWeightOf kws)).sum := by
  -- the keys of the presented entries are the presented keys, in another order
  have hperm : ((kws.filter fun kw => kw.key ∈ presentedKeys).map (·.key)).Perm presentedKeys := by
    refine (List.perm_ext_iff_of_nodup (nodup_presented hkeys presentedKeys) hP).mpr fun k => ?_
    constructor
    · intro hk
      obtain ⟨kw, hkw, rfl⟩ := List.mem_map.mp hk
      exact of_decide_eq_true (List.mem_filter.mp hkw).2
    · intro hk
      obtain ⟨kw, hkw, rfl⟩ := List.mem_map.mp (hall k hk)
      exact List.mem_map_of_mem (List.mem_filter.mpr ⟨hkw, decide_eq_true hk⟩)
  have hweights : ((kws.filter fun kw => kw.key ∈ presentedKeys).map fun kw => kw.weight.toNat) =
      ((kws.filter fun kw => kw.key ∈ presentedKeys).map (·.key)).map (keyWeightOf kws) := by
    rw [List.map_map]
    refine List.map_congr_left fun kw hkw => ?_
    exact (keyWeightOf_of_mem hkeys (List.mem_filter.mp hkw).1).symm
  rw [relevantWeight, hweights]
  exact (hperm.map _).sum_eq

end Distinct

theorem verifySignee_ok_iff (hkeys : (a.keys.map (·.key)).Nodup) (producerKey : K)
    (additionalKeys : List K) :
    a.verifySignee producerKey additionalKeys = .ok () ↔
      (producerKey :: additionalKeys).Nodup ∧
      (∀ k ∈ producerKey :: additionalKeys, k ∈ a.keys.map (·.key)) ∧
      (producerKey :: additionalKeys).length ≤ a.keys.length ∧
      a.threshold.toNat ≤ ((producerKey :: additionalKeys).map (keyWeightOf a.keys)).sum := by
  have hins := insertKeys_eq (List.nodup_singleton producerKey) additionalKeys
  rw [List.singleton_append] at hins
  unfold verifySignee
  rw [hins]
  simp only
  by_cases hcount : 1 + additionalKeys.length ≤ a.keys.length
  swap
  · -- more signatures than keys
    rw [if_neg hcount]
    refine ⟨nofun, fun ⟨_, _, hlen, _⟩ => absurd ?_ hcount⟩
    rw [List.length_cons] at hlen
    omega
  rw [if_pos hcount]
  by_cases hnd : (producerKey :: additionalKeys).Nodup
  swap
  · -- a key recovered twice
    rw [if_neg hnd]
    exact ⟨nofun, fun ⟨h, _⟩ => absurd h hnd⟩
  rw [if_pos hnd, Fallible.ok_bind]
  obtain ⟨hsat, hrel⟩ := a.keysSatisfyAndRelevant_spec (producerKey :: additionalKeys)
  have hlen : (producerKey :: additionalKeys).length ≤ a.keys.length := by
    rw [List.length_cons]
    omega
  simp only [hrel, length_filter_eq_iff hkeys hnd]
  by_cases hall : ∀ k ∈ producerKey :: additionalKeys, k ∈ a.keys.map (·.key)
  swap
  · -- a key not in the authority
    rw [if_neg hall]
    exact ⟨nofun, fun ⟨_, h, _⟩ => absurd h hall⟩
  rw [if_pos hall, ← relevantWeight_eq_sum hkeys hnd hall]
  by_cases hw : a.threshold.toNat ≤ relevantWeight (producerKey :: additionalKeys) a.keys
  · rw [if_pos (hsat.mpr hw)]
    exact ⟨fun _ => ⟨hnd, hall, hlen, hw⟩, fun _ => rfl⟩
  · rw [if_neg (mt hsat.mp hw)]
    exact ⟨nofun, fun ⟨_, _, _, h⟩ => absurd h hw⟩

/-- **`verify_signee` accepts exactly the distinct keys of the authority, no more of them than it
has, whose weights reach the threshold**, for an authority whose keys are distinct; and the
saturating `uint32_t` tally of `keys_satisfy_and_relevant` agrees with the unbounded sum of the
relevant weights for every authority and presented keys. -/
theorem verifySignee_accepts_iff (hkeys : (a.keys.map (·.key)).Nodup) (producerKey : K)
    (additionalKeys : List K) :
    (a.verifySignee producerKey additionalKeys = .ok () ↔
      (producerKey :: additionalKeys).Nodup ∧
      (∀ k ∈ producerKey :: additionalKeys, k ∈ a.keys.map (·.key)) ∧
      (producerKey :: additionalKeys).length ≤ a.keys.length ∧
      a.threshold.toNat ≤ ((producerKey :: additionalKeys).map (keyWeightOf a.keys)).sum) ∧
    ∀ (b : BlockSigningAuthorityV0 K) (presentedKeys : List K),
      (b.keysSatisfyAndRelevant presentedKeys).1 = true ↔
        b.threshold.toNat ≤ relevantWeight presentedKeys b.keys :=
  ⟨a.verifySignee_ok_iff hkeys producerKey additionalKeys,
    fun b presentedKeys => (b.keysSatisfyAndRelevant_spec presentedKeys).1⟩

/-- A two-of-three authority. -/
def twoOfThree : BlockSigningAuthorityV0 ℕ := ⟨2, [⟨1, 1⟩, ⟨2, 1⟩, ⟨3, 1⟩]⟩

theorem verifySignee_accepts_iff_twoOfThree :
    (twoOfThree.verifySignee 1 [3] = .ok () ↔
      [1, 3].Nodup ∧ (∀ k ∈ [1, 3], k ∈ twoOfThree.keys.map (·.key)) ∧
      [1, 3].length ≤ twoOfThree.keys.length ∧
      twoOfThree.threshold.toNat ≤ ([1, 3].map (keyWeightOf twoOfThree.keys)).sum) ∧
    ∀ (b : BlockSigningAuthorityV0 ℕ) (presentedKeys : List ℕ),
      (b.keysSatisfyAndRelevant presentedKeys).1 = true ↔
        b.threshold.toNat ≤ relevantWeight presentedKeys b.keys :=
  verifySignee_accepts_iff twoOfThree (by decide) 1 [3]

end BlockSigningAuthorityV0

end Eosio.Chain
