import Mathlib
import TaurusNode.Lib.PairUp
import TaurusNode.Lib.Bits

/-!
# The batch Merkle root and the incremental Merkle accumulator

`merkle` (libraries/chain/merkle.cpp) computes the root of a list of digests
level by level: while more than one digest is left, an odd level is padded with
a copy of its last digest and adjacent digests are hashed pairwise.

`incremental_merkle_impl` (libraries/chain/include/eosio/chain/incremental_merkle.hpp)
computes the same root without keeping the leaves. It stores the number of
leaves `_node_count` and a short list `_active_nodes`; `append` walks from the
new leaf to the top, one level per bit of the old count, reading a stored left
sibling when the bit is set and hashing the running node with itself when it is
clear, and rebuilds the list for the next append. `block_header_state::next`
appends every block id to `blockroot_merkle` this way.

Hashing is left uninterpreted: `hashPair l r` stands for
`DigestType::hash(make_canonical_pair(l, r))`, which both functions use, and
`empty` for the default digest `DigestType()`.

## Results

* `appendLoop_spec` — the `while` loop of `append`, run on a level whose
  complete nodes are `Y` and whose last node is `t`, reads the frontier of `Y`,
  returns the root of `Y ++ [t]` and rebuilds the frontier one level at a time.
  The induction follows `PairUp.pairUp`, one level per iteration.
* `calcluateMaxDepth_succ` — the bit tricks of `next_power_of_2` and
  `clz_power_2` make the loop run exactly `Nat.size` of the old count times,
  as long as `_node_count + 1` does not wrap around.
* `appendAll_eq` — after appending fewer than `2 ^ 64` digests the accumulator
  is `⟨ds.length, activeNodesOf ds⟩`: the frontier of the leaves, followed by
  the root unless the number of leaves is a power of two.
* `getRoot_appendAll` — its root is then `merkle ds`.
* `getRoot_appendAll_replicate_two_pow_64` — the `uint64_t` counter wraps
  after `2 ^ 64` appends, and the root is lost.
-/

namespace Eosio.Chain

open PairUp

section Batch

variable {D : Type*} (hashPair : D → D → D) (empty : D)

/-- One pass of the `while` loop of `merkle`: an odd level is padded with a copy
of its last digest, then adjacent digests are hashed pairwise. -/
def merkleLevel (ids : List D) : List D :=
  pairUp hashPair (if ids.length % 2 = 1 then ids ++ ids.getLast?.toList else ids)

theorem merkleLevel_eq_pairUpDup (ids : List D) :
    merkleLevel hashPair ids = pairUpDup hashPair ids := by
  unfold merkleLevel
  split
  · rename_i h
    exact pairUp_pad_of_odd hashPair ids h
  · rename_i h
    exact (pairUpDup_of_even hashPair ids (by omega)).symm

theorem length_merkleLevel_lt (a b : D) (rest : List D) :
    (merkleLevel hashPair (a :: b :: rest)).length < (a :: b :: rest).length := by
  rw [merkleLevel_eq_pairUpDup, length_pairUpDup]
  simp only [List.length_cons]
  omega

/-- The `while( ids.size() > 1 )` loop of `merkle` and the final `ids.front()`.
`merkle` returns before the loop on an empty list, so the first case is never
reached from it. -/
def merkleLoop : List D → D
  | [] => empty
  | [r] => r
  | a :: b :: rest => merkleLoop (merkleLevel hashPair (a :: b :: rest))
termination_by ids => ids.length
decreasing_by exact length_merkleLevel_lt hashPair a b rest

/-- `merkle( deque<digest_type> ids )`. -/
def merkle (ids : List D) : D :=
  if ids.length = 0 then empty else merkleLoop hashPair empty ids

@[simp] theorem merkleLoop_singleton (r : D) : merkleLoop hashPair empty [r] = r := by
  rw [merkleLoop]

theorem merkleLoop_cons_cons (a b : D) (rest : List D) :
    merkleLoop hashPair empty (a :: b :: rest) =
      merkleLoop hashPair empty (merkleLevel hashPair (a :: b :: rest)) := by
  rw [merkleLoop]

theorem merkle_of_ne_nil {ids : List D} (h : ids ≠ []) :
    merkle hashPair empty ids = merkleLoop hashPair empty ids := by
  rw [merkle, if_neg (by simpa using h)]

/-- A level of at least two digests has the same root as the level above it. -/
theorem merkleLoop_of_two_le {ids : List D} (h : 2 ≤ ids.length) :
    merkleLoop hashPair empty ids = merkleLoop hashPair empty (pairUpDup hashPair ids) := by
  match ids, h with
  | a :: b :: rest, _ => rw [merkleLoop_cons_cons, merkleLevel_eq_pairUpDup]

/-- The root of a level whose last node is `t` is the root of the level above,
whose last node is the one `t` is carried to. -/
theorem merkleLoop_append_singleton {Y : List D} (hY : Y ≠ []) (t : D) :
    merkleLoop hashPair empty (Y ++ [t]) =
      merkleLoop hashPair empty (pairUp hashPair Y ++ [carryUp hashPair Y t]) := by
  have h2 : 2 ≤ (Y ++ [t]).length := by
    have := List.length_pos_iff.mpr hY
    simp only [List.length_append, List.length_singleton]
    omega
  rw [merkleLoop_of_two_le hashPair empty h2, pairUpDup_append_singleton]

/-- On a level of even length no digest is duplicated. -/
theorem merkleLoop_of_even {ids : List D} (hne : ids ≠ []) (h : ids.length % 2 = 0) :
    merkleLoop hashPair empty ids = merkleLoop hashPair empty (pairUp hashPair ids) := by
  have h2 : 2 ≤ ids.length := by
    have := List.length_pos_iff.mpr hne
    omega
  rw [merkleLoop_of_two_le hashPair empty h2, pairUpDup_of_even hashPair ids h]

/-- Every digest of the root of a nonempty level built from digests satisfying
`P` satisfies `P`, when every hash does. -/
theorem merkleLoop_induction (P : D → Prop) (hhash : ∀ a b, P (hashPair a b)) :
    ∀ ids : List D, ids ≠ [] → (∀ x ∈ ids, P x) → P (merkleLoop hashPair empty ids)
  | [], hne, _ => absurd rfl hne
  | [r], _, hmem => by
    rw [merkleLoop_singleton]
    exact hmem r (List.mem_singleton_self r)
  | a :: b :: rest, _, _ => by
    rw [merkleLoop_cons_cons]
    have hne : merkleLevel hashPair (a :: b :: rest) ≠ [] := by
      rw [← List.length_pos_iff, merkleLevel_eq_pairUpDup, length_pairUpDup]
      simp
    apply merkleLoop_induction P hhash _ hne
    intro x hx
    rw [merkleLevel] at hx
    obtain ⟨c, d, rfl⟩ := exists_of_mem_pairUp hashPair hx
    exact hhash c d
termination_by ids => ids.length
decreasing_by exact length_merkleLevel_lt hashPair a b rest

end Batch

/-! ### The depth of the walk -/

/-- `detail::next_power_of_2`: the smallest power of two at least `value`, by
smearing the highest set bit of `value - 1` downwards. -/
def nextPowerOf2 (value : UInt64) : UInt64 :=
  let value := value - 1
  let value := value ||| value >>> 1
  let value := value ||| value >>> 2
  let value := value ||| value >>> 4
  let value := value ||| value >>> 8
  let value := value ||| value >>> 16
  let value := value ||| value >>> 32
  value + 1

/-- `detail::clz_power_2`. On a power of two it returns the exponent, not the
number of leading zeros its name promises. -/
def clzPower2 (value : UInt64) : ℕ :=
  let lz := 64
  let lz := if value ≠ 0 then lz - 1 else lz
  let lz := if value &&& 0x00000000FFFFFFFF ≠ 0 then lz - 32 else lz
  let lz := if value &&& 0x0000FFFF0000FFFF ≠ 0 then lz - 16 else lz
  let lz := if value &&& 0x00FF00FF00FF00FF ≠ 0 then lz - 8 else lz
  let lz := if value &&& 0x0F0F0F0F0F0F0F0F ≠ 0 then lz - 4 else lz
  let lz := if value &&& 0x3333333333333333 ≠ 0 then lz - 2 else lz
  let lz := if value &&& 0x5555555555555555 ≠ 0 then lz - 1 else lz
  lz

/-- `detail::calcluate_max_depth` (the source's spelling). The source returns an
`int`, which is never negative here, so the model uses `ℕ`. -/
def calcluateMaxDepth (nodeCount : UInt64) : ℕ :=
  if nodeCount = 0 then 0 else clzPower2 (nextPowerOf2 nodeCount) + 1

/-- On `2 ^ k` (and on `0`, the wrap-around of `2 ^ 64`) `clz_power_2` returns `k`. -/
theorem clzPower2_two_pow : ∀ k, k ≤ 64 → clzPower2 (UInt64.ofNat (2 ^ k)) = k := by
  decide

/-- `next_power_of_2(n + 1)` is `2` to the bit length of `n`, wrapping to `0` for
a 64-bit `n`. -/
theorem toNat_nextPowerOf2_add_one (n : UInt64) :
    (nextPowerOf2 (n + 1)).toNat = 2 ^ n.toNat.size % 2 ^ 64 := by
  have hsmear : (nextPowerOf2 (n + 1)).toNat = (Bits.smear 6 n.toNat + 1) % 2 ^ 64 := by
    simp only [nextPowerOf2, UInt64.add_sub_cancel, UInt64.toNat_add, UInt64.toNat_or,
      UInt64.toNat_shiftRight]
    rfl
  have hpos : 0 < 2 ^ n.toNat.size := Nat.two_pow_pos _
  rw [hsmear, Bits.smear_eq (by simpa using n.toNat_lt)]
  congr 1
  omega

/-- While `_node_count + 1` does not wrap, the walk of `append` climbs one level
per bit of `_node_count`. -/
theorem calcluateMaxDepth_succ {n : UInt64} (h : n.toNat < 2 ^ 64 - 1) :
    calcluateMaxDepth (n + 1) = n.toNat.size + 1 := by
  have hne : n + 1 ≠ 0 := by
    rw [ne_eq, ← UInt64.toNat_inj, UInt64.toNat_add]
    simp only [UInt64.toNat_one, UInt64.toNat_zero]
    omega
  have hsize : n.toNat.size ≤ 64 := Nat.size_le.mpr n.toNat_lt
  have hpow : nextPowerOf2 (n + 1) = UInt64.ofNat (2 ^ n.toNat.size) := by
    rw [← UInt64.toNat_inj, toNat_nextPowerOf2_add_one, UInt64.toNat_ofNat']
  rw [calcluateMaxDepth, if_neg hne, hpow, clzPower2_two_pow _ hsize]

/-! ### The accumulator -/

/-- `incremental_merkle_impl`: the number of leaves and the active nodes. -/
structure IncrementalMerkle (D : Type*) where
  nodeCount : UInt64
  activeNodes : List D

namespace IncrementalMerkle

variable {D : Type*} (hashPair : D → D → D) (empty : D)

/-- The default constructor: no leaves and no active nodes. -/
def init : IncrementalMerkle D := ⟨0, []⟩

/-- The `while (current_depth > 0)` loop of `append` followed by the final push
of the top of the walk. `activeIter` is what is left of the old active nodes;
`none` is a read past their end, which the source does not guard against. -/
def appendLoop : ℕ → UInt64 → Bool → D → List D → List D → Option (List D)
  | 0, _, _, top, _, updatedActiveNodes => some (updatedActiveNodes ++ [top])
  | currentDepth + 1, index, isPartial, top, activeIter, updatedActiveNodes =>
    if index &&& 1 = 0 then
      -- a "left" node: its right sibling is implied to be a copy of itself
      appendLoop currentDepth (index >>> 1) true (hashPair top top) activeIter
        (if isPartial then updatedActiveNodes else updatedActiveNodes ++ [top])
    else
      -- a "right" node: its left sibling is the next stored active node
      match activeIter with
      | [] => none
      | leftValue :: rest =>
        appendLoop currentDepth (index >>> 1) isPartial (hashPair leftValue top) rest
          (if isPartial then updatedActiveNodes ++ [leftValue] else updatedActiveNodes)

theorem appendLoop_succ_of_left {index : UInt64} (h : index &&& 1 = 0) (currentDepth : ℕ)
    (isPartial : Bool) (top : D) (activeIter updatedActiveNodes : List D) :
    appendLoop hashPair (currentDepth + 1) index isPartial top activeIter updatedActiveNodes =
      appendLoop hashPair currentDepth (index >>> 1) true (hashPair top top) activeIter
        (if isPartial then updatedActiveNodes else updatedActiveNodes ++ [top]) := by
  simp [appendLoop, h]

theorem appendLoop_succ_of_right {index : UInt64} (h : ¬ index &&& 1 = 0) (currentDepth : ℕ)
    (isPartial : Bool) (top leftValue : D) (rest updatedActiveNodes : List D) :
    appendLoop hashPair (currentDepth + 1) index isPartial top (leftValue :: rest)
        updatedActiveNodes =
      appendLoop hashPair currentDepth (index >>> 1) isPartial (hashPair leftValue top) rest
        (if isPartial then updatedActiveNodes ++ [leftValue] else updatedActiveNodes) := by
  simp [appendLoop, h]

/-- `append`: walk `calcluate_max_depth(_node_count + 1) - 1` levels up from the
new leaf, store the rebuilt active nodes and count the leaf. -/
def append (m : IncrementalMerkle D) (digest : D) : Option (IncrementalMerkle D) := do
  let maxDepth := calcluateMaxDepth (m.nodeCount + 1)
  let updated ← appendLoop hashPair (maxDepth - 1) m.nodeCount false digest m.activeNodes []
  return ⟨m.nodeCount + 1, updated⟩

/-- `get_root`: the last active node once a leaf was appended; `none` stands for
`back()` of an empty vector. -/
def getRoot (m : IncrementalMerkle D) : Option D :=
  if m.nodeCount > 0 then m.activeNodes.getLast? else some empty

/-- Appending digests one after another, as `blockroot_merkle` receives block ids. -/
def appendAll (m : IncrementalMerkle D) (ds : List D) : Option (IncrementalMerkle D) :=
  ds.foldlM (append hashPair) m

/-! ### What the active nodes hold -/

/-- The active nodes after appending `ds` to an empty accumulator: the frontier
of the leaves (the left siblings the next leaf will need, lowest level first),
followed by the root unless the leaves fill a complete tree, in which case the
root is already the frontier's only node. -/
def activeNodesOf (ds : List D) : List D :=
  frontier hashPair ds ++
    if ds.length = 0 ∨ ds.length.isPowerOfTwo then [] else [merkle hashPair empty ds]

@[simp] theorem activeNodesOf_nil : activeNodesOf hashPair empty [] = [] := by
  simp [activeNodesOf]

/-- A complete tree has its root as its only frontier node. -/
theorem frontier_of_isPowerOfTwo :
    ∀ (k : ℕ) (ds : List D), ds.length = 2 ^ k → frontier hashPair ds = [merkle hashPair empty ds]
  | 0, ds, h => by
    obtain ⟨a, rfl⟩ := List.length_eq_one_iff.mp h
    simp [merkle]
  | k + 1, ds, h => by
    have hne : ds ≠ [] := by
      rintro rfl
      have : 0 < 2 ^ (k + 1) := Nat.two_pow_pos _
      simp at h
      omega
    have heven : ds.length % 2 = 0 := by rw [h, Nat.pow_succ]; omega
    have hhalf : (pairUp hashPair ds).length = 2 ^ k := by
      rw [length_pairUp, h, Nat.pow_succ]
      omega
    have hne' : pairUp hashPair ds ≠ [] := by
      rw [← List.length_pos_iff, hhalf]
      exact Nat.two_pow_pos _
    rw [frontier_of_even hashPair hne heven, frontier_of_isPowerOfTwo k _ hhalf,
      merkle_of_ne_nil hashPair empty hne, merkle_of_ne_nil hashPair empty hne',
      merkleLoop_of_even hashPair empty hne heven]

/-- A level of even length describes the same active nodes as the level above. -/
theorem activeNodesOf_of_even {Z : List D} (hne : Z ≠ []) (h : Z.length % 2 = 0) :
    activeNodesOf hashPair empty Z = activeNodesOf hashPair empty (pairUp hashPair Z) := by
  have hpos : 0 < Z.length := List.length_pos_iff.mpr hne
  have hhalf : Z.length = 2 * (pairUp hashPair Z).length := by
    rw [length_pairUp]
    omega
  have hne' : pairUp hashPair Z ≠ [] := by
    rw [← List.length_pos_iff]
    omega
  unfold activeNodesOf
  rw [frontier_of_even hashPair hne h, merkle_of_ne_nil hashPair empty hne,
    merkle_of_ne_nil hashPair empty hne', merkleLoop_of_even hashPair empty hne h, hhalf]
  simp only [Nat.mul_eq_zero, OfNat.ofNat_ne_zero, false_or, Bits.isPowerOfTwo_two_mul_iff]

/-- Appending to a level of even length makes the new leaf a frontier node and
leaves the tree incomplete. -/
theorem activeNodesOf_append_of_even {Y : List D} (hne : Y ≠ []) (h : Y.length % 2 = 0)
    (t : D) :
    activeNodesOf hashPair empty (Y ++ [t]) =
      t :: frontier hashPair (pairUp hashPair Y) ++ [merkleLoop hashPair empty (Y ++ [t])] := by
  have hpos : 0 < Y.length := List.length_pos_iff.mpr hne
  have hodd : (Y ++ [t]).length % 2 = 1 := by simp; omega
  have hnotpow : ¬ (Y.length + 1).isPowerOfTwo :=
    Bits.not_isPowerOfTwo_of_odd (by omega) (by omega)
  unfold activeNodesOf
  rw [frontier_of_odd hashPair hodd List.getLast?_concat,
    pairUp_append_singleton_of_even hashPair Y t h, if_neg (by simp [hnotpow]),
    merkle_of_ne_nil hashPair empty (by simp)]

/-! ### The walk -/

/-- **The loop of `append`, one level per iteration.** At a level whose complete
nodes are `Y`, whose last node is `t` and whose index is `Y.length`, with the
frontier of `Y` still to be read, the remaining `Nat.size Y.length` iterations
consume that frontier and push either the new frontier and the new root (when
`t` is a complete node) or the rest of the old frontier and the new root (when
`t` was already padded, `isPartial`). The induction goes up one level per
iteration, from `Y` to `pairUp Y`, on the length of `Y`. -/
theorem appendLoop_spec :
    ∀ (Y : List D) (t : D) (isPartial : Bool) (rest updated : List D) (index : UInt64),
      index.toNat = Y.length →
      appendLoop hashPair Y.length.size index isPartial t (frontier hashPair Y ++ rest) updated =
        some (updated ++ if isPartial then
            frontier hashPair Y ++ [merkleLoop hashPair empty (Y ++ [t])]
          else activeNodesOf hashPair empty (Y ++ [t]))
  | [], t, isPartial, rest, updated, index, _ => by
    cases isPartial <;> simp [appendLoop, activeNodesOf, Nat.isPowerOfTwo_one]
  | y :: ys, t, isPartial, rest, updated, index, hidx => by
    have hne : y :: ys ≠ [] := List.cons_ne_nil y ys
    have hsize : (y :: ys).length.size = (pairUp hashPair (y :: ys)).length.size + 1 := by
      rw [length_pairUp]
      exact Bits.size_eq_size_div_two_add_one (by simp)
    have hidx' : (index >>> 1).toNat = (pairUp hashPair (y :: ys)).length := by
      rw [Bits.UInt64.toNat_shiftRight_one, hidx, length_pairUp]
    rw [hsize]
    rcases Nat.mod_two_eq_zero_or_one (y :: ys).length with heven | hodd
    · -- a left node: nothing is read, the node is paired with itself
      have hbit : index &&& 1 = 0 := by rw [Bits.UInt64.and_one_eq_zero_iff, hidx]; exact heven
      have hroot : merkleLoop hashPair empty ((y :: ys) ++ [t]) =
          merkleLoop hashPair empty (pairUp hashPair (y :: ys) ++ [hashPair t t]) := by
        rw [merkleLoop_append_singleton hashPair empty hne, carryUp_of_even hashPair _ t heven]
      rw [appendLoop_succ_of_left hashPair hbit, frontier_of_even hashPair hne heven,
        appendLoop_spec (pairUp hashPair (y :: ys)) (hashPair t t) true rest _ _ hidx']
      cases isPartial with
      | false =>
        -- `t` is complete, hence the new frontier node of this level
        rw [activeNodesOf_append_of_even hashPair empty hne heven, hroot]
        simp
      | true =>
        rw [hroot]
        simp
    · -- a right node: its left sibling is the last complete node of this level
      obtain ⟨l, hl⟩ : ∃ l, (y :: ys).getLast? = some l :=
        ⟨_, List.getLast?_eq_some_getLast hne⟩
      have hbit : ¬ index &&& 1 = 0 := by
        rw [Bits.UInt64.and_one_eq_zero_iff, hidx]
        omega
      have hcarry : carryUp hashPair (y :: ys) t = hashPair l t :=
        carryUp_of_odd hashPair _ l t hodd hl
      rw [frontier_of_odd hashPair hodd hl, List.cons_append,
        appendLoop_succ_of_right hashPair hbit,
        appendLoop_spec (pairUp hashPair (y :: ys)) (hashPair l t) isPartial rest _ _ hidx']
      cases isPartial with
      | false =>
        -- the pair is complete: the level above describes the same active nodes
        have hZ : pairUp hashPair ((y :: ys) ++ [t]) = pairUp hashPair (y :: ys) ++ [hashPair l t] := by
          rw [pairUp_append_singleton_of_odd hashPair _ t hodd, hcarry]
        have hlen : ((y :: ys) ++ [t]).length % 2 = 0 := by
          simp only [List.length_append, List.length_singleton]
          omega
        have hact : activeNodesOf hashPair empty ((y :: ys) ++ [t]) =
            activeNodesOf hashPair empty (pairUp hashPair (y :: ys) ++ [hashPair l t]) := by
          rw [activeNodesOf_of_even hashPair empty (List.append_ne_nil_of_right_ne_nil _
            (List.cons_ne_nil t [])) hlen, hZ]
        rw [hact]
        simp
      | true =>
        rw [merkleLoop_append_singleton hashPair empty hne, hcarry]
        simp
termination_by Y => Y.length
decreasing_by all_goals exact length_pairUp_lt hashPair (List.cons_ne_nil y ys)

/-! ### Runs of appends -/

/-- One append to the accumulator of `ds`, while the leaf count fits. -/
theorem append_activeNodesOf (ds : List D) (d : D) (h : ds.length < 2 ^ 64 - 1) :
    append hashPair ⟨UInt64.ofNat ds.length, activeNodesOf hashPair empty ds⟩ d =
      some ⟨UInt64.ofNat (ds ++ [d]).length, activeNodesOf hashPair empty (ds ++ [d])⟩ := by
  have hcount : (UInt64.ofNat ds.length).toNat = ds.length := by
    rw [UInt64.toNat_ofNat']
    omega
  have hdepth : calcluateMaxDepth (UInt64.ofNat ds.length + 1) - 1 = ds.length.size := by
    rw [calcluateMaxDepth_succ (by omega), hcount]
    rfl
  have hloop := appendLoop_spec hashPair empty ds d false
    (if ds.length = 0 ∨ ds.length.isPowerOfTwo then [] else [merkle hashPair empty ds]) []
    (UInt64.ofNat ds.length) hcount
  simp only [append, hdepth]
  rw [activeNodesOf, hloop]
  have hsucc : UInt64.ofNat ds.length + 1 = UInt64.ofNat (ds.length + 1) := by
    rw [← UInt64.toNat_inj, UInt64.toNat_add, hcount, UInt64.toNat_ofNat']
    rfl
  simp only [Bool.false_eq_true, if_false, List.nil_append, Option.pure_def, Option.bind_eq_bind,
    Option.bind_some, List.length_append, List.length_singleton, hsucc]

/-- **The accumulator after a run.** Appending fewer than `2 ^ 64` digests to the
empty accumulator counts them and leaves exactly `activeNodesOf ds`. -/
theorem appendAll_eq (ds : List D) (h : ds.length < 2 ^ 64) :
    appendAll hashPair init ds =
      some ⟨UInt64.ofNat ds.length, activeNodesOf hashPair empty ds⟩ := by
  induction ds using List.reverseRecOn with
  | nil => simp [appendAll, init]
  | append_singleton ds d ih =>
    have hlen : ds.length < 2 ^ 64 - 1 := by
      simp only [List.length_append, List.length_singleton] at h
      omega
    rw [appendAll, List.foldlM_append, ← appendAll, ih (by omega)]
    simp only [Option.bind_eq_bind, Option.bind_some, List.foldlM_cons, List.foldlM_nil]
    rw [append_activeNodesOf hashPair empty ds d hlen]
    rfl

/-- The root read off `activeNodesOf ds` is `merkle ds`. -/
theorem getRoot_activeNodesOf (ds : List D) (h : ds.length < 2 ^ 64) :
    getRoot empty ⟨UInt64.ofNat ds.length, activeNodesOf hashPair empty ds⟩ =
      some (merkle hashPair empty ds) := by
  by_cases hds : ds = []
  · subst hds
    simp [getRoot, merkle]
  · have hpos : 0 < ds.length := List.length_pos_iff.mpr hds
    have hcount : UInt64.ofNat ds.length > 0 := by
      rw [gt_iff_lt, UInt64.lt_iff_toNat_lt, UInt64.toNat_ofNat', UInt64.toNat_zero,
        Nat.mod_eq_of_lt h]
      exact hpos
    rw [getRoot, if_pos hcount, activeNodesOf]
    by_cases hpow : ds.length.isPowerOfTwo
    · obtain ⟨k, hk⟩ := hpow
      rw [if_pos (Or.inr ⟨k, hk⟩), frontier_of_isPowerOfTwo hashPair empty k _ hk]
      rfl
    · rw [if_neg (not_or.mpr ⟨by omega, hpow⟩)]
      simp

/-- **The incremental root is the batch root.** For every sequence of fewer than
`2 ^ 64` digests, appending them one by one to the empty accumulator succeeds,
counts them, leaves the frontier of the leaves (and the root) as the active
nodes, and `get_root` returns `merkle` of the sequence. Applied to every prefix
of a sequence it describes every intermediate accumulator. -/
theorem appendAll_getRoot_eq_merkle (ds : List D) (h : ds.length < 2 ^ 64) :
    ∃ m, appendAll hashPair init ds = some m ∧ m.nodeCount.toNat = ds.length ∧
      m.activeNodes = activeNodesOf hashPair empty ds ∧
      getRoot empty m = some (merkle hashPair empty ds) := by
  refine ⟨_, appendAll_eq hashPair empty ds h, ?_, rfl, getRoot_activeNodesOf hashPair empty ds h⟩
  rw [UInt64.toNat_ofNat']
  exact Nat.mod_eq_of_lt h

theorem appendAll_getRoot_eq_merkle_five :
    [1, 2, 3, 4, 5].length < 2 ^ 64 ∧
      ∃ m, appendAll (· + ·) init [1, 2, 3, 4, 5] = some m ∧ m.nodeCount.toNat = 5 ∧
        m.activeNodes = activeNodesOf (· + ·) 0 [1, 2, 3, 4, 5] ∧
        getRoot 0 m = some (merkle (· + ·) 0 [1, 2, 3, 4, 5]) :=
  ⟨by decide, appendAll_getRoot_eq_merkle (· + ·) 0 [1, 2, 3, 4, 5] (by decide)⟩

/-- The `2 ^ 64`-th append wraps `_node_count` to `0`: `calcluate_max_depth(0)` is
`0`, the walk climbs no level, and only the new leaf is kept. -/
theorem appendAll_replicate_two_pow_64 :
    appendAll (fun _ _ : Bool => true) init (List.replicate (2 ^ 64) true) =
      some ⟨0, [true]⟩ := by
  have hsplit : List.replicate (2 ^ 64) true = List.replicate (2 ^ 64 - 1) true ++ [true] := by
    rw [← List.replicate_succ', Nat.sub_add_cancel Nat.one_le_two_pow]
  have hlen : (List.replicate (2 ^ 64 - 1) true).length < 2 ^ 64 := by
    rw [List.length_replicate]
    decide
  have hwrap : UInt64.ofNat (2 ^ 64 - 1) + 1 = 0 := by decide
  have hdepth : calcluateMaxDepth 0 - 1 = 0 := rfl
  rw [hsplit, appendAll, List.foldlM_append, ← appendAll,
    appendAll_eq (fun _ _ => true) false _ hlen, List.length_replicate]
  simp only [Option.bind_eq_bind, Option.bind_some, List.foldlM_cons, List.foldlM_nil, append,
    hwrap, hdepth]
  rw [appendLoop.eq_1]
  rfl

/-- With every hash `true`, the root of `2 ^ 64` leaves `true` is `true`. -/
theorem merkle_replicate_two_pow_64 :
    merkle (fun _ _ => true) false (List.replicate (2 ^ 64) true) = true := by
  have hne : List.replicate (2 ^ 64) true ≠ [] := by
    rw [ne_eq, List.replicate_eq_nil_iff]
    exact Nat.pos_iff_ne_zero.mp (Nat.two_pow_pos 64)
  rw [merkle_of_ne_nil _ _ hne]
  exact merkleLoop_induction (fun _ _ : Bool => true) false (fun b => b = true) (fun _ _ => rfl)
    (List.replicate (2 ^ 64) true) hne (fun _ hx => List.eq_of_mem_replicate hx)

/-- At `2 ^ 64` leaves the root is lost: `get_root` returns the empty digest
while `merkle` of the leaves is a hash. -/
theorem getRoot_appendAll_replicate_two_pow_64 :
    ∃ m, appendAll (fun _ _ : Bool => true) init (List.replicate (2 ^ 64) true) = some m ∧
      getRoot false m ≠ some (merkle (fun _ _ => true) false (List.replicate (2 ^ 64) true)) := by
  refine ⟨_, appendAll_replicate_two_pow_64, ?_⟩
  rw [merkle_replicate_two_pow_64]
  simp [getRoot]

end IncrementalMerkle

end Eosio.Chain
