import Mathlib
import TaurusNode.Chain.ForkDatabaseHead

/-!
# Orphans in the fork database

`advance_root` walks the `previous` links from the new root down and throws
"invariant violation: orphaned branch was present in forked database" when it
meets an id that is neither in the index nor the root's. The invariant it
relies on is `NoOrphans`: the parent of every block of the index is the root or
another block of the index.

`add` links a block only to the root or to a block of the index, `mark_valid`
and `rollback_head_to_root` change flags alone, and `remove_fork` removes every
descendant of what it removes (`Prunes.parent_mem`). `advance_root` removes the
new root alone, whose children then hang off the new root, and every fork off
the path below it, which holds the old root's id (`root_mem_blocksToRemove`).
So every operation but `remove_head` keeps `NoOrphans` (`apply_noOrphans`), and
so does every run from `reset` without one (`run_noOrphans`).

`remove_head` erases the head block alone. It keeps `NoOrphans` when no block
is built on the head (`removeHead_noOrphans`); otherwise the blocks built on it
are left without their parent (`run_removeHead_orphan`), and `advance_root` to
one of them then throws the invariant violation.
-/

namespace Eosio.Chain

variable {I : Type} [LinearOrder I]

namespace ForkDatabase

/-- The parent of every block of the index is the root or another block of the index. -/
def NoOrphans (db : ForkDatabase I) : Prop :=
  ∀ b ∈ db.index, b.previous = db.root.id ∨ ∃ c ∈ db.index, c.id = b.previous

instance instDecidablePredNoOrphans : DecidablePred (NoOrphans : ForkDatabase I → Prop) :=
  fun db =>
  inferInstanceAs (Decidable (∀ b ∈ db.index, b.previous = db.root.id ∨ ∃ c ∈ db.index, c.id = b.previous))

omit [LinearOrder I] in
theorem noOrphans_reset (rootBhs : BlockHeaderState I) : (reset rootBhs).NoOrphans := by
  intro b hb
  cases hb

omit [LinearOrder I] in
/-- Changing the blocks of the index without changing their ids and parents keeps `NoOrphans`. -/
theorem NoOrphans.of_map {db db' : ForkDatabase I} (h : db.NoOrphans)
    {f : BlockState I → BlockState I} (hindex : db'.index = db.index.map f)
    (hroot : db'.root.id = db.root.id) (hid : ∀ b, (f b).id = b.id)
    (hprev : ∀ b, (f b).previous = b.previous) : db'.NoOrphans := by
  intro b hb
  rw [hindex] at hb ⊢
  obtain ⟨b₀, hb₀, rfl⟩ := List.mem_map.mp hb
  rw [hprev, hroot]
  rcases h b₀ hb₀ with hparent | ⟨c, hc, hcb⟩
  · exact Or.inl hparent
  · exact Or.inr ⟨f c, List.mem_map_of_mem hc, by rw [hid, hcb]⟩

omit [LinearOrder I] in
/-- Appending a block whose parent is the root or a block of the index keeps `NoOrphans`. -/
theorem NoOrphans.append {db db' : ForkDatabase I} (h : db.NoOrphans) {n : BlockState I}
    (hn : n.previous = db.root.id ∨ ∃ c ∈ db.index, c.id = n.previous)
    (hindex : db'.index = db.index ++ [n]) (hroot : db'.root = db.root) : db'.NoOrphans := by
  intro b hb
  rw [hindex, hroot] at *
  rcases List.mem_append.mp hb with hb | hb
  · rcases h b hb with hparent | ⟨c, hc, hcb⟩
    · exact Or.inl hparent
    · exact Or.inr ⟨c, List.mem_append_left _ hc, hcb⟩
  · rw [List.mem_singleton.mp hb]
    rcases hn with hparent | ⟨c, hc, hcb⟩
    · exact Or.inl hparent
    · exact Or.inr ⟨c, List.mem_append_left _ hc, hcb⟩

omit [LinearOrder I] in
/-- Pruning forks keeps `NoOrphans`: a block that stays keeps its parent. -/
theorem NoOrphans.of_prunes {db db' : ForkDatabase I} {xs : List I} (h : db.NoOrphans)
    (hp : Prunes db db' xs) : db'.NoOrphans := by
  intro b hb
  rw [hp.root_eq]
  rcases h b (hp.sublist.subset hb) with hparent | ⟨c, hc, hcb⟩
  · exact Or.inl hparent
  · exact Or.inr ⟨c, hp.parent_mem b hb c hc hcb, hcb⟩

/-! ### One operation -/

omit [LinearOrder I] in
theorem rollbackHeadToRoot_noOrphans {db : ForkDatabase I} (h : db.NoOrphans) :
    db.rollbackHeadToRoot.NoOrphans :=
  h.of_map rfl rfl (fun _ => rfl) (fun _ => rfl)

theorem add_noOrphans {db db' : ForkDatabase I} {n : BlockState I} {ignoreDuplicate : Bool}
    (h : db.NoOrphans) (hadd : db.add n ignoreDuplicate = some db') : db'.NoOrphans := by
  unfold add at hadd
  split at hadd
  · cases hadd
  rename_i parent hparent
  -- `get_block_header` finds the parent as the root or in the index
  have hn : n.previous = db.root.id ∨ ∃ c ∈ db.index, c.id = n.previous := by
    unfold getBlockHeader at hparent
    split at hparent
    · rename_i hroot
      exact Or.inl hroot.symm
    · exact Or.inr ⟨parent, List.mem_of_find?_eq_some hparent, by simpa using List.find?_some hparent⟩
  split at hadd
  · split at hadd
    · cases hadd
      exact h
    · cases hadd
  split at hadd
  · split at hadd
    · cases hadd
      exact h.append hn rfl rfl
    · cases hadd
      exact h.append hn rfl rfl
  · cases hadd
    exact h.append hn rfl rfl

theorem markValid_noOrphans {db db' : ForkDatabase I} {id : I} (h : db.NoOrphans)
    (hmv : db.markValid id = some db') : db'.NoOrphans := by
  -- marking a block changes its flag alone
  have hid : ∀ b : BlockState I,
      (if b.id = id then { b with validated := true } else b).id = b.id := by
    intro b
    split <;> rfl
  have hprev : ∀ b : BlockState I,
      (if b.id = id then { b with validated := true } else b).previous = b.previous := by
    intro b
    split <;> rfl
  unfold markValid at hmv
  split at hmv
  · cases hmv
  split at hmv
  · cases hmv
    exact h
  dsimp only at hmv
  split at hmv
  · split at hmv
    · cases hmv
      exact h.of_map rfl rfl hid hprev
    · cases hmv
      exact h.of_map rfl rfl hid hprev
  · cases hmv

theorem removeFork_noOrphans {db db' : ForkDatabase I} {x : I} (h : db.NoOrphans)
    (hrf : db.removeFork x = some db') : db'.NoOrphans :=
  h.of_prunes (removeFork_prunes hrf)

theorem advanceRoot_noOrphans {db db' : ForkDatabase I} {id : I} (h : db.NoOrphans)
    (hadv : db.advanceRoot id = some db') : db'.NoOrphans := by
  obtain ⟨newRoot, toRemove, db₁, hnew, -, hroot_mem, hp, rfl⟩ := advanceRoot_eq hadv
  have hnew_id : newRoot.id = id := by simpa using List.find?_some hnew
  intro b hb
  have hb₀ : b ∈ db.index.filter fun b => b.id ≠ id := hp.sublist.subset hb
  rcases h b (List.mem_of_mem_filter hb₀) with hparent | ⟨c, hc, hcb⟩
  · -- the old root's id is among the ids whose forks went, so no block left is a child of it
    rw [← hparent] at hroot_mem
    exact absurd hroot_mem (hp.previous_not_mem b hb)
  · by_cases hcid : c.id = id
    · -- a child of the new root
      left
      rw [← hcb, hcid, hnew_id]
    · right
      have hc₀ : c ∈ db.index.filter fun b => b.id ≠ id :=
        List.mem_filter.mpr ⟨hc, by simpa using hcid⟩
      exact ⟨c, hp.parent_mem b hb c hc₀ hcb, hcb⟩

/-- What a successful `remove_head` does to the index and the root. -/
theorem removeHead_index {db db' : ForkDatabase I} {id : I} (h : db.removeHead id = some db') :
    db'.index = db.index.filter (fun b => b.id ≠ id) ∧ db'.root = db.root := by
  unfold removeHead at h
  split at h
  · cases h
  split at h
  · cases h
  split at h
  · split at h
    · cases h
      exact ⟨rfl, rfl⟩
    · cases h
      exact ⟨rfl, rfl⟩
  · cases h
    exact ⟨rfl, rfl⟩

/-- `remove_head` keeps `NoOrphans` when no block is built on the head. -/
theorem removeHead_noOrphans {db db' : ForkDatabase I} {id : I} (h : db.NoOrphans)
    (hleaf : ∀ b ∈ db.index, b.previous ≠ id) (hrh : db.removeHead id = some db') :
    db'.NoOrphans := by
  obtain ⟨hindex, hroot⟩ := removeHead_index hrh
  intro b hb
  rw [hindex] at hb ⊢
  rw [hroot]
  have hb₀ := List.mem_filter.mp hb
  rcases h b hb₀.1 with hparent | ⟨c, hc, hcb⟩
  · exact Or.inl hparent
  · -- the parent is not the head, so it stays
    have hcid : c.id ≠ id := hcb ▸ hleaf b hb₀.1
    exact Or.inr ⟨c, List.mem_filter.mpr ⟨hc, by simpa using hcid⟩, hcb⟩

/-- Every operation but `remove_head` that does not throw keeps `NoOrphans`. -/
theorem apply_noOrphans {db db' : ForkDatabase I} {op : ForkDatabaseOp I} (h : db.NoOrphans)
    (hop : ∀ id, op ≠ .removeHead id) (happly : db.apply op = some db') : db'.NoOrphans := by
  cases op with
  | add n ignoreDuplicate => exact add_noOrphans h happly
  | markValid id => exact markValid_noOrphans h happly
  | advanceRoot id => exact advanceRoot_noOrphans h happly
  | removeFork id => exact removeFork_noOrphans h happly
  | removeHead id => exact absurd rfl (hop id)
  | rollbackHeadToRoot =>
    cases happly
    exact rollbackHeadToRoot_noOrphans h

/-- **No orphans without `remove_head`.** Every state reached from `reset` by operations other
than `remove_head` that do not throw has no orphans. -/
theorem run_noOrphans (rootBhs : BlockHeaderState I) {ops : List (ForkDatabaseOp I)}
    (hops : ∀ op ∈ ops, ∀ id, op ≠ .removeHead id) {db : ForkDatabase I}
    (h : (reset rootBhs).run ops = some db) : db.NoOrphans :=
  PartialRun.foldlM_invariant NoOrphans
    (fun _ hdb op hop _ hstep => apply_noOrphans hdb (hops op hop) hstep) (noOrphans_reset rootBhs) h

/-! ### `remove_head` leaves orphans -/

/-- A root with id `0` at block `10`. -/
def orphanRoot : BlockHeaderState ℕ := ⟨0, 100, 10, 5⟩

/-- Block `11`, with id `1`, on the root. -/
def orphanParent : BlockState ℕ := ⟨⟨1, 0, 11, 5⟩, false, true⟩

/-- Block `12`, with id `2`, on block `11`. -/
def orphanChild : BlockState ℕ := ⟨⟨2, 1, 12, 5⟩, false, true⟩

/-- Add block `11` and validate it, which makes it the head; add block `12` on it; remove the
head. -/
def orphanOps : List (ForkDatabaseOp ℕ) :=
  [.add orphanParent false, .markValid 1, .add orphanChild false, .removeHead 1]

/-- The run succeeds and leaves block `12` in the index without its parent. Validating block `12`
then makes it the head, and `advance_root` to it throws, as its walk down from block `12` meets
id `1`, which is neither in the index nor the root's. -/
theorem run_removeHead_orphan :
    (reset orphanRoot).run orphanOps = some ⟨[orphanChild], ⟨orphanRoot, true, false⟩, .root⟩ ∧
    ¬ (⟨[orphanChild], ⟨orphanRoot, true, false⟩, .root⟩ : ForkDatabase ℕ).NoOrphans ∧
    (reset orphanRoot).run (orphanOps ++ [.markValid 2]) =
      some ⟨[{ orphanChild with validated := true }], ⟨orphanRoot, true, false⟩, .block 2⟩ ∧
    (reset orphanRoot).run (orphanOps ++ [.markValid 2, .advanceRoot 2]) = none := by
  refine ⟨by decide, by decide, by decide, by decide⟩

end ForkDatabase

end Eosio.Chain
