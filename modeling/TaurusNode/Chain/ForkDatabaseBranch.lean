import Mathlib
import TaurusNode.Chain.ForkDatabaseTree

/-!
# The branches of two blocks

In a fork switch the controller pops the blocks of the old branch and applies those of the new
one, which `fetch_branch_from(first, second)` (libraries/chain/fork_database.cpp) returns: the
blocks from `first` and from `second` down to their lowest common ancestor, that ancestor left out.
It walks the higher of the two blocks down to the height of the lower one (two loops that look the
parent up among the root and the index), then walks both down in step until their `previous` ids
agree (looking the parents up in the index alone), and pushes that last pair.

The branches are descents along `parent` (`ForkDatabaseTree`). The loops need the fork database
to be a tree under its root (`Linked`), as every state reached from `reset` without `remove_head`
is (`run_linked`).

* `fetchBranchFrom_branches`: in a linked fork database, for two blocks of it or its root,
  `fetch_branch_from` does not throw; it returns the descents from the two blocks to a common
  ancestor `c`, in strictly decreasing block numbers, with no block in both, each non-empty one
  ending at a child of `c`; and every common ancestor of the two blocks is an ancestor of `c`.
* `fetchBranchFrom_orphan`: `remove_head` can leave a block without its parent in the index
  (`run_removeHead_orphan`), and `fetch_branch_from` from that block to the root then throws.
-/

namespace Eosio.Chain

open ParentTree

variable {I : Type} [LinearOrder I]

namespace ForkDatabase

variable (db : ForkDatabase I)

/-- The loops `while (branch->block_num > n)` of `fetch_branch_from`: push the block onto the
branch and step to its parent, the root or a block of the index. The branch and the block they
stop at. -/
def lowerTo (n : UInt32) : ℕ → List (BlockState I) → BlockState I →
    Option (List (BlockState I) × BlockState I)
  | 0, branch, b => if b.blockNum > n then none else some (branch, b)
  | fuel + 1, branch, b =>
    if b.blockNum > n then
      match db.getBlockHeader b.previous with
      -- "block {id} does not exist"
      | none => none
      | some prev => lowerTo n fuel (branch ++ [b]) prev
    else some (branch, b)

/-- The loop `while (first_branch->header.previous != second_branch->header.previous)`: push both
blocks and step both to their parents, which it looks up in the index alone. The branches and the
two blocks it stops at. -/
def meetLoop : ℕ → List (BlockState I) × List (BlockState I) → BlockState I → BlockState I →
    Option ((List (BlockState I) × List (BlockState I)) × BlockState I × BlockState I)
  | 0, result, f, s => if f.previous ≠ s.previous then none else some (result, f, s)
  | fuel + 1, result, f, s =>
    if f.previous ≠ s.previous then
      match db.getBlock f.previous, db.getBlock s.previous with
      | some f', some s' => meetLoop fuel (result.1 ++ [f], result.2 ++ [s]) f' s'
      -- "block {id} does not exist"
      | _, _ => none
    else some (result, f, s)

/-- `fetch_branch_from(first, second)`. -/
def fetchBranchFrom (first second : I) : Option (List (BlockState I) × List (BlockState I)) := do
  -- the loops follow `previous` links, at most as many as the index has blocks
  let fuel := db.index.length + 1
  let firstBranch ← db.getBlockHeader first
  let secondBranch ← db.getBlockHeader second
  let (result₁, firstBranch) ← db.lowerTo secondBranch.blockNum fuel [] firstBranch
  let (result₂, secondBranch) ← db.lowerTo firstBranch.blockNum fuel [] secondBranch
  if firstBranch.id = secondBranch.id then return (result₁, result₂)
  let ((result₁, result₂), firstBranch, secondBranch) ←
    db.meetLoop fuel (result₁, result₂) firstBranch secondBranch
  -- `first_branch && second_branch` holds: both were looked up
  return (result₁ ++ [firstBranch], result₂ ++ [secondBranch])


variable {db}

/-! ### The loops -/

/-- **The walk down to block number `n`** returns the descent to the first block at or below `n`. -/
theorem lowerTo_of_descent {n : UInt32} {b a : BlockState I} {l : List (BlockState I)}
    (h : Descent db.parent b l a) (habove : ∀ x ∈ l, n < x.blockNum) (hstop : a.blockNum ≤ n) :
    ∀ {fuel : ℕ} (acc : List (BlockState I)), l.length < fuel →
      db.lowerTo n fuel acc b = some (acc ++ l, a) := by
  induction h with
  | nil a =>
    intro fuel acc _
    have hstop' : ¬ a.blockNum > n := UInt32.not_lt.mpr hstop
    cases fuel <;> simp [lowerTo, hstop']
  | @cons b p a l hp _ ih =>
    intro fuel acc hfuel
    obtain ⟨fuel, rfl⟩ : ∃ f, fuel = f + 1 := ⟨fuel - 1, by simp at hfuel; omega⟩
    have hb : b.blockNum > n := habove b List.mem_cons_self
    have hprev : db.getBlockHeader b.previous = some p := by
      rwa [← parent_of_mem (mem_index_of_parent hp)]
    rw [lowerTo, if_pos hb, hprev]
    simp only
    rw [ih (fun x hx => habove x (List.mem_cons_of_mem b hx)) hstop (acc ++ [b])
      (by simpa using hfuel)]
    simp

section Linked

variable (hdb : db.Linked)
include hdb

/-- Two blocks of the index at one height whose `previous` ids differ have their parents in the
index, as the root is the one block at its height. -/
theorem parents_of_previous_ne {f s : BlockState I} (hf : f ∈ db.index) (hs : s ∈ db.index)
    (hnum : f.blockNum = s.blockNum) (hne : f.previous ≠ s.previous) :
    ∃ pf ps, db.getBlock f.previous = some pf ∧ db.getBlock s.previous = some ps ∧
      db.parent f = some pf ∧ db.parent s = some ps ∧ pf ∈ db.index ∧ ps ∈ db.index := by
  obtain ⟨pf, hpf, hnumf⟩ := hdb.parent_blockNum f hf
  obtain ⟨ps, hps, hnums⟩ := hdb.parent_blockNum s hs
  obtain ⟨hpfm, hpfid⟩ := (getBlockHeader_eq_some_iff hdb).mp hpf
  obtain ⟨hpsm, hpsid⟩ := (getBlockHeader_eq_some_iff hdb).mp hps
  have hheight : pf.blockNum.toNat = ps.blockNum.toNat := by
    rw [hnum] at hnumf
    omega
  -- a parent that is the root makes the other one the root too, and the `previous` ids agree
  have hpfi : pf ∈ db.index := by
    rcases hpfm with rfl | hpfi
    · have := eq_root_of_blockNum hdb hpsm hheight.symm
      exact absurd (hpfid.symm.trans (this ▸ hpsid)) hne
    · exact hpfi
  have hpsi : ps ∈ db.index := by
    rcases hpsm with rfl | hpsi
    · have := eq_root_of_blockNum hdb (.inr hpfi) hheight
      exact absurd (hpfid.symm.trans (this ▸ hpsid)) hne
    · exact hpsi
  refine ⟨pf, ps, ?_, ?_, by rwa [parent_of_mem hf], by rwa [parent_of_mem hs], hpfi, hpsi⟩
  · exact (getBlock_eq_some_iff hdb.idsUnique).mpr ⟨hpfi, hpfid⟩
  · exact (getBlock_eq_some_iff hdb.idsUnique).mpr ⟨hpsi, hpsid⟩

/-- **The walk in step** from two distinct blocks of the index at one height stops at two
distinct children of one block, after the same number of steps on both sides. The induction is
on the height above the root. -/
theorem meetLoop_spec :
    ∀ (k : ℕ) {f s : BlockState I}, f ∈ db.index → s ∈ db.index → f.blockNum = s.blockNum →
      f.blockNum.toNat = db.root.blockNum.toNat + 1 + k → f.id ≠ s.id →
      ∀ {fuel : ℕ} (acc : List (BlockState I) × List (BlockState I)), k < fuel →
      ∃ m₁ m₂ f' s' c, db.meetLoop fuel acc f s = some ((acc.1 ++ m₁, acc.2 ++ m₂), f', s') ∧
        Descent db.parent f m₁ f' ∧ Descent db.parent s m₂ s' ∧ f' ≠ s' ∧
        db.parent f' = some c ∧ db.parent s' = some c := by
  intro k
  induction k with
  | zero => ?_
  | succ k ih => ?_
  all_goals
    intro f s hf hs hnum hk hid fuel acc hfuel
    by_cases hprev : f.previous = s.previous
  -- the `previous` ids agree: the loop stops at once, at two children of one block
  case pos | pos =>
    obtain ⟨c, hc, -⟩ := hdb.parent_blockNum f hf
    have hstop : db.meetLoop fuel acc f s = some (acc, f, s) := by
      cases fuel <;> simp [meetLoop, hprev]
    refine ⟨[], [], f, s, c, by simpa using hstop, .nil f, .nil s,
      fun h => hid (h ▸ rfl), by rwa [parent_of_mem hf], ?_⟩
    rwa [parent_of_mem hs, ← hprev]
  -- they differ: both parents are in the index, so above the root
  case neg =>
    obtain ⟨pf, ps, -, -, hpf, -, hpfi, -⟩ := parents_of_previous_ne hdb hf hs hnum hprev
    have h₁ := root_lt hdb hpfi
    have h₂ : pf.blockNum.toNat + 1 = f.blockNum.toNat := ranked hdb f pf hpf
    omega
  case neg =>
    obtain ⟨pf, ps, hgf, hgs, hpf, hps, hpfi, hpsi⟩ := parents_of_previous_ne hdb hf hs hnum hprev
    obtain ⟨fuel, rfl⟩ : ∃ n, fuel = n + 1 := ⟨fuel - 1, by omega⟩
    have hstepf : pf.blockNum.toNat + 1 = f.blockNum.toNat := ranked hdb f pf hpf
    have hsteps : ps.blockNum.toNat + 1 = s.blockNum.toNat := ranked hdb s ps hps
    have hpnum : pf.blockNum = ps.blockNum := by
      apply UInt32.toNat_inj.mp
      rw [hnum] at hstepf
      omega
    have hpid : pf.id ≠ ps.id := by
      rwa [← previous_of_parent hdb hpf, ← previous_of_parent hdb hps]
    obtain ⟨m₁, m₂, f', s', c, hloop, hd₁, hd₂, hne, hc₁, hc₂⟩ :=
      @ih pf ps hpfi hpsi hpnum (by omega) hpid fuel (acc.1 ++ [f], acc.2 ++ [s]) (by omega)
    refine ⟨f :: m₁, s :: m₂, f', s', c, ?_, .cons hpf hd₁, .cons hps hd₂, hne, hc₁, hc₂⟩
    rw [meetLoop, if_pos hprev, hgf, hgs]
    simpa using hloop

/-- The walk down to `n` from a block of the database stops at a block of the database at the
lower of the two heights. -/
theorem lowerTo_spec {b : BlockState I} (hb : db.Mem b) {n : UInt32}
    (hn : db.root.blockNum.toNat ≤ n.toNat) :
    ∃ l a, db.lowerTo n (db.index.length + 1) [] b = some (l, a) ∧ Descent db.parent b l a ∧
      db.Mem a ∧ a.blockNum.toNat = min b.blockNum.toNat n.toNat := by
  by_cases hle : n.toNat ≤ b.blockNum.toNat
  · -- the block is at or above `n`: the walk goes down to its ancestor at `n`
    obtain ⟨l, a, hl, ha, hma⟩ := exists_descent hdb hb hn hle
    have habove : ∀ x ∈ l, n < x.blockNum := by
      intro x hx
      have hlt : a.blockNum.toNat < x.blockNum.toNat := hl.rank_lt_of_mem (ranked hdb) hx
      exact UInt32.lt_iff_toNat_lt.mpr (ha ▸ hlt)
    have hstop : a.blockNum ≤ n := UInt32.le_iff_toNat_le.mpr ha.le
    refine ⟨l, a, ?_, hl, hma, by omega⟩
    simpa using lowerTo_of_descent hl habove hstop [] (length_lt_fuel hdb hl)
  · -- the block is below `n`: the walk does not move
    have hstop : b.blockNum ≤ n := UInt32.le_iff_toNat_le.mpr (by omega)
    refine ⟨[], b, ?_, .nil b, hb, by omega⟩
    simpa using lowerTo_of_descent (.nil b) (by simp) hstop [] (Nat.succ_pos _)

/-- **The first two loops** bring both blocks to the lower of their heights; the branch of the
lower block is empty. -/
theorem lowerTo_lowerTo {fb sb : BlockState I} (hf : db.Mem fb) (hs : db.Mem sb) :
    ∃ l₁ f₀ l₂ s₀, db.lowerTo sb.blockNum (db.index.length + 1) [] fb = some (l₁, f₀) ∧
      db.lowerTo f₀.blockNum (db.index.length + 1) [] sb = some (l₂, s₀) ∧
      Descent db.parent fb l₁ f₀ ∧ Descent db.parent sb l₂ s₀ ∧ db.Mem f₀ ∧ db.Mem s₀ ∧
      f₀.blockNum = s₀.blockNum ∧ (l₁ = [] ∨ l₂ = []) := by
  obtain ⟨l₁, f₀, h₁, hd₁, hf₀, hnum₁⟩ := lowerTo_spec hdb hf (root_le hdb hs)
  obtain ⟨l₂, s₀, h₂, hd₂, hs₀, hnum₂⟩ := lowerTo_spec hdb hs (root_le hdb hf₀)
  refine ⟨l₁, f₀, l₂, s₀, h₁, h₂, hd₁, hd₂, hf₀, hs₀, UInt32.toNat_inj.mp (by omega), ?_⟩
  have hlen₁ : f₀.blockNum.toNat + l₁.length = fb.blockNum.toNat :=
    hd₁.rank_add_length (ranked hdb)
  have hlen₂ : s₀.blockNum.toNat + l₂.length = sb.blockNum.toNat :=
    hd₂.rank_add_length (ranked hdb)
  rcases le_total fb.blockNum.toNat sb.blockNum.toNat with hle | hle
  · exact .inl (List.eq_nil_of_length_eq_zero (by omega))
  · exact .inr (List.eq_nil_of_length_eq_zero (by omega))

/-- `fetch_branch_from` returns the descents from the two blocks to a common ancestor, with no
block in both. -/
theorem fetchBranchFrom_descents {first second : I} {fb sb : BlockState I}
    (hfirst : db.getBlockHeader first = some fb) (hsecond : db.getBlockHeader second = some sb) :
    ∃ l₁ l₂ c, db.fetchBranchFrom first second = some (l₁, l₂) ∧ db.Mem c ∧
      Descent db.parent fb l₁ c ∧ Descent db.parent sb l₂ c ∧ ∀ x ∈ l₁, x ∉ l₂ := by
  have hf := ((getBlockHeader_eq_some_iff hdb).mp hfirst).1
  have hs := ((getBlockHeader_eq_some_iff hdb).mp hsecond).1
  obtain ⟨l₁, f₀, l₂, s₀, h₁, h₂, hd₁, hd₂, hf₀, hs₀, hnum, hempty⟩ := lowerTo_lowerTo hdb hf hs
  by_cases hid : f₀.id = s₀.id
  · -- one block is an ancestor of the other: the branches end at it
    obtain rfl := eq_of_id_eq hdb hf₀ hs₀ hid
    refine ⟨l₁, l₂, f₀, ?_, hf₀, hd₁, hd₂, ?_⟩
    · simp [fetchBranchFrom, hfirst, hsecond, h₁, h₂]
    · rcases hempty with rfl | rfl <;> simp
  · -- two blocks of the index at one height: the walk in step ends below both branches
    have hindex : ∀ {b : BlockState I}, db.Mem b → b.blockNum = f₀.blockNum → b ∈ db.index := by
      intro b hb hbnum
      rcases hb with rfl | hb
      · have h₀ := eq_root_of_blockNum hdb hf₀ (congrArg UInt32.toNat hbnum).symm
        have h₀' := eq_root_of_blockNum hdb hs₀ (congrArg UInt32.toNat (hnum ▸ hbnum)).symm
        exact absurd (h₀.trans h₀'.symm ▸ rfl) hid
      · exact hb
    have hf₀i := hindex hf₀ rfl
    have hs₀i := hindex hs₀ hnum.symm
    -- the height of `f₀` above the root is the length of a descent, so less than the fuel
    obtain ⟨m, r, hdr, hr, -⟩ := exists_descent hdb hf₀ le_rfl (root_le hdb hf₀)
    have hk : r.blockNum.toNat + m.length = f₀.blockNum.toNat := hdr.rank_add_length (ranked hdb)
    have hfuel := length_lt_fuel hdb hdr
    have hroot := root_lt hdb hf₀i
    obtain ⟨m₁, m₂, f', s', c, hloop, hm₁, hm₂, hne, hc₁, hc₂⟩ :=
      @meetLoop_spec _ _ _ hdb (f₀.blockNum.toNat - db.root.blockNum.toNat - 1) f₀ s₀ hf₀i hs₀i
        hnum (by omega) hid (db.index.length + 1) (l₁, l₂) (by omega)
    have hb₁ := (hd₁.append hm₁).concat hc₁
    have hb₂ := (hd₂.append hm₂).concat hc₂
    refine ⟨l₁ ++ m₁ ++ [f'], l₂ ++ m₂ ++ [s'], c, ?_, mem_of_parent hdb hc₁, hb₁, hb₂, ?_⟩
    · simp [fetchBranchFrom, hfirst, hsecond, h₁, h₂, hid, hloop]
    · exact Descent.disjoint_of_getLast_ne (ranked hdb) hb₁ hb₂ (by simp) (by simp)
        (by simpa using hne)

/-- A descent in the fork database goes down in block numbers. -/
theorem blockNum_decreasing {b a : BlockState I} {l : List (BlockState I)}
    (h : Descent db.parent b l a) : l.Pairwise fun x y => y.blockNum < x.blockNum :=
  (h.pairwise_rank_lt (ranked hdb)).imp fun hlt => UInt32.lt_iff_toNat_lt.mpr hlt

/-- The last block of a descent names the block reached as its `previous`. -/
theorem previous_getLast {b a : BlockState I} {l : List (BlockState I)}
    (h : Descent db.parent b l a) (hl : l ≠ []) : (l.getLast hl).previous = a.id :=
  previous_of_parent hdb (h.parent_getLast hl)

end Linked

/-- **`fetch_branch_from` returns the branches to the lowest common ancestor.** In a linked fork
database, for blocks `first` and `second` of the database or its root, it does not throw, and
returns the blocks from `first` and from `second`, each parent after its child, down to a common
ancestor `c` that they leave out, in strictly decreasing block numbers and with no block in both.
Each branch that is not empty ends at a child of `c`, and every common ancestor of the two blocks
is an ancestor of `c`. -/
theorem fetchBranchFrom_branches (hdb : db.Linked) {first second : I} {fb sb : BlockState I}
    (hfirst : db.getBlockHeader first = some fb) (hsecond : db.getBlockHeader second = some sb) :
    ∃ l₁ l₂ c, db.fetchBranchFrom first second = some (l₁, l₂) ∧ db.Mem c ∧
      Descent db.parent fb l₁ c ∧ Descent db.parent sb l₂ c ∧
      l₁.Pairwise (fun x y => y.blockNum < x.blockNum) ∧
      l₂.Pairwise (fun x y => y.blockNum < x.blockNum) ∧
      (∀ x ∈ l₁, x ∉ l₂) ∧ c ∉ l₁ ∧ c ∉ l₂ ∧
      (∀ h : l₁ ≠ [], (l₁.getLast h).previous = c.id) ∧
      (∀ h : l₂ ≠ [], (l₂.getLast h).previous = c.id) ∧
      ∀ a, IsAncestor db.parent a fb → IsAncestor db.parent a sb → IsAncestor db.parent a c := by
  obtain ⟨l₁, l₂, c, heq, hc, hd₁, hd₂, hdis⟩ := fetchBranchFrom_descents hdb hfirst hsecond
  refine ⟨l₁, l₂, c, heq, hc, hd₁, hd₂, blockNum_decreasing hdb hd₁, blockNum_decreasing hdb hd₂,
    hdis, hd₁.not_mem (ranked hdb), hd₂.not_mem (ranked hdb), previous_getLast hdb hd₁,
    previous_getLast hdb hd₂, fun a ha₁ ha₂ => isAncestor_of_disjoint hd₁ hd₂ hdis ha₁ ha₂⟩

/-- The fork of the `regular_blocks` test: blocks 2 and 3 on the genesis block 1, the root, and
two blocks 4 on block 3, with the ids 4 and 5. -/
def regularBlocks : ForkDatabase ℕ where
  index := [⟨⟨2, 1, 2, 0⟩, true, true⟩, ⟨⟨3, 2, 3, 0⟩, true, true⟩, ⟨⟨4, 3, 4, 0⟩, true, true⟩,
    ⟨⟨5, 3, 4, 0⟩, true, true⟩]
  root := ⟨⟨1, 0, 1, 0⟩, true, false⟩
  head := .block 4

/-- As the test checks, the two blocks 4 are each their own branch. -/
example : regularBlocks.fetchBranchFrom 4 5 =
    some ([⟨⟨4, 3, 4, 0⟩, true, true⟩], [⟨⟨5, 3, 4, 0⟩, true, true⟩]) := by
  decide

theorem linked_regularBlocks : regularBlocks.Linked := by
  refine ⟨by unfold IdsUnique; decide, by decide, fun b hb => ?_⟩
  simp only [regularBlocks, List.mem_cons, List.not_mem_nil, or_false] at hb
  rcases hb with rfl | rfl | rfl | rfl <;> exact ⟨_, rfl, rfl⟩

theorem fetchBranchFrom_branches_regularBlocks :
    ∃ l₁ l₂ c, regularBlocks.fetchBranchFrom 4 5 = some (l₁, l₂) ∧ c ∉ l₁ ∧ c ∉ l₂ := by
  obtain ⟨l₁, l₂, c, h, -, -, -, -, -, -, h₁, h₂, -⟩ :=
    @fetchBranchFrom_branches _ _ _ linked_regularBlocks 4 5 _ _ rfl rfl
  exact ⟨l₁, l₂, c, h, h₁, h₂⟩

/-- **An orphan makes `fetch_branch_from` throw.** After `remove_head` of block `11` with block `12`
built on it, block `12` and the root are both in the fork database, and the walk down from block
`12` looks for block `11`, which is neither the root nor in the index. -/
theorem fetchBranchFrom_orphan :
    (reset orphanRoot).run orphanOps = some ⟨[orphanChild], ⟨orphanRoot, true, false⟩, .root⟩ ∧
      (⟨[orphanChild], ⟨orphanRoot, true, false⟩, .root⟩ : ForkDatabase ℕ).getBlockHeader 2 =
        some orphanChild ∧
      (⟨[orphanChild], ⟨orphanRoot, true, false⟩, .root⟩ : ForkDatabase ℕ).getBlockHeader 0 =
        some ⟨orphanRoot, true, false⟩ ∧
      (⟨[orphanChild], ⟨orphanRoot, true, false⟩, .root⟩ : ForkDatabase ℕ).fetchBranchFrom 2 0 =
        none := by
  refine ⟨by decide, rfl, rfl, by decide⟩

end ForkDatabase

end Eosio.Chain
