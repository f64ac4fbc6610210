import Mathlib
import TaurusNode.Chain.ForkDatabaseOrphans
import TaurusNode.Lib.ParentTree

/-!
# The fork database as a tree

A block's parent is the block its `previous` names, the root or a block of the index (`parent`), so
the blocks of the fork database form a forest in the sense of `ParentTree`. It is a tree under the
root when the ids are distinct and every block of the index is one block number above its parent
(`Linked`). Then the root is below every block of the index (`root_lt`), block numbers rank the
tree (`ranked`), and a block descends to every block number down to the root's
(`exists_descent`) through distinct blocks of the index (`length_lt_fuel`), which bounds the walks
that follow `previous` links.
-/

namespace Eosio.Chain

open ParentTree

variable {I : Type} [LinearOrder I]

namespace ForkDatabase

variable (db : ForkDatabase I)

/-- A block of the database: the root or a block of the index. -/
def Mem (b : BlockState I) : Prop := b = db.root ∨ b ∈ db.index

/-- The parent of a block of the index is the block its `previous` names; the root has none. -/
def parent (b : BlockState I) : Option (BlockState I) :=
  if b ∈ db.index then db.getBlockHeader b.previous else none

/-- The fork database is a tree under its root: the ids of the root and the index are distinct,
and every block of the index is one block number above its parent. -/
structure Linked : Prop where
  idsUnique : db.IdsUnique
  root_id_ne : ∀ b ∈ db.index, b.id ≠ db.root.id
  parent_blockNum : ∀ b ∈ db.index, ∃ p, db.getBlockHeader b.previous = some p ∧
    p.blockNum.toNat + 1 = b.blockNum.toNat

variable {db}

theorem parent_of_mem {b : BlockState I} (hb : b ∈ db.index) :
    db.parent b = db.getBlockHeader b.previous := if_pos hb

theorem mem_index_of_parent {b p : BlockState I} (h : db.parent b = some p) : b ∈ db.index := by
  by_contra hb
  rw [parent, if_neg hb] at h
  cases h

/-- The blocks of a descent are blocks of the index: the root has no parent. -/
theorem mem_index_of_descent {b a x : BlockState I} {l : List (BlockState I)}
    (h : Descent db.parent b l a) (hx : x ∈ l) : x ∈ db.index := by
  induction h with
  | nil => cases hx
  | cons hp _ ih =>
    rcases List.mem_cons.mp hx with rfl | hx
    · exact mem_index_of_parent hp
    · exact ih hx

/-! ### Linked fork databases -/

section Linked

variable (hdb : db.Linked)
include hdb

/-- `get_block_header` finds exactly the block of the database with the id. -/
theorem getBlockHeader_eq_some_iff {id : I} {b : BlockState I} :
    db.getBlockHeader id = some b ↔ db.Mem b ∧ b.id = id := by
  unfold getBlockHeader
  split_ifs with hroot
  · constructor
    · rintro ⟨⟩
      exact ⟨.inl rfl, hroot⟩
    · rintro ⟨hb | hb, rfl⟩
      · rw [hb]
      · exact absurd hroot.symm (hdb.root_id_ne b hb)
  · rw [getBlock_eq_some_iff hdb.idsUnique]
    constructor
    · rintro ⟨hb, rfl⟩
      exact ⟨.inr hb, rfl⟩
    · rintro ⟨hb | hb, rfl⟩
      · exact absurd (hb ▸ rfl) hroot
      · exact ⟨hb, rfl⟩

theorem getBlockHeader_id {b : BlockState I} (hb : db.Mem b) : db.getBlockHeader b.id = some b :=
  (getBlockHeader_eq_some_iff hdb).mpr ⟨hb, rfl⟩

/-- Two blocks of the database with one id are one block. -/
theorem eq_of_id_eq {b c : BlockState I} (hb : db.Mem b) (hc : db.Mem c) (hid : b.id = c.id) :
    b = c := by
  have h := getBlockHeader_id hdb hc
  rw [← hid, getBlockHeader_id hdb hb] at h
  exact Option.some_injective _ h

theorem mem_of_parent {b p : BlockState I} (h : db.parent b = some p) : db.Mem p := by
  rw [parent_of_mem (mem_index_of_parent h), getBlockHeader_eq_some_iff hdb] at h
  exact h.1

/-- A block names its parent's id. -/
theorem previous_of_parent {b p : BlockState I} (h : db.parent b = some p) : b.previous = p.id := by
  rw [parent_of_mem (mem_index_of_parent h), getBlockHeader_eq_some_iff hdb] at h
  exact h.2.symm

theorem ranked : Ranked db.parent fun b => b.blockNum.toNat := by
  intro b p h
  have hb := mem_index_of_parent h
  obtain ⟨p', hp', hnum⟩ := hdb.parent_blockNum b hb
  rw [parent_of_mem hb, hp'] at h
  rwa [← Option.some_injective _ h]

/-- Every block of the index is above the root. -/
theorem root_lt {b : BlockState I} (hb : b ∈ db.index) :
    db.root.blockNum.toNat < b.blockNum.toNat := by
  -- strong induction on the block number, through the parent
  induction hn : b.blockNum.toNat using Nat.strong_induction_on generalizing b with
  | _ n ih =>
    obtain ⟨p, hp, hnum⟩ := hdb.parent_blockNum b hb
    rcases ((getBlockHeader_eq_some_iff hdb).mp hp).1 with rfl | hpi
    · omega
    · have := ih p.blockNum.toNat (by omega) hpi rfl
      omega

theorem root_le {b : BlockState I} (hb : db.Mem b) : db.root.blockNum.toNat ≤ b.blockNum.toNat := by
  rcases hb with rfl | hb
  · exact le_rfl
  · exact (root_lt hdb hb).le

/-- The root is the one block of the database at its height. -/
theorem eq_root_of_blockNum {b : BlockState I} (hb : db.Mem b)
    (hnum : b.blockNum.toNat = db.root.blockNum.toNat) : b = db.root := by
  rcases hb with rfl | hb
  · rfl
  · exact absurd hnum (root_lt hdb hb).ne'

/-- A block of the database descends to each block number from its own down to the root's. -/
theorem exists_descent {b : BlockState I} (hb : db.Mem b) {n : ℕ}
    (hn : db.root.blockNum.toNat ≤ n) (hle : n ≤ b.blockNum.toNat) :
    ∃ l a, Descent db.parent b l a ∧ a.blockNum.toNat = n ∧ db.Mem a := by
  refine exists_descent_rank (ranked hdb) (fun b hb hlt => ?_) hn b hb hle
  -- above the root a block of the database is in the index, and has its parent
  have hbi : b ∈ db.index := by
    rcases hb with rfl | hbi
    · exact absurd hlt (lt_irrefl _)
    · exact hbi
  obtain ⟨p, hp, -⟩ := hdb.parent_blockNum b hbi
  rw [← parent_of_mem hbi] at hp
  exact ⟨p, hp, mem_of_parent hdb hp⟩

/-- A descent has fewer blocks than the fuel of the loops: its blocks are distinct blocks of the
index. -/
theorem length_lt_fuel {b a : BlockState I} {l : List (BlockState I)}
    (h : Descent db.parent b l a) : l.length < db.index.length + 1 :=
  Nat.lt_succ_of_le ((h.nodup (ranked hdb)).length_le_of_subset
    fun _ hx => mem_index_of_descent h hx)

/-- The parent of a block of the index is a block of the database, one block number lower. -/
theorem Linked.parent_mem {b : BlockState I} (hb : b ∈ db.index) :
    ∃ p, db.Mem p ∧ p.id = b.previous ∧ p.blockNum.toNat + 1 = b.blockNum.toNat := by
  obtain ⟨p, hp, hnum⟩ := hdb.parent_blockNum b hb
  obtain ⟨hpm, hpid⟩ := (getBlockHeader_eq_some_iff hdb).mp hp
  exact ⟨p, hpm, hpid, hnum⟩

end Linked

/-- Linked, from the parents found among the blocks of the database. -/
theorem linked_of_parents (hu : db.IdsUnique) (hr : ∀ b ∈ db.index, b.id ≠ db.root.id)
    (hp : ∀ b ∈ db.index,
      ∃ p, db.Mem p ∧ p.id = b.previous ∧ p.blockNum.toNat + 1 = b.blockNum.toNat) :
    db.Linked := by
  refine ⟨hu, hr, fun b hb => ?_⟩
  obtain ⟨p, hpm, hpid, hnum⟩ := hp b hb
  refine ⟨p, ?_, hnum⟩
  rw [← hpid, getBlockHeader]
  rcases hpm with rfl | hpi
  · rw [if_pos rfl]
  · rw [if_neg fun h => hr p hpi h.symm]
    exact (getBlock_eq_some_iff hu).mpr ⟨hpi, rfl⟩

/-! ### Linked in every run without `remove_head` -/

/-- What a successful `add` does: nothing, for a duplicate it ignores, or append a block whose
parent it finds and whose id is new. -/
theorem add_cases {db' : ForkDatabase I} {n : BlockState I} {ignoreDuplicate : Bool}
    (h : db.add n ignoreDuplicate = some db') :
    db' = db ∨ ∃ parent, db.getBlockHeader n.previous = some parent ∧ db.getBlock n.id = none ∧
      db'.index = db.index ++ [n] ∧ db'.root = db.root := by
  unfold add at h
  split at h
  · cases h
  rename_i parent hparent
  split at h
  · split at h
    · cases h
      exact .inl rfl
    · cases h
  rename_i hfresh
  refine .inr ⟨parent, hparent, hfresh, ?_⟩
  split at h
  · split at h
    · cases h
      exact ⟨rfl, rfl⟩
    · cases h
      exact ⟨rfl, rfl⟩
  · cases h
    exact ⟨rfl, rfl⟩

/-- What a successful `mark_valid` does: nothing, for a block already validated, or set the flag
of the block with the id. -/
theorem markValid_cases {db' : ForkDatabase I} {id : I} (h : db.markValid id = some db') :
    db' = db ∨ (db'.index = db.index.map (fun b => if b.id = id then { b with validated := true }
      else b) ∧ db'.root = db.root) := by
  unfold markValid at h
  split at h
  · cases h
  split at h
  · cases h
    exact .inl rfl
  dsimp only at h
  split at h
  · split at h
    · cases h
      exact .inr ⟨rfl, rfl⟩
    · cases h
      exact .inr ⟨rfl, rfl⟩
  · cases h

section Runs

variable (numFromId : I → ℕ)

/-- The numbers of a block agree with the ids, as for every block header: `calculate_id` writes
the block number into the id, which `num_from_id` reads back, and `block_num()` is
`num_from_id(previous) + 1`. -/
def HeaderNumbered (n : BlockState I) : Prop :=
  n.blockNum.toNat = numFromId n.id ∧ n.blockNum.toNat = numFromId n.previous + 1

/-- Every block of the database has the number its id carries. -/
def Numbered : Prop := ∀ b, db.Mem b → b.blockNum.toNat = numFromId b.id

variable {numFromId} {db' : ForkDatabase I}

theorem reset_linked (rootBhs : BlockHeaderState I) : (reset rootBhs).Linked :=
  ⟨List.nodup_nil, fun _ hb => absurd hb List.not_mem_nil, fun _ hb => absurd hb List.not_mem_nil⟩

omit [LinearOrder I] in
theorem reset_numbered {rootBhs : BlockHeaderState I}
    (h : rootBhs.blockNum.toNat = numFromId rootBhs.id) : (reset rootBhs).Numbered numFromId := by
  rintro b (rfl | hb)
  · exact h
  · cases hb

section Map

variable {f : BlockState I → BlockState I} (hindex : db'.index = db.index.map f)
  (hroot : db'.root = db.root) (hid : ∀ b, (f b).id = b.id) (hnum : ∀ b, (f b).blockNum = b.blockNum)
include hindex hroot hid hnum

/-- Changing the blocks of the index but not their ids, parents and numbers keeps the tree. -/
theorem Linked.of_map (hdb : db.Linked) (hprev : ∀ b, (f b).previous = b.previous) :
    db'.Linked := by
  -- a block of the database stays, under `f`
  have hmem : ∀ {p}, db.Mem p → ∃ p', db'.Mem p' ∧ p'.id = p.id ∧ p'.blockNum = p.blockNum := by
    rintro p (rfl | hp)
    · exact ⟨db'.root, .inl rfl, by rw [hroot], by rw [hroot]⟩
    · exact ⟨f p, .inr (hindex ▸ List.mem_map_of_mem hp), hid p, hnum p⟩
  refine linked_of_parents ?_ ?_ ?_
  · have hids : (fun b : BlockState I => b.id) ∘ f = fun b => b.id := funext hid
    rw [IdsUnique, hindex, List.map_map, hids]
    exact hdb.idsUnique
  · intro b hb
    rw [hindex] at hb
    obtain ⟨b₀, hb₀, rfl⟩ := List.mem_map.mp hb
    rw [hid, hroot]
    exact hdb.root_id_ne b₀ hb₀
  · intro b hb
    rw [hindex] at hb
    obtain ⟨b₀, hb₀, rfl⟩ := List.mem_map.mp hb
    obtain ⟨p, hpm, hpid, hpnum⟩ := hdb.parent_mem hb₀
    obtain ⟨p', hp'm, hp'id, hp'num⟩ := hmem hpm
    exact ⟨p', hp'm, by rw [hp'id, hpid, hprev], by rw [hp'num, hpnum, hnum]⟩

omit [LinearOrder I] in
theorem Numbered.of_map (h : db.Numbered numFromId) : db'.Numbered numFromId := by
  rintro b (rfl | hb)
  · rw [hroot]
    exact h _ (.inl rfl)
  · rw [hindex] at hb
    obtain ⟨b₀, hb₀, rfl⟩ := List.mem_map.mp hb
    rw [hid, hnum]
    exact h b₀ (.inr hb₀)

end Map

section Prunes

variable {xs : List I} (hp : Prunes db db' xs)
include hp

/-- Removing forks keeps the tree: a block that stays keeps its parent. -/
theorem Linked.of_prunes (hdb : db.Linked) : db'.Linked := by
  refine linked_of_parents (hdb.idsUnique.sublist (hp.sublist.map _)) ?_ ?_
  · intro b hb
    rw [hp.root_eq]
    exact hdb.root_id_ne b (hp.sublist.subset hb)
  · intro b hb
    obtain ⟨p, hpm, hpid, hpnum⟩ := hdb.parent_mem (hp.sublist.subset hb)
    refine ⟨p, ?_, hpid, hpnum⟩
    rcases hpm with rfl | hpi
    · exact .inl hp.root_eq.symm
    · exact .inr (hp.parent_mem b hb p hpi hpid)

omit [LinearOrder I] in
theorem Numbered.of_prunes (h : db.Numbered numFromId) : db'.Numbered numFromId := by
  rintro b (rfl | hb)
  · rw [hp.root_eq]
    exact h _ (.inl rfl)
  · exact h b (.inr (hp.sublist.subset hb))

end Prunes

section AdvanceRoot

variable {id : I} (h : db.advanceRoot id = some db')
include h

/-- `advance_root` keeps the tree: the blocks left are above the new root, and the children of
the old root went with the forks. -/
theorem Linked.advanceRoot (hdb : db.Linked) : db'.Linked := by
  obtain ⟨newRoot, toRemove, db₁, hnew, -, hroot_mem, hp, rfl⟩ := advanceRoot_eq h
  obtain ⟨-, hnewid⟩ := (getBlock_eq_some_iff hdb.idsUnique).mp hnew
  have hsub : ∀ {b}, b ∈ db₁.index → b ∈ db.index.filter fun b => b.id ≠ id :=
    fun hb => hp.sublist.subset hb
  refine linked_of_parents (hdb.idsUnique.sublist ((hp.sublist.trans List.filter_sublist).map _))
    ?_ ?_
  · intro b hb
    show b.id ≠ newRoot.id
    rw [hnewid]
    simpa using (List.mem_filter.mp (hsub hb)).2
  · intro b hb
    obtain ⟨p, hpm, hpid, hpnum⟩ := hdb.parent_mem (List.mem_of_mem_filter (hsub hb))
    refine ⟨p, ?_, hpid, hpnum⟩
    rcases hpm with rfl | hpi
    · -- the old root's id went with the forks, so no block left is a child of it
      exact absurd (hpid ▸ hroot_mem) (hp.previous_not_mem b hb)
    · by_cases hpid' : p.id = id
      · -- a child of the new root
        left
        have hget : db.getBlock id = some p := (getBlock_eq_some_iff hdb.idsUnique).mpr ⟨hpi, hpid'⟩
        exact Option.some_injective _ (hget.symm.trans hnew)
      · right
        exact hp.parent_mem b hb p (List.mem_filter.mpr ⟨hpi, by simpa using hpid'⟩) hpid

theorem Numbered.advanceRoot (hdb : db.Linked) (hn : db.Numbered numFromId) :
    db'.Numbered numFromId := by
  obtain ⟨newRoot, toRemove, db₁, hnew, -, -, hp, rfl⟩ := advanceRoot_eq h
  rintro b (rfl | hb)
  · exact hn _ (.inr ((getBlock_eq_some_iff hdb.idsUnique).mp hnew).1)
  · exact hn b (.inr (List.mem_of_mem_filter (hp.sublist.subset hb)))

end AdvanceRoot

/-- `add` of a block whose numbers agree with the ids keeps the tree: its parent is one block
number lower, and so is the root, whose id it then cannot have. -/
theorem Linked.add {n : BlockState I} {ignoreDuplicate : Bool} (hdb : db.Linked)
    (hnb : db.Numbered numFromId) (hn : HeaderNumbered numFromId n)
    (h : db.add n ignoreDuplicate = some db') : db'.Linked ∧ db'.Numbered numFromId := by
  rcases add_cases h with rfl | ⟨parent, hparent, hfresh, hindex, hroot⟩
  · exact ⟨hdb, hnb⟩
  obtain ⟨hpm, hpid⟩ := (getBlockHeader_eq_some_iff hdb).mp hparent
  have hpnum : parent.blockNum.toNat + 1 = n.blockNum.toNat := by
    rw [hnb parent hpm, hpid, hn.2]
  have hold : ∀ {b}, db.Mem b → db'.Mem b := by
    rintro b (rfl | hb)
    · exact .inl hroot.symm
    · exact .inr (hindex ▸ List.mem_append_left _ hb)
  have hnb' : db'.Numbered numFromId := by
    rintro b (rfl | hb)
    · rw [hroot]
      exact hnb _ (.inl rfl)
    · rw [hindex] at hb
      rcases List.mem_append.mp hb with hb | hb
      · exact hnb b (.inr hb)
      · rw [List.mem_singleton.mp hb]
        exact hn.1
  have hu : db'.IdsUnique := by
    rw [IdsUnique, hindex]
    exact hdb.idsUnique.append hfresh
  refine ⟨linked_of_parents hu ?_ ?_, hnb'⟩
  · intro b hb
    rw [hroot]
    rw [hindex] at hb
    rcases List.mem_append.mp hb with hb | hb
    · exact hdb.root_id_ne b hb
    · rw [List.mem_singleton.mp hb]
      intro hid
      -- the root has the number of its id, which is the new block's
      have hrootnum : db.root.blockNum.toNat = n.blockNum.toNat := by
        rw [hnb _ (.inl rfl), ← hid, ← hn.1]
      have := root_le hdb hpm
      omega
  · intro b hb
    rw [hindex] at hb
    rcases List.mem_append.mp hb with hb | hb
    · obtain ⟨p, hpm', hpid', hpnum'⟩ := hdb.parent_mem hb
      exact ⟨p, hold hpm', hpid', hpnum'⟩
    · rw [List.mem_singleton.mp hb]
      exact ⟨parent, hold hpm, hpid, hpnum⟩

/-- Every operation but `remove_head` that does not throw keeps the tree, when the blocks it adds
have numbers that agree with their ids. -/
theorem apply_linked {op : ForkDatabaseOp I} (hdb : db.Linked) (hnb : db.Numbered numFromId)
    (hop : ∀ id, op ≠ .removeHead id) (hadd : ∀ n ig, op = .add n ig → HeaderNumbered numFromId n)
    (h : db.apply op = some db') : db'.Linked ∧ db'.Numbered numFromId := by
  -- marking a block changes its flag alone
  have hflag : ∀ id : I, ∀ b : BlockState I,
      (if b.id = id then { b with validated := true } else b).toBlockHeaderState =
        b.toBlockHeaderState := by
    intro id b
    split <;> rfl
  cases op with
  | add n ignoreDuplicate => exact Linked.add hdb hnb (hadd n ignoreDuplicate rfl) h
  | markValid id =>
    rcases markValid_cases h with rfl | ⟨hindex, hroot⟩
    · exact ⟨hdb, hnb⟩
    · have hid b := congrArg BlockHeaderState.id (hflag id b)
      have hnum b := congrArg BlockHeaderState.blockNum (hflag id b)
      exact ⟨hdb.of_map hindex hroot hid hnum fun b => congrArg BlockHeaderState.previous (hflag id b),
        hnb.of_map hindex hroot hid hnum⟩
  | advanceRoot id => exact ⟨hdb.advanceRoot h, hnb.advanceRoot h hdb⟩
  | removeFork id =>
    have hp := removeFork_prunes h
    exact ⟨hdb.of_prunes hp, hnb.of_prunes hp⟩
  | removeHead id => exact absurd rfl (hop id)
  | rollbackHeadToRoot =>
    cases h
    exact ⟨hdb.of_map rfl rfl (fun _ => rfl) (fun _ => rfl) (fun _ => rfl),
      hnb.of_map rfl rfl (fun _ => rfl) (fun _ => rfl)⟩

/-- **The fork database stays a tree without `remove_head`.** Every state reached from `reset` by
operations other than `remove_head` that do not throw, adding blocks whose numbers agree with their
ids, is linked. -/
theorem run_linked {rootBhs : BlockHeaderState I}
    (hroot : rootBhs.blockNum.toNat = numFromId rootBhs.id) {ops : List (ForkDatabaseOp I)}
    (hops : ∀ op ∈ ops, (∀ id, op ≠ .removeHead id) ∧
      ∀ n ig, op = .add n ig → HeaderNumbered numFromId n)
    (h : (reset rootBhs).run ops = some db) : db.Linked ∧ db.Numbered numFromId :=
  PartialRun.foldlM_invariant (fun db => db.Linked ∧ db.Numbered numFromId)
    (fun _ hdb op hop _ hstep => apply_linked hdb.1 hdb.2 (hops op hop).1 (hops op hop).2 hstep)
    ⟨reset_linked rootBhs, reset_numbered hroot⟩ h

end Runs

end ForkDatabase

end Eosio.Chain
