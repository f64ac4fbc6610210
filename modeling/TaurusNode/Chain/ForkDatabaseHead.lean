import Mathlib
import TaurusNode.Chain.ForkDatabase
import TaurusNode.Lib.PartialRun

/-!
# The head of the fork database

`fork_database` keeps `head` on the preferred validated block: in every state
reached from `reset` by operations that do not throw, `head` is the root or a
validated block of the index, and no validated block of the index is
`first_preferred` over it (`run_headBest`).

Every operation that picks a new head takes the front of `by_lib_block_num`,
which orders validated blocks first and then by `(dpos_irreversible_blocknum,
block_num)` (`headBest_of_front`); when that front is not validated there is no
validated block at all and the root is the head (`headBest_root`). `mark_valid`
keeps the old head when the front is not preferred over it, and preference is
transitive (`firstPreferred_eq_false_trans`). `remove_fork` refuses to remove
the head, and `advance_root` removes only what `remove_fork` removes, besides
the new root, which a head pointing at it turns into.

The invariant `ForkDatabase.Inv` also records that the ids of the index are
distinct, as `by_block_id` is a unique index: the head is looked up by id.
-/

namespace Eosio.Chain

variable {I : Type} [LinearOrder I]

/-! ### Preference -/

omit [LinearOrder I] in
/-- `first_preferred` is the strict order of `(dpos_irreversible_blocknum, block_num)`. -/
theorem firstPreferred_eq_true_iff (b c : BlockState I) :
    firstPreferred b c = true ↔
      toLex (c.dposIrreversibleBlocknum.toNat, c.blockNum.toNat) <
        toLex (b.dposIrreversibleBlocknum.toNat, b.blockNum.toNat) := by
  rw [Prod.Lex.toLex_lt_toLex, firstPreferred]
  simp [UInt32.lt_iff_toNat_lt, UInt32.toNat_inj]

omit [LinearOrder I] in
theorem firstPreferred_eq_false_trans {a b c : BlockState I} (hab : firstPreferred a b = false)
    (hbc : firstPreferred b c = false) : firstPreferred a c = false := by
  rw [Bool.eq_false_iff, ne_eq, firstPreferred_eq_true_iff, not_lt] at hab hbc ⊢
  exact le_trans hab hbc

/-! ### The front of `by_lib_block_num` -/

/-- A validated block comes before every block that is not. -/
theorem libBlockNumKey_lt_of_validated {b c : BlockState I} (hb : b.validated = true)
    (hc : c.validated = false) : libBlockNumKey b < libBlockNumKey c := by
  rw [libBlockNumKey, libBlockNumKey, Prod.Lex.toLex_lt_toLex]
  simp [hb, hc]

/-- Among validated blocks, a `first_preferred` one comes first. -/
theorem libBlockNumKey_lt_of_firstPreferred {b c : BlockState I} (hb : b.validated = true)
    (hc : c.validated = true) (h : firstPreferred b c = true) :
    libBlockNumKey b < libBlockNumKey c := by
  rw [firstPreferred_eq_true_iff, Prod.Lex.toLex_lt_toLex] at h
  dsimp only at h
  rw [libBlockNumKey, libBlockNumKey, Prod.Lex.toLex_lt_toLex]
  simp only [hb, hc, if_true, lt_self_iff_false, true_and, false_or]
  rw [Prod.Lex.toLex_lt_toLex]
  dsimp only
  rw [Prod.Lex.toLex_lt_toLex]
  dsimp only
  -- greater `dpos_irreversible_blocknum`, or the same and a greater `block_num`
  rcases h with h | ⟨heq, h⟩
  · exact Or.inl (by omega)
  · exact Or.inr ⟨by omega, Or.inl (by omega)⟩

theorem libBlockNumFront_mem {index : List (BlockState I)} {c : BlockState I}
    (h : libBlockNumFront index = some c) : c ∈ index :=
  List.argmin_mem h

/-- The front is validated as soon as some block is. -/
theorem libBlockNumFront_validated {index : List (BlockState I)} {b c : BlockState I}
    (h : libBlockNumFront index = some c) (hb : b ∈ index) (hbv : b.validated = true) :
    c.validated = true := by
  by_contra hc
  exact List.not_lt_of_mem_argmin hb h
    (libBlockNumKey_lt_of_validated hbv (Bool.eq_false_iff.mpr hc))

/-- No validated block is `first_preferred` over the front. -/
theorem libBlockNumFront_best {index : List (BlockState I)} {b c : BlockState I}
    (h : libBlockNumFront index = some c) (hb : b ∈ index) (hbv : b.validated = true) :
    firstPreferred b c = false := by
  rw [Bool.eq_false_iff]
  intro hpref
  exact List.not_lt_of_mem_argmin hb h
    (libBlockNumKey_lt_of_firstPreferred hbv (libBlockNumFront_validated h hb hbv) hpref)

/-! ### Lookup by id -/

/-- With distinct ids, the lookup by the id of a block of the index finds that block. -/
theorem find?_id_of_mem {index : List (BlockState I)} {b : BlockState I}
    (hu : (index.map (·.id)).Nodup) (hb : b ∈ index) :
    index.find? (fun b' => b'.id == b.id) = some b := by
  induction index with
  | nil => cases hb
  | cons x xs ih =>
    rw [List.map_cons, List.nodup_cons] at hu
    by_cases hx : x.id = b.id
    · -- the first block with this id is `b` itself
      rw [List.find?_cons_of_pos (by simp [hx])]
      rcases List.mem_cons.mp hb with rfl | hb
      · rfl
      · exact absurd (hx ▸ List.mem_map_of_mem hb) hu.1
    · rw [List.find?_cons_of_neg (by simpa using hx)]
      rcases List.mem_cons.mp hb with rfl | hb
      · exact absurd rfl hx
      · exact ih hu.2 hb

namespace ForkDatabase

/-- The ids of the index are distinct, as `by_block_id` is a unique index. -/
def IdsUnique (db : ForkDatabase I) : Prop :=
  (db.index.map (·.id)).Nodup

/-- `head` is the root or a validated block of the index, and no validated block of the index is
`first_preferred` over it. -/
def HeadBest (db : ForkDatabase I) : Prop :=
  ∃ h, db.headState = some h ∧ (db.head = .root ∨ (h ∈ db.index ∧ h.validated = true)) ∧
    ∀ b ∈ db.index, b.validated = true → firstPreferred b h = false

/-- The invariant of a fork database. -/
structure Inv (db : ForkDatabase I) : Prop where
  idsUnique : db.IdsUnique
  headBest : db.HeadBest

theorem getBlock_eq_some_iff {db : ForkDatabase I} (hu : db.IdsUnique) {id : I}
    {b : BlockState I} : db.getBlock id = some b ↔ b ∈ db.index ∧ b.id = id := by
  constructor
  · intro h
    exact ⟨List.mem_of_find?_eq_some h, by simpa using List.find?_some h⟩
  · rintro ⟨hb, rfl⟩
    exact find?_id_of_mem hu hb

/-- A head at the validated front of the index is the best. -/
theorem headBest_of_front {db : ForkDatabase I} {c : BlockState I} (hu : db.IdsUnique)
    (hc : libBlockNumFront db.index = some c) (hv : c.validated = true)
    (hhead : db.head = .block c.id) : db.HeadBest := by
  have hmem := libBlockNumFront_mem hc
  refine ⟨c, ?_, Or.inr ⟨hmem, hv⟩, fun b hb hbv => libBlockNumFront_best hc hb hbv⟩
  rw [headState, hhead]
  exact (getBlock_eq_some_iff hu).mpr ⟨hmem, rfl⟩

/-- With no validated block in the index, the root is the best head. -/
theorem headBest_root {db : ForkDatabase I} (hhead : db.head = .root)
    (hnone : ∀ b ∈ db.index, b.validated = false) : db.HeadBest := by
  refine ⟨db.root, by rw [headState, hhead], Or.inl hhead, ?_⟩
  intro b hb hbv
  rw [hnone b hb] at hbv
  cases hbv

/-- A front that is not validated means no block is. -/
theorem validated_eq_false_of_front {index : List (BlockState I)} {c : BlockState I}
    (hc : libBlockNumFront index = some c) (hcv : c.validated = false) :
    ∀ b ∈ index, b.validated = false := by
  intro b hb
  by_contra hbv
  rw [libBlockNumFront_validated hc hb (by simpa using hbv)] at hcv
  cases hcv

/-! ### One operation -/

theorem reset_inv (rootBhs : BlockHeaderState I) : (reset rootBhs).Inv :=
  ⟨List.nodup_nil, headBest_root rfl (fun _ hb => by cases hb)⟩

theorem rollbackHeadToRoot_inv {db : ForkDatabase I} (hinv : db.Inv) :
    db.rollbackHeadToRoot.Inv := by
  constructor
  · -- clearing the flags keeps the ids
    have hids : (db.rollbackHeadToRoot.index.map (·.id)) = db.index.map (·.id) := by
      simp [rollbackHeadToRoot, Function.comp_def]
    rw [IdsUnique, hids]
    exact hinv.idsUnique
  · refine headBest_root rfl ?_
    intro b hb
    obtain ⟨b₀, -, rfl⟩ := List.mem_map.mp hb
    rfl

/-- A block whose id is not in the index keeps the ids distinct when it is appended. -/
theorem IdsUnique.append {db : ForkDatabase I} (hu : db.IdsUnique) {n : BlockState I}
    (hfresh : db.getBlock n.id = none) : ((db.index ++ [n]).map (·.id)).Nodup := by
  rw [List.map_append, List.nodup_append]
  refine ⟨hu, by simp, ?_⟩
  intro x hx y hy hxy
  obtain ⟨b, hb, rfl⟩ := List.mem_map.mp hx
  rw [List.map_singleton, List.mem_singleton] at hy
  subst hy
  have := List.find?_eq_none.mp hfresh b hb
  simp [hxy] at this

theorem add_inv {db db' : ForkDatabase I} {n : BlockState I} {ignoreDuplicate : Bool}
    (hinv : db.Inv) (h : db.add n ignoreDuplicate = some db') : db'.Inv := by
  unfold add at h
  split at h
  · cases h
  split at h
  · -- a duplicate is ignored, or throws
    split at h
    · cases h
      exact hinv
    · cases h
  rename_i _ _ hfresh
  -- the new block has an id of its own
  have hu : ((db.index ++ [n]).map (·.id)).Nodup := hinv.idsUnique.append hfresh
  split at h
  · rename_i c hc
    split at h
    · cases h
      exact ⟨hu, headBest_of_front hu hc (by assumption) rfl⟩
    · -- the front is not validated: no block is, so the head is the root
      cases h
      rename_i hcv
      obtain ⟨hd, -, hroot, -⟩ := hinv.headBest
      have hnone := validated_eq_false_of_front hc (by simpa using hcv)
      rcases hroot with hroot | ⟨hmem, hv⟩
      · exact ⟨hu, headBest_root hroot hnone⟩
      · exact absurd (hnone hd (List.mem_append_left _ hmem)) (by simp [hv])
  · rename_i hnone
    exact absurd (List.argmin_eq_none.mp hnone) (by simp)

/-- An index change that keeps the root, the head, and the head block keeps what `head` points
at. -/
theorem headState_of_mem {db db' : ForkDatabase I} {hd : BlockState I}
    (hhd : db.headState = some hd) (hu' : db'.IdsUnique) (hroot : db'.root = db.root)
    (hhead : db'.head = db.head) (hmem : db.head ≠ .root → hd ∈ db'.index) :
    db'.headState = some hd := by
  cases hh : db.head with
  | root =>
    rw [headState, hh] at hhd
    rw [headState, hhead, hh, hroot, hhd]
  | block hid =>
    rw [headState, hh] at hhd
    have hid' : hd.id = hid := by simpa using List.find?_some hhd
    rw [headState, hhead, hh]
    exact (getBlock_eq_some_iff hu').mpr ⟨hmem (by rw [hh]; intro h; cases h), hid'⟩

theorem markValid_inv {db db' : ForkDatabase I} {id : I} (hinv : db.Inv)
    (h : db.markValid id = some db') : db'.Inv := by
  unfold markValid at h
  split at h
  · cases h
  rename_i m hm
  split at h
  · cases h
    exact hinv
  rename_i hmv
  have hm' := (getBlock_eq_some_iff hinv.idsUnique).mp hm
  -- marking a block keeps the ids
  have hids : ((db.index.map fun b => if b.id = id then { b with validated := true } else b).map
      (·.id)) = db.index.map (·.id) := by
    rw [List.map_map]
    congr 1
    funext b
    simp only [Function.comp_apply]
    split <;> rfl
  have hu : IdsUnique { db with index :=
      (db.index.map fun b => if b.id = id then { b with validated := true } else b) } := by
    rw [IdsUnique, hids]
    exact hinv.idsUnique
  -- the marked block is validated in the new index
  have hmarked : { m with validated := true } ∈
      db.index.map fun b => if b.id = id then { b with validated := true } else b :=
    List.mem_map.mpr ⟨m, hm'.1, by rw [if_pos hm'.2]⟩
  dsimp only at h
  split at h
  · rename_i c hd hc hhd
    have hcv := libBlockNumFront_validated hc hmarked rfl
    split at h
    · cases h
      exact ⟨hu, headBest_of_front hu hc hcv rfl⟩
    · -- the front is not preferred over the head, and neither is any validated block
      cases h
      rename_i hpref
      obtain ⟨hd', hhd', hroot, hbest⟩ := hinv.headBest
      rw [hhd] at hhd'
      cases hhd'
      -- a head block was validated already, so it is not the marked one and stays as it is
      have hkeep : db.head ≠ .root →
          hd ∈ db.index.map fun b => if b.id = id then { b with validated := true } else b := by
        intro hne
        rcases hroot with hroot | ⟨hmem, hv⟩
        · exact absurd hroot hne
        have hne' : hd.id ≠ id := by
          rintro rfl
          have := List.inj_on_of_nodup_map hinv.idsUnique hmem hm'.1 hm'.2.symm
          rw [this] at hv
          exact hmv hv
        exact List.mem_map.mpr ⟨hd, hmem, by rw [if_neg hne']⟩
      refine ⟨hu, hd, headState_of_mem hhd hu rfl rfl hkeep, ?_, ?_⟩
      · by_cases hr : db.head = .root
        · exact Or.inl hr
        · exact Or.inr ⟨hkeep hr, hroot.resolve_left hr |>.2⟩
      · intro b hb hbv
        exact firstPreferred_eq_false_trans (libBlockNumFront_best hc hb hbv)
          (by simpa using hpref)
  · cases h

/-! ### Removing forks -/

theorem removeQueue_startsWith (index : List (BlockState I)) :
    ∀ (fuel : ℕ) (queue : List I) (i : ℕ) {result : List I},
      removeQueue index fuel queue i = some result → queue <+: result
  | 0, queue, i, result, h => by
    unfold removeQueue at h
    split at h
    · cases h
    · cases h
      exact List.prefix_refl _
  | fuel + 1, queue, i, result, h => by
    unfold removeQueue at h
    split at h
    · exact (List.prefix_append _ _).trans (removeQueue_startsWith index fuel _ _ h)
    · cases h
      exact List.prefix_refl _

/-- The queue that the `remove_queue` loop ends with holds the children of each of its ids: the
loop has visited every position, and the ids it has visited have their children queued. -/
theorem removeQueue_closed (index : List (BlockState I)) :
    ∀ (fuel : ℕ) (queue : List I) (i : ℕ) {result : List I},
      removeQueue index fuel queue i = some result →
      (∀ y ∈ queue.take i, ∀ b ∈ index, b.previous = y → b.id ∈ queue) →
      ∀ b ∈ index, b.previous ∈ result → b.id ∈ result
  | 0, queue, i, result, h, hvisited => by
    unfold removeQueue at h
    split at h
    · cases h
    · cases h
      rw [List.take_of_length_le (by omega)] at hvisited
      exact fun b hb hp => hvisited _ hp b hb rfl
  | fuel + 1, queue, i, result, h, hvisited => by
    unfold removeQueue at h
    split at h
    · rename_i hi
      refine removeQueue_closed index fuel _ _ h ?_
      intro y hy b hb hby
      rw [List.take_append_of_le_length (by omega), List.take_add_one,
        List.getElem?_eq_getElem hi, Option.toList_some] at hy
      rcases List.mem_append.mp hy with hy | hy
      · exact List.mem_append_left _ (hvisited y hy b hb hby)
      · -- the position just visited: its children are the ids appended
        rw [List.mem_singleton] at hy
        apply List.mem_append_right
        exact List.mem_map.mpr ⟨b, List.mem_filter.mpr ⟨hb, by simp [hby, hy]⟩, rfl⟩
    · cases h
      rw [List.take_of_length_le (by omega)] at hvisited
      exact fun b hb hp => hvisited _ hp b hb rfl

/-- What a successful `remove_fork` does: it keeps the root and the head, and removes the blocks
of a queue that starts with its argument, holds no head, and holds the children of its ids. -/
theorem removeFork_eq {db db' : ForkDatabase I} {x : I} (h : db.removeFork x = some db') :
    ∃ queue : List I, x ∈ queue ∧ db.headId ∉ queue ∧
      (∀ b ∈ db.index, b.previous ∈ queue → b.id ∈ queue) ∧
      db' = { db with index := db.index.filter fun b => b.id ∉ queue } := by
  unfold removeFork at h
  split at h
  · cases h
  rename_i queue hqueue
  split at h
  · cases h
  rename_i hhead
  cases h
  refine ⟨queue, (removeQueue_startsWith _ _ _ _ hqueue).subset List.mem_cons_self, hhead,
    removeQueue_closed _ _ _ _ hqueue ?_, rfl⟩
  -- nothing has been visited yet
  intro y hy
  cases hy

omit [LinearOrder I] in
theorem headId_congr {db db' : ForkDatabase I} (hroot : db'.root = db.root)
    (hhead : db'.head = db.head) : db'.headId = db.headId := by
  rw [headId, headId, hroot, hhead]

/-- What removing the forks of a list of ids does: it keeps the root and the head, removes only
blocks of the index and never one with the head's id, and a block that stays has none of the ids
as its parent and keeps a parent that was in the index. -/
structure Prunes (db db' : ForkDatabase I) (xs : List I) : Prop where
  root_eq : db'.root = db.root
  head_eq : db'.head = db.head
  sublist : db'.index.Sublist db.index
  keep_head : ∀ b ∈ db.index, b.id = db.headId → b ∈ db'.index
  headId_not_mem : db.headId ∉ xs
  parent_mem : ∀ b ∈ db'.index, ∀ c ∈ db.index, c.id = b.previous → c ∈ db'.index
  previous_not_mem : ∀ b ∈ db'.index, b.previous ∉ xs

omit [LinearOrder I] in
theorem Prunes.refl (db : ForkDatabase I) : Prunes db db [] :=
  ⟨rfl, rfl, List.Sublist.refl _, fun _ hb _ => hb, List.not_mem_nil, fun _ _ _ hc _ => hc,
    fun _ _ => List.not_mem_nil⟩

omit [LinearOrder I] in
theorem Prunes.trans {db₁ db₂ db₃ : ForkDatabase I} {xs ys : List I} (h₁ : Prunes db₁ db₂ xs)
    (h₂ : Prunes db₂ db₃ ys) : Prunes db₁ db₃ (xs ++ ys) := by
  have hid : db₂.headId = db₁.headId := headId_congr h₁.root_eq h₁.head_eq
  refine ⟨h₂.root_eq.trans h₁.root_eq, h₂.head_eq.trans h₁.head_eq,
    h₂.sublist.trans h₁.sublist, ?_, ?_, ?_, ?_⟩
  · intro b hb hbid
    exact h₂.keep_head b (h₁.keep_head b hb hbid) (hbid.trans hid.symm)
  · rw [List.mem_append, not_or]
    refine ⟨h₁.headId_not_mem, ?_⟩
    rw [← hid]
    exact h₂.headId_not_mem
  · intro b hb c hc hcb
    exact h₂.parent_mem b hb c (h₁.parent_mem b (h₂.sublist.subset hb) c hc hcb) hcb
  · intro b hb
    rw [List.mem_append, not_or]
    exact ⟨h₁.previous_not_mem b (h₂.sublist.subset hb), h₂.previous_not_mem b hb⟩

theorem removeFork_prunes {db db' : ForkDatabase I} {x : I} (h : db.removeFork x = some db') :
    Prunes db db' [x] := by
  obtain ⟨queue, hx, hhead, hclosed, rfl⟩ := removeFork_eq h
  refine ⟨rfl, rfl, List.filter_sublist, ?_, ?_, ?_, ?_⟩
  · intro b hb hbid
    exact List.mem_filter.mpr ⟨hb, by simp [hbid, hhead]⟩
  · rw [List.mem_singleton]
    rintro rfl
    exact hhead hx
  · -- a parent in the queue would have put its child in the queue
    intro b hb c hc hcb
    have hb' := List.mem_filter.mp hb
    refine List.mem_filter.mpr ⟨hc, ?_⟩
    rw [decide_eq_true_iff, hcb]
    intro hprev
    exact absurd (hclosed b hb'.1 hprev) (by simpa using hb'.2)
  · intro b hb hprev
    rw [List.mem_singleton] at hprev
    have hb' := List.mem_filter.mp hb
    exact absurd (hclosed b hb'.1 (hprev ▸ hx)) (by simpa using hb'.2)

/-- The second loop of `advance_root`, `remove_fork` on each id in turn. -/
theorem foldlM_removeFork_prunes {xs : List I} {db db' : ForkDatabase I}
    (h : xs.foldlM (fun db blockId => db.removeFork blockId) db = some db') : Prunes db db' xs :=
  PartialRun.foldlM_rel Prunes Prunes.refl Prunes.trans removeFork_prunes h

/-- The first loop of `advance_root` ends at the root's id. -/
theorem root_mem_blocksToRemove (db : ForkDatabase I) :
    ∀ (fuel : ℕ) (b : BlockState I) {xs : List I},
      db.blocksToRemove fuel b = some xs → db.root.id ∈ xs
  | 0, b, xs, h => by
    cases h
  | fuel + 1, b, xs, h => by
    unfold blocksToRemove at h
    split at h
    · obtain ⟨ys, hys, rfl⟩ := Option.map_eq_some_iff.mp h
      exact List.mem_cons_of_mem _ (root_mem_blocksToRemove db fuel _ hys)
    · split at h
      · cases h
        rename_i hroot
        rw [hroot]
        exact List.mem_singleton_self _
      · cases h

/-- What a successful `advance_root` does: the new root is a validated block of the index, the
forks of ids that hold the old root's are removed from the index without the new root, and the
head moves to the root when it pointed at the new root. -/
theorem advanceRoot_eq {db db' : ForkDatabase I} {id : I} (h : db.advanceRoot id = some db') :
    ∃ newRoot toRemove db₁, db.getBlock id = some newRoot ∧ newRoot.validated = true ∧
      db.root.id ∈ toRemove ∧
      Prunes { db with index := db.index.filter fun b => b.id ≠ id } db₁ toRemove ∧
      db' = { db₁ with root := newRoot, head := if db₁.head = .block id then .root else db₁.head } := by
  unfold advanceRoot at h
  split at h
  · cases h
  rename_i newRoot hnew
  split at h
  · cases h
  rename_i hvalid
  split at h
  · cases h
  rename_i toRemove htoRemove
  split at h
  · cases h
  rename_i db₁ hfold
  cases h
  exact ⟨newRoot, toRemove, db₁, hnew, by simpa using hvalid,
    root_mem_blocksToRemove db _ _ htoRemove, foldlM_removeFork_prunes hfold, rfl⟩

theorem removeFork_inv {db db' : ForkDatabase I} {x : I} (hinv : db.Inv)
    (h : db.removeFork x = some db') : db'.Inv := by
  obtain ⟨queue, -, hhead, -, rfl⟩ := removeFork_eq h
  have hu : IdsUnique { db with index := db.index.filter fun b => b.id ∉ queue } :=
    hinv.idsUnique.sublist (List.filter_sublist.map _)
  obtain ⟨hd, hhd, hroot, hbest⟩ := hinv.headBest
  -- the head block is not in the queue, so it stays
  have hkeep : db.head ≠ .root → hd ∈ db.index.filter fun b => b.id ∉ queue := by
    intro hne
    rcases hroot with hroot | ⟨hmem, -⟩
    · exact absurd hroot hne
    cases hh : db.head with
    | root => exact absurd hh hne
    | block hid =>
      rw [headState, hh] at hhd
      have hid' : hd.id = hid := by simpa using List.find?_some hhd
      rw [headId, hh] at hhead
      simpa [hid'] using ⟨hmem, hhead⟩
  refine ⟨hu, hd, headState_of_mem hhd hu rfl rfl hkeep, ?_, ?_⟩
  · by_cases hr : db.head = .root
    · exact Or.inl hr
    · exact Or.inr ⟨hkeep hr, (hroot.resolve_left hr).2⟩
  · intro b hb hbv
    exact hbest b (List.mem_of_mem_filter hb) hbv

theorem advanceRoot_inv {db db' : ForkDatabase I} {id : I} (hinv : db.Inv)
    (h : db.advanceRoot id = some db') : db'.Inv := by
  obtain ⟨newRoot, toRemove, db₁, hnew, -, hroot_mem, hp, rfl⟩ := advanceRoot_eq h
  have hsub : db₁.index.Sublist db.index := hp.sublist.trans List.filter_sublist
  have hu : db₁.IdsUnique := hinv.idsUnique.sublist (hsub.map _)
  obtain ⟨hd, hhd, hroot, hbest⟩ := hinv.headBest
  have hbest' : ∀ b ∈ db₁.index, b.validated = true → firstPreferred b hd = false :=
    fun b hb => hbest b (hsub.subset hb)
  cases hh : db.head with
  | root =>
    -- the old root's id is the head's, and `remove_fork` refuses to remove it
    have hid : ({ db with index := db.index.filter fun b => b.id ≠ id } : ForkDatabase I).headId =
        db.root.id := by
      rw [headId, hh]
    exact absurd hroot_mem (hid ▸ hp.headId_not_mem)
  | block hid =>
    have hhead₁ : db₁.head = .block hid := hp.head_eq.trans hh
    rw [headState, hh] at hhd
    have hd_mem : hd ∈ db.index ∧ hd.id = hid := (getBlock_eq_some_iff hinv.idsUnique).mp hhd
    by_cases hid_eq : hid = id
    · -- the head is the new root, and the head is now the root
      subst hid_eq
      have hnew_hd : newRoot = hd := Option.some.inj (hnew.symm.trans hhd)
      subst hnew_hd
      refine ⟨hu, newRoot, ?_, Or.inl ?_, hbest'⟩
      · simp [headState, hhead₁]
      · simp [hhead₁]
    · -- the head block is not the new root, and `remove_fork` keeps it
      have hmem : hd ∈ db₁.index := by
        refine hp.keep_head hd (List.mem_filter.mpr ⟨hd_mem.1, ?_⟩) ?_
        · simpa [hd_mem.2] using hid_eq
        · rw [headId, hh]
          exact hd_mem.2
      have hhead' : (if db₁.head = .block id then .root else db₁.head) = HeadRef.block hid := by
        rw [hhead₁, if_neg (by simpa using hid_eq)]
      refine ⟨hu, hd, ?_, Or.inr ⟨hmem, ?_⟩, hbest'⟩
      · rw [headState, hhead']
        exact (getBlock_eq_some_iff hu).mpr ⟨hmem, hd_mem.2⟩
      · rcases hroot with hroot | hroot
        · rw [hh] at hroot
          cases hroot
        · exact hroot.2

theorem removeHead_inv {db db' : ForkDatabase I} {id : I} (hinv : db.Inv)
    (h : db.removeHead id = some db') : db'.Inv := by
  unfold removeHead at h
  split at h
  · cases h
  split at h
  · cases h
  have hu : IdsUnique { db with index := db.index.filter fun b => b.id ≠ id } :=
    hinv.idsUnique.sublist (List.filter_sublist.map _)
  -- the new head is the front of what is left, or the root
  split at h
  · rename_i c hc
    split at h
    · rename_i hcv
      cases h
      exact ⟨hu, headBest_of_front hu hc hcv rfl⟩
    · rename_i hcv
      cases h
      exact ⟨hu, headBest_root rfl (validated_eq_false_of_front hc (by simpa using hcv))⟩
  · rename_i hnone
    cases h
    refine ⟨hu, headBest_root rfl ?_⟩
    intro b hb
    rw [show db.index.filter (fun b => b.id ≠ id) = [] from List.argmin_eq_none.mp hnone] at hb
    cases hb

/-- Every operation that does not throw keeps the invariant. -/
theorem apply_inv {db db' : ForkDatabase I} {op : ForkDatabaseOp I} (hinv : db.Inv)
    (h : db.apply op = some db') : db'.Inv := by
  cases op with
  | add n ignoreDuplicate => exact add_inv hinv h
  | markValid id => exact markValid_inv hinv h
  | advanceRoot id => exact advanceRoot_inv hinv h
  | removeFork id => exact removeFork_inv hinv h
  | removeHead id => exact removeHead_inv hinv h
  | rollbackHeadToRoot =>
    cases h
    exact rollbackHeadToRoot_inv hinv

theorem run_inv {db db' : ForkDatabase I} {ops : List (ForkDatabaseOp I)} (hinv : db.Inv)
    (h : db.run ops = some db') : db'.Inv :=
  PartialRun.foldlM_invariant Inv (fun _ hdb _ _ _ hstep => apply_inv hdb hstep) hinv h

/-- **The head is the best block.** In every state reached from `reset` by operations that do not
throw, `head` is the root or a validated block of the index, and no validated block of the index
is `first_preferred` over it. -/
theorem run_headBest (rootBhs : BlockHeaderState I) (ops : List (ForkDatabaseOp I))
    {db : ForkDatabase I} (h : (reset rootBhs).run ops = some db) : db.HeadBest :=
  (run_inv (reset_inv rootBhs) h).headBest

end ForkDatabase

end Eosio.Chain
